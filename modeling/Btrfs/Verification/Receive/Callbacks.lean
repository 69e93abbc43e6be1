import Btrfs.Model.Receive

/-! # What a stream does to the received files -/

namespace Btrfs.Receive

/-! ## Clones -/

section

variable {calls : CloneCalls} {ctx : CloneCtx} {cmd : CloneCmd} {issued : Option CloneRange}
  {dest sub : Path}

/-- The subvolume found for the clone, or else the one that is received if the clone names it. -/
def CloneSource (ctx : CloneCtx) (cmd : CloneCmd) (sub : Path) : SubvolSearch → Prop
  | .found path => path = (ctx.fullRootPath.map (· ++ ['/'])).getD [] ++ sub
  | _ => cmd.cloneUuid = ctx.receivedUuid ∧ sub = ctx.curSubvolPath

def Cloned (calls : CloneCalls) (ctx : CloneCtx) (cmd : CloneCmd) (issued : Option CloneRange) :
    Prop :=
  ∃ dest sub src, pathCatOut ctx.fullSubvolPath cmd.path = .ok dest ∧
    CloneSource ctx cmd sub (calls.search cmd.cloneUuid cmd.cloneCtransid) ∧
    pathCatOut sub cmd.clonePath = .ok src ∧
    ∃ args, args = ⟨dest, src, cmd.cloneOffset, cmd.len, cmd.offset⟩ ∧
      issued = some args ∧ calls.ioctl args = 0

theorem pathCatOut_neg {p1 p2 : Path} {ret : ℤ} (h : pathCatOut p1 p2 = .error ret) : ret < 0 := by
  rw [pathCatOut] at h
  split_ifs at h
  cases h
  decide

theorem cloneFrom_cloned (hdest : pathCatOut ctx.fullSubvolPath cmd.path = .ok dest)
    (hsub : CloneSource ctx cmd sub (calls.search cmd.cloneUuid cmd.cloneCtransid))
    (h : cloneFrom calls cmd dest sub = (0, issued)) : Cloned calls ctx cmd issued := by
  rw [cloneFrom] at h
  cases hsrc : pathCatOut sub cmd.clonePath with
  | error ret =>
    simp only [hsrc] at h
    exact absurd (Prod.mk.inj h).1 (pathCatOut_neg hsrc).ne
  | ok src =>
    simp only [hsrc] at h
    split_ifs at h with hopen
    · exact absurd (congrArg Prod.fst h) hopen.ne
    · obtain ⟨hret, rfl⟩ := Prod.mk.inj h
      exact ⟨dest, sub, src, hdest, hsub, hsrc, _, rfl, rfl, hret⟩

theorem below_iff {root path : Path} :
    (root.length < path.length ∧ root <+: path ∧ path[root.length]? = some '/') ↔
      root ++ ['/'] <+: path := by
  constructor
  · rintro ⟨-, ⟨sub, rfl⟩, hslash⟩
    cases sub with
    | nil => simp at hslash
    | cons c sub =>
      obtain rfl : c = '/' := by simpa using hslash
      exact ⟨sub, by simp⟩
  · rintro ⟨sub, rfl⟩
    simp

/-- Once the file to write is open, a result of zero means that the range was cloned, or that a
subvolume was found outside the root. -/
theorem processClone_zero (hdest : pathCatOut ctx.fullSubvolPath cmd.path = .ok dest)
    (hopen : ¬ calls.openForWrite dest < 0)
    (hbelow : ∀ root path, calls.openForWrite dest = 0 → ctx.fullRootPath = some root →
      calls.search cmd.cloneUuid cmd.cloneCtransid = .found path → root ++ ['/'] <+: path)
    (h : processClone calls ctx cmd = .ok (0, issued)) : Cloned calls ctx cmd issued := by
  simp only [processClone, hdest, if_neg hopen] at h
  cases hsearch : calls.search cmd.cloneUuid cmd.cloneCtransid with
  | error err => simp [hsearch] at h
  | null =>
    simp only [hsearch] at h
    split_ifs at h with huuid
    · exact cloneFrom_cloned hdest (hsearch ▸ ⟨huuid, rfl⟩) (Except.ok.inj h)
    · simp at h
  | found path =>
    simp only [hsearch] at h
    cases hroot : ctx.fullRootPath with
    | none =>
      simp only [hroot] at h
      exact cloneFrom_cloned hdest (by simp [hsearch, CloneSource, hroot]) (Except.ok.inj h)
    | some root =>
      simp only [hroot, below_iff] at h
      split_ifs at h with hin
      · obtain ⟨sub, rfl⟩ := hin
        refine @cloneFrom_cloned _ _ _ _ _ sub hdest (by simp [hsearch, CloneSource, hroot]) ?_
        simpa using Except.ok.inj h
      · exact absurd (hbelow root path (Prod.mk.inj (Except.ok.inj h)).1 hroot hsearch) hin

/-- A result of zero always means that the range was cloned exactly when no file is opened for a
clone from a subvolume that is found outside the root of the receiving one. -/
theorem processClone_cloned_iff :
    (∀ issued, processClone calls ctx cmd = .ok (0, issued) → Cloned calls ctx cmd issued) ↔
      ∀ dest root path, pathCatOut ctx.fullSubvolPath cmd.path = .ok dest →
        calls.openForWrite dest = 0 → ctx.fullRootPath = some root →
        calls.search cmd.cloneUuid cmd.cloneCtransid = .found path → root ++ ['/'] <+: path := by
  constructor
  · intro h dest root path hdest hopen hroot hsearch
    by_contra hout
    have hzero : processClone calls ctx cmd = .ok (0, none) := by
      simp [processClone, hdest, hopen, hsearch, hroot, below_iff, hout]
    obtain ⟨-, -, -, -, -, -, args, -, hissued, -⟩ := h none hzero
    cases hissued
  · intro hbelow issued h
    cases hdest : pathCatOut ctx.fullSubvolPath cmd.path with
    | error ret =>
      simp only [processClone, hdest] at h
      exact absurd (Prod.mk.inj (Except.ok.inj h)).1 (pathCatOut_neg hdest).ne
    | ok dest =>
      by_cases hopen : calls.openForWrite dest < 0
      · simp only [processClone, hdest, if_pos hopen] at h
        exact absurd (Prod.mk.inj (Except.ok.inj h)).1 hopen.ne
      · exact processClone_zero hdest hopen (fun root path => hbelow dest root path hdest) h

/-- A subvolume outside the root: nothing is cloned, and the zero of the open file is returned. -/
theorem processClone_unreachable :
    processClone ⟨fun _ => 0, fun _ _ => .found ['y'], fun _ => 3, fun _ => 0⟩
      ⟨['s'], ['s'], some ['x'], []⟩ ⟨['a'], 0, 8, [], 7, ['b'], 0⟩ = .ok (0, none) := by
  decide

end

/-! ## Capabilities -/

section

variable {ctx : XattrCtx} {log : List XattrEvent} {cmds : List XattrCmd}

/-- A capability was set with that value and not removed since. -/
def HasSet (path : Path) (data : List (BitVec 8)) : List XattrEvent → Prop
  | [] => False
  | event :: log => event = .setXattr path securityCapability data ∨
      event ≠ .removeXattr path securityCapability ∧ HasSet path data log

/-- Every capability is written to a path for which the stream has set it. -/
def Justified : List XattrEvent → Prop
  | [] => True
  | .lsetxattr path name data :: log =>
    (name = securityCapability → HasSet path data log) ∧ Justified log
  | _ :: log => Justified log

/-- One command, if it is carried out: the subvolume behind it, and the commands so far with their full
paths, the last one first. -/
def carryOut (sub : Path) (log : List XattrEvent) : XattrCmd → Path × List XattrEvent
  | .subvol path => (path, log)
  | .other => (sub, log)
  | .setXattr path name data =>
    match pathCatOut sub path with
    | .error _ => (sub, log)
    | .ok full =>
      if name = securityCapability ∧ data.length > 64 then (sub, log)
      else (sub, .setXattr full name data :: log)
  | .removeXattr path name =>
    match pathCatOut sub path with
    | .error _ => (sub, log)
    | .ok full => (sub, .removeXattr full name :: log)
  | .chown path ret =>
    match pathCatOut sub path with
    | .error _ => (sub, log)
    | .ok full => if ret < 0 then (sub, log) else (sub, .chown full :: log)

/-- The commands of a stream that are carried out. -/
def carriedOut (sub : Path) (log : List XattrEvent) : List XattrCmd → List XattrEvent
  | [] => log
  | cmd :: cmds => carriedOut (carryOut sub log cmd).1 (carryOut sub log cmd).2 cmds

/-- The last capability that was set, if no `chown` follows it. -/
def pending : List XattrEvent → List (BitVec 8)
  | [] => []
  | .chown _ :: _ => []
  | .setXattr _ name data :: log => if name = securityCapability then data else pending log
  | _ :: log => pending log

/-- The first `chown` behind a capability is for a path that has it. -/
def Restores : List XattrEvent → Prop
  | [] => True
  | .chown path :: log => (pending log ≠ [] → HasSet path (pending log) log) ∧ Restores log
  | _ :: log => Restores log

/-- How the callbacks follow the commands that are carried out. -/
structure Follows (ctx : XattrCtx) (log commands : List XattrEvent) : Prop where
  caches : ctx.cachedCapabilities = pending commands
  hasSet : ∀ path data, HasSet path data log ↔ HasSet path data commands
  justified : Justified log ↔ Restores commands

variable {commands : List XattrEvent}

theorem processXattr_sub (cmd : XattrCmd) : (processXattr ctx log cmd).1.fullSubvolPath =
    (carryOut ctx.fullSubvolPath commands cmd).1 := by
  cases cmd with
  | subvol path => rfl
  | other => rfl
  | setXattr path name data =>
    simp only [processXattr, carryOut]
    cases pathCatOut ctx.fullSubvolPath path with
    | error err => rfl
    | ok full => split_ifs <;> rfl
  | removeXattr path name =>
    simp only [processXattr, carryOut]
    cases pathCatOut ctx.fullSubvolPath path <;> rfl
  | chown path ret =>
    simp only [processXattr, carryOut]
    cases pathCatOut ctx.fullSubvolPath path with
    | error err => rfl
    | ok full => split_ifs <;> rfl

theorem Follows.step (h : Follows ctx log commands) (cmd : XattrCmd) :
    Follows (processXattr ctx log cmd).1 (processXattr ctx log cmd).2
      (carryOut ctx.fullSubvolPath commands cmd).2 := by
  obtain ⟨hcaches, hset, hjust⟩ := h
  cases cmd with
  | subvol path => exact ⟨hcaches, hset, hjust⟩
  | other => exact ⟨hcaches, hset, hjust⟩
  | setXattr path name data =>
    simp only [processXattr, carryOut]
    cases pathCatOut ctx.fullSubvolPath path with
    | error ret => exact ⟨hcaches, hset, hjust⟩
    | ok full =>
      by_cases hname : name = securityCapability
      · by_cases hlen : data.length > 64
        · simp only [hname, hlen, and_self, if_true]
          exact ⟨hcaches, hset, hjust⟩
        · simp only [hname, hlen, and_false, if_false, if_true]
          exact ⟨by simp [pending], by simp [HasSet, hset],
            by simp [Justified, Restores, HasSet, hjust]⟩
      · simp only [hname, false_and, if_false]
        exact ⟨by simp [pending, hname, hcaches], by simp [HasSet, hset],
          by simp [Justified, Restores, hname, hjust]⟩
  | removeXattr path name =>
    simp only [processXattr, carryOut]
    cases pathCatOut ctx.fullSubvolPath path with
    | error ret => exact ⟨hcaches, hset, hjust⟩
    | ok full => exact ⟨hcaches, by simp [HasSet, hset], hjust⟩
  | chown path ret =>
    simp only [processXattr, carryOut]
    cases pathCatOut ctx.fullSubvolPath path with
    | error err => exact ⟨hcaches, hset, hjust⟩
    | ok full =>
      by_cases hret : ret < 0
      · simp only [hret, if_true]
        exact ⟨hcaches, hset, hjust⟩
      by_cases hcached : ctx.cachedCapabilities = []
      · simp only [hret, hcached, if_false, if_true]
        rw [hcached] at hcaches
        exact ⟨hcached, by simp [HasSet, hset], by simp [Justified, Restores, ← hcaches, hjust]⟩
      · simp only [hret, hcached, if_false]
        rw [hcaches] at hcached ⊢
        exact ⟨rfl, by simp [HasSet, hset], by simp [Justified, Restores, HasSet, hset, hjust, hcached]⟩

theorem Follows.run (h : Follows ctx log commands) (cmds : List XattrCmd) :
    Justified (processXattrs ctx log cmds).2 ↔
      Restores (carriedOut ctx.fullSubvolPath commands cmds) := by
  induction cmds generalizing ctx log commands with
  | nil => exact h.justified
  | cons cmd cmds ih =>
    rw [carriedOut, ← @processXattr_sub ctx log commands cmd]
    exact ih (h.step cmd)

/-- Capabilities are written only to paths for which the stream has set them exactly when, among the
commands that are carried out, the first `chown` behind a capability that is not empty is for a path
that has this capability. -/
theorem processXattrs_justified_iff (hempty : ctx.cachedCapabilities = []) :
    Justified (processXattrs ctx [] cmds).2 ↔ Restores (carriedOut ctx.fullSubvolPath [] cmds) :=
  Follows.run ⟨hempty, fun _ _ => Iff.rfl, Iff.rfl⟩ cmds

theorem processXattrs_twoFiles :
    Justified (processXattrs ⟨['s'], []⟩ [] [.setXattr ['a'] securityCapability [1], .chown ['a'] 0,
      .setXattr ['b'] securityCapability [], .chown ['c'] 0]).2 :=
  (processXattrs_justified_iff rfl).mpr (by
    simp [carriedOut, carryOut, pathCatOut, PATH_MAX, Restores, pending, HasSet])

/-- A capability of one file is written to the next file whose owner changes. -/
theorem processXattrs_transfer : ¬ Justified (processXattrs ⟨['s'], []⟩ []
      [.setXattr ['a'] securityCapability [1], .chown ['b'] 0]).2 := by
  simp [processXattrs, processXattr, pathCatOut, PATH_MAX, Justified, HasSet]

end

/-! ## The file that is open for writing -/

section

variable {ν π : Type*} [DecidableEq ν] [DecidableEq π] {naming : Naming ν π}
  {entries entries' : Entries ν} {files : Files ν π}

/-- The directory entries that the lookup of a path reads. -/
def visitedFrom (naming : Naming ν π) (entries : Entries ν) (next : ℕ → List ν → List (ℕ × ν)) :
    ℕ → List ν → List (ℕ × ν)
  | _, [] => []
  | d, c :: cs =>
    (d, c) :: match entries d c with
      | some (.dir i) => visitedFrom naming entries next i cs
      | some (.symlink absolute target) => next (naming.base d absolute) (target ++ cs)
      | _ => []

def visited (naming : Naming ν π) (entries : Entries ν) : ℕ → ℕ → List ν → List (ℕ × ν)
  | 0 => visitedFrom naming entries fun _ _ => []
  | n + 1 => visitedFrom naming entries (visited naming entries n)

def Files.visited (naming : Naming ν π) (files : Files ν π) (path : π) : List (ℕ × ν) :=
  Receive.visited naming files.entries MAXSYMLINKS naming.root (naming.split path)

section

variable {next next' : ℕ → List ν → Option ℕ} {seen : ℕ → List ν → List (ℕ × ν)}

omit [DecidableEq ν] [DecidableEq π] in
theorem walkFrom_congr {d : ℕ} {cs : List ν}
    (hnext : ∀ d cs, (∀ e ∈ seen d cs, entries' e.1 e.2 = entries e.1 e.2) → next' d cs = next d cs)
    (h : ∀ e ∈ visitedFrom naming entries seen d cs, entries' e.1 e.2 = entries e.1 e.2) :
    walkFrom naming entries' next' d cs = walkFrom naming entries next d cs := by
  induction cs generalizing d with
  | nil => rfl
  | cons c cs ih =>
    rw [visitedFrom] at h
    obtain ⟨hentry, hrest⟩ := List.forall_mem_cons.mp h
    rw [walkFrom, walkFrom, hentry]
    cases he : entries d c with
    | none => rfl
    | some entry =>
      simp only [he] at hrest
      cases entry with
      | dir i => exact ih hrest
      | file i => rfl
      | symlink absolute target => exact hnext _ _ hrest

omit [DecidableEq ν] [DecidableEq π] in
/-- A lookup depends only on the entries that it reads. -/
theorem walk_congr {n d : ℕ} {cs : List ν}
    (h : ∀ e ∈ visited naming entries n d cs, entries' e.1 e.2 = entries e.1 e.2) :
    walk naming entries' n d cs = walk naming entries n d cs := by
  induction n generalizing d cs with
  | zero => exact walkFrom_congr (fun _ _ _ => rfl) h
  | succ n ih => exact walkFrom_congr (fun _ _ hseen => ih hseen) h

end

theorem foldl_setEntry {changes : List ((ℕ × ν) × Option (Entry ν))} {d : ℕ} {c : ν}
    (h : ∀ change ∈ changes, change.1 ≠ (d, c)) :
    changes.foldl setEntry entries d c = entries d c := by
  induction changes generalizing entries with
  | nil => rfl
  | cons change changes ih =>
    obtain ⟨hne, hrest⟩ := List.forall_mem_cons.mp h
    rw [List.foldl_cons, ih hrest, setEntry, if_neg (Ne.symm hne)]

/-- The command changes an entry that the lookup of the path reads. -/
def Disturbs (naming : Naming ν π) (files : Files ν π) (cmd : FileCmd ν π) (path : π) : Prop :=
  ∃ change ∈ files.changes naming cmd, change.1 ∈ files.visited naming path

instance (cmd : FileCmd ν π) (path : π) : Decidable (Disturbs naming files cmd path) :=
  inferInstanceAs (Decidable (∃ change ∈ _, _))

theorem processFile_lookup {cmd : FileCmd ν π} {path : π} (h : ¬ Disturbs naming files cmd path) :
    (processFile naming files cmd).lookup naming path = files.lookup naming path := by
  apply walk_congr
  intro e he
  apply foldl_setEntry
  intro change hmem heq
  exact h ⟨change, hmem, heq ▸ he⟩

/-- The open file is the one its path leads to. -/
def Current (naming : Naming ν π) (files : Files ν π) : Prop :=
  ∀ p inode, files.writeFile = some (p, inode) → files.lookup naming p = some inode

/-- No command changes an entry on the way to the file that is open for writing. -/
def Undisturbed (naming : Naming ν π) : Files ν π → List (FileCmd ν π) → Prop
  | _, [] => True
  | files, cmd :: cmds => (∀ file ∈ files.writeFile, ¬ Disturbs naming files cmd file.1) ∧
      Undisturbed naming (processFile naming files cmd) cmds

instance decidableUndisturbed (naming : Naming ν π) :
    (files : Files ν π) → (cmds : List (FileCmd ν π)) → Decidable (Undisturbed naming files cmds)
  | _, [] => isTrue trivial
  | files, cmd :: cmds =>
    have := decidableUndisturbed naming (processFile naming files cmd) cmds
    inferInstanceAs (Decidable (_ ∧ _))

omit [DecidableEq ν] in
theorem Current.open (h : Current naming files) (path : π) :
    (openInodeForWrite naming files path).map Prod.snd = files.lookup naming path ∧
      ∀ p inode, openInodeForWrite naming files path = some (p, inode) →
        files.lookup naming p = some inode := by
  rw [openInodeForWrite]
  split_ifs with hopen
  · obtain ⟨⟨p, inode⟩, hfile, rfl⟩ := Option.map_eq_some_iff.mp hopen
    exact ⟨by simp [hfile, h p inode hfile], h⟩
  · cases hn : files.lookup naming path <;> simp_all

theorem Current.step {cmd : FileCmd ν π} (h : Current naming files)
    (hcalm : ∀ file ∈ files.writeFile, ¬ Disturbs naming files cmd file.1) :
    Current naming (processFile naming files cmd) := by
  intro p inode hfile
  have hkept : files.writeFile = some (p, inode) →
      (processFile naming files cmd).lookup naming p = some inode := fun hopen => by
    rw [processFile_lookup (hcalm _ hopen), h p inode hopen]
  -- writes and clones change no entry
  have hopened : ∀ path, openInodeForWrite naming files path = some (p, inode) →
      files.lookup naming p = some inode := fun path => (h.open path).2 p inode
  cases cmd with
  | write path => exact hopened path hfile
  | clone path => exact hopened path hfile
  | close => cases hfile
  | _ => exact hkept hfile

/-- While no command changes an entry on the way to the open file, every write and clone changes the
file that its path leads to. -/
theorem processFile_writesNamed (h : Current naming files) {cmds : List (FileCmd ν π)}
    (hcalm : Undisturbed naming files cmds) {cmd : FileCmd ν π} {path : π}
    (hcmd : cmd = .write path ∨ cmd = .clone path) :
    (processFile naming (cmds.foldl (processFile naming) files) cmd).writeFile.map Prod.snd =
      (cmds.foldl (processFile naming) files).lookup naming path := by
  induction cmds generalizing files with
  | nil => rcases hcmd with rfl | rfl <;> exact (h.open path).1
  | cons first cmds ih => exact ih (h.step hcalm.1) hcalm.2

/-! ## Files below a directory and a link to it -/

/-- Paths as lists of numbers, with the directory and its parent called 0 and 1. -/
def numberNaming : Naming ℕ (List ℕ) := ⟨id, 0, 0, 1⟩

/-- An empty root directory. -/
def emptyRoot : Files ℕ (List ℕ) := ⟨fun _ _ => none, 1, none⟩

/-- A file is written through a link to its directory, another one is made and renamed, and the
first is written again. -/
def throughLink : List (FileCmd ℕ (List ℕ)) :=
  [.mkdir [5], .mkfile [5, 6], .symlink [7] false [5], .write [7, 6], .mkfile [5, 8],
    .rename [5, 8] [5, 9]]

theorem processFile_throughLink :
    (processFile numberNaming (throughLink.foldl (processFile numberNaming) emptyRoot)
        (.write [7, 6])).writeFile.map Prod.snd =
      (throughLink.foldl (processFile numberNaming) emptyRoot).lookup numberNaming [7, 6] :=
  processFile_writesNamed (fun _ _ hfile => by cases hfile)
    (show Undisturbed numberNaming emptyRoot throughLink by decide) (.inl rfl)

/-- A file is renamed and another one gets its name, but the write goes to the first. -/
theorem processFile_stale :
    ((processFile numberNaming ([.mkfile [5], .write [5], .rename [5] [6], .mkfile [5]].foldl
        (processFile numberNaming) emptyRoot) (.write [5])).writeFile.map Prod.snd = some 1) ∧
      ([.mkfile [5], .write [5], .rename [5] [6], .mkfile [5]].foldl
        (processFile numberNaming) emptyRoot).lookup numberNaming [5] = some 4 := by
  decide

end

end Btrfs.Receive
