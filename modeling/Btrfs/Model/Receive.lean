import Btrfs.Model.Basic

/-! # Receiving a stream (`cmds-receive.c`) -/

namespace Btrfs.Receive

abbrev Path := List Char

def PATH_MAX : ℕ := 4096

def ENAMETOOLONG : ℤ := 36

/-- `path_cat_out` of `send-utils.c`. -/
def pathCatOut (p1 p2 : Path) : Except ℤ Path :=
  let trim := fun p : Path => if p.getLast? = some '/' then p.dropLast else p
  if p1.length + p2.length + 2 ≥ PATH_MAX then .error (-ENAMETOOLONG)
  else .ok (trim p1 ++ '/' :: trim p2)

/-! ## Clones -/

/-- The fields of a `struct btrfs_receive` that `process_clone` reads. -/
structure CloneCtx where
  fullSubvolPath : Path
  curSubvolPath : Path
  fullRootPath : Option Path
  receivedUuid : List (BitVec 8)

structure CloneCmd where
  path : Path
  offset : ℕ
  len : ℕ
  cloneUuid : List (BitVec 8)
  cloneCtransid : ℕ
  clonePath : Path
  cloneOffset : ℕ

/-- The result of `subvol_uuid_search`: the path of a subvolume, a null or an error pointer. -/
inductive SubvolSearch where
  | found (path : Path)
  | null
  | error (err : ℤ)

/-- The files and the arguments of a `BTRFS_IOC_CLONE_RANGE`. -/
structure CloneRange where
  dest : Path
  src : Path
  srcOffset : ℕ
  srcLength : ℕ
  destOffset : ℕ
deriving DecidableEq

/-- What the calls return; the search is for a UUID and a transaction. -/
structure CloneCalls where
  openForWrite : Path → ℤ
  search : List (BitVec 8) → ℕ → SubvolSearch
  openat : Path → ℤ
  ioctl : CloneRange → ℤ

/-- The part of `process_clone` behind the choice of the subvolume. -/
def cloneFrom (calls : CloneCalls) (cmd : CloneCmd) (dest subvolPath : Path) :
    ℤ × Option CloneRange :=
  match pathCatOut subvolPath cmd.clonePath with
  | .error ret => (ret, none)
  | .ok src =>
    if calls.openat src < 0 then (calls.openat src, none)
    else
      let args := ⟨dest, src, cmd.cloneOffset, cmd.len, cmd.offset⟩
      (calls.ioctl args, some args)

/-- `process_clone`: the result, and the range that was cloned or tried. The exit frees the path of an
error pointer, which is a fault. -/
def processClone (calls : CloneCalls) (ctx : CloneCtx) (cmd : CloneCmd) :
    Call (ℤ × Option CloneRange) :=
  match pathCatOut ctx.fullSubvolPath cmd.path with
  | .error ret => .ok (ret, none)
  | .ok dest =>
    let ret := calls.openForWrite dest
    if ret < 0 then .ok (ret, none)
    else
      match calls.search cmd.cloneUuid cmd.cloneCtransid with
      | .error _ => .error .bug
      | .null =>
        if cmd.cloneUuid = ctx.receivedUuid then .ok (cloneFrom calls cmd dest ctx.curSubvolPath)
        else .ok (-2, none)
      | .found path =>
        match ctx.fullRootPath with
        | none => .ok (cloneFrom calls cmd dest path)
        | some root =>
          if root.length < path.length ∧ root <+: path ∧ path[root.length]? = some '/' then
            .ok (cloneFrom calls cmd dest (path.drop (root.length + 1)))
          else .ok (ret, none)

/-! ## Capabilities -/

def securityCapability : Path := "security.capability".toList

/-- The fields of a `struct btrfs_receive` for extended attributes; the cached value has
`cached_capabilities_len` bytes. -/
structure XattrCtx where
  fullSubvolPath : Path
  cachedCapabilities : List (BitVec 8)

/-- The commands that matter here; `chown` with the result of `lchown`. -/
inductive XattrCmd where
  | subvol (fullSubvolPath : Path)
  | setXattr (path name : Path) (data : List (BitVec 8))
  | removeXattr (path name : Path)
  | chown (path : Path) (ret : ℤ)
  | other

/-- What happens to a full path: a command that is carried out, or a call of `lsetxattr`. -/
inductive XattrEvent where
  | setXattr (path name : Path) (data : List (BitVec 8))
  | removeXattr (path name : Path)
  | chown (path : Path)
  | lsetxattr (path name : Path) (data : List (BitVec 8))
deriving DecidableEq

/-- The callbacks `process_set_xattr`, `process_remove_xattr` and `process_chown`, with the events so
far, the last one first. -/
def processXattr (ctx : XattrCtx) (log : List XattrEvent) : XattrCmd → XattrCtx × List XattrEvent
  | .subvol path => ({ ctx with fullSubvolPath := path }, log)
  | .other => (ctx, log)
  | .setXattr path name data =>
    match pathCatOut ctx.fullSubvolPath path with
    | .error _ => (ctx, log)
    | .ok full =>
      if name = securityCapability ∧ data.length > 64 then (ctx, log)
      else
        (if name = securityCapability then { ctx with cachedCapabilities := data } else ctx,
          .lsetxattr full name data :: .setXattr full name data :: log)
  | .removeXattr path name =>
    match pathCatOut ctx.fullSubvolPath path with
    | .error _ => (ctx, log)
    | .ok full => (ctx, .removeXattr full name :: log)
  | .chown path ret =>
    match pathCatOut ctx.fullSubvolPath path with
    | .error _ => (ctx, log)
    | .ok full =>
      if ret < 0 then (ctx, log)
      else if ctx.cachedCapabilities = [] then (ctx, .chown full :: log)
      else
        ({ ctx with cachedCapabilities := [] },
          .lsetxattr full securityCapability ctx.cachedCapabilities :: .chown full :: log)

def processXattrs (ctx : XattrCtx) (log : List XattrEvent) :
    List XattrCmd → XattrCtx × List XattrEvent
  | [] => (ctx, log)
  | cmd :: cmds =>
    let (ctx, log) := processXattr ctx log cmd
    processXattrs ctx log cmds

/-! ## The file that is open for writing -/

section

variable {ν π : Type*} [DecidableEq ν] [DecidableEq π]

/-- What a name in a directory stands for. -/
inductive Entry (ν : Type*) where
  | dir (inode : ℕ)
  | file (inode : ℕ)
  | symlink (absolute : Bool) (target : List ν)
deriving DecidableEq

/-- The entries of the directories, by the inode of the directory. -/
abbrev Entries (ν : Type*) := ℕ → ν → Option (Entry ν)

/-- How the kernel reads a path: its components, where it starts, and the names of a directory and
its parent. -/
structure Naming (ν π : Type*) where
  split : π → List ν
  root : ℕ
  dot : ν
  dotdot : ν

/-- The symbolic links that one lookup follows at most. -/
def MAXSYMLINKS : ℕ := 40

/-- The directory that the target of a symbolic link in `d` is looked up from. -/
def Naming.base (naming : Naming ν π) (d : ℕ) (absolute : Bool) : ℕ :=
  if absolute then naming.root else d

/-- The inode that a path leads to from a directory; `next` goes on behind a symbolic link. -/
def walkFrom (naming : Naming ν π) (entries : Entries ν) (next : ℕ → List ν → Option ℕ) :
    ℕ → List ν → Option ℕ
  | d, [] => some d
  | d, c :: cs =>
    match entries d c with
    | none => none
    | some (.dir i) => walkFrom naming entries next i cs
    | some (.file i) => if cs = [] then some i else none
    | some (.symlink absolute target) => next (naming.base d absolute) (target ++ cs)

/-- The inode that a path leads to, with the symbolic links that may be followed. -/
def walk (naming : Naming ν π) (entries : Entries ν) : ℕ → ℕ → List ν → Option ℕ
  | 0 => walkFrom naming entries fun _ _ => none
  | n + 1 => walkFrom naming entries (walk naming entries n)

/-- The entry that `creat` makes, unless the path leads to a file. -/
def creatFrom (naming : Naming ν π) (entries : Entries ν) (next : ℕ → List ν → Option (ℕ × ν)) :
    ℕ → List ν → Option (ℕ × ν)
  | _, [] => none
  | d, c :: cs =>
    match entries d c with
    | none => if cs = [] then some (d, c) else none
    | some (.dir i) => creatFrom naming entries next i cs
    | some (.file _) => none
    | some (.symlink absolute target) => next (naming.base d absolute) (target ++ cs)

def creatPlace (naming : Naming ν π) (entries : Entries ν) : ℕ → ℕ → List ν → Option (ℕ × ν)
  | 0 => creatFrom naming entries fun _ _ => none
  | n + 1 => creatFrom naming entries (creatPlace naming entries n)

/-- The directories, the next inode, and `write_path` with the inode of `write_fd`. -/
structure Files (ν π : Type*) where
  entries : Entries ν
  next : ℕ
  writeFile : Option (π × ℕ)

/-- The callbacks with their full paths. `mknod` stands for `mknod`, `mkfifo` and `mksock`, `other`
for those that change no names, and `close` for `close_inode_for_write`. -/
inductive FileCmd (ν π : Type*) where
  | mkfile (path : π)
  | mkdir (path : π)
  | mknod (path : π)
  | symlink (path : π) (absolute : Bool) (target : List ν)
  | rename (source target : π)
  | link (path lnk : π)
  | unlink (path : π)
  | rmdir (path : π)
  | write (path : π)
  | clone (path : π)
  | close
  | other

variable (naming : Naming ν π)

/-- The inode that `open` finds. -/
def Files.lookup (files : Files ν π) (path : π) : Option ℕ :=
  walk naming files.entries MAXSYMLINKS naming.root (naming.split path)

/-- The directory and the name at the end of a path; a link at the end is not followed. -/
def Files.place (files : Files ν π) (path : π) : Option (ℕ × ν) :=
  match (naming.split path).getLast? with
  | none => none
  | some c =>
    (walk naming files.entries MAXSYMLINKS naming.root (naming.split path).dropLast).map (·, c)

/-- A new entry, which must not exist. -/
def Files.make (files : Files ν π) (path : π) (added : ℕ × ν → List ((ℕ × ν) × Option (Entry ν))) :
    List ((ℕ × ν) × Option (Entry ν)) :=
  match files.place naming path with
  | none => []
  | some place => if files.entries place.1 place.2 = none then added place else []

/-- The entries that the system call of a callback changes. A call that fails changes none. -/
def Files.changes (files : Files ν π) : FileCmd ν π → List ((ℕ × ν) × Option (Entry ν))
  | .mkfile path =>
    match creatPlace naming files.entries MAXSYMLINKS naming.root (naming.split path) with
    | none => []
    | some place => [(place, some (.file files.next))]
  | .mkdir path => files.make naming path fun place =>
      [(place, some (.dir files.next)), ((files.next, naming.dot), some (.dir files.next)),
        ((files.next, naming.dotdot), some (.dir place.1))]
  | .mknod path => files.make naming path fun place => [(place, some (.file files.next))]
  | .symlink path absolute target =>
    files.make naming path fun place => [(place, some (.symlink absolute target))]
  | .rename source target =>
    match files.place naming source, files.place naming target with
    | some place, some place' =>
      match files.entries place.1 place.2 with
      | none => []
      | some (.dir i) =>
        [(place, none), (place', some (.dir i)), ((i, naming.dotdot), some (.dir place'.1))]
      | some (.file i) =>
        -- two links to one file are left as they are
        if files.entries place'.1 place'.2 = some (.file i) then []
        else [(place, none), (place', some (.file i))]
      | some entry => [(place, none), (place', some entry)]
    | _, _ => []
  | .link path lnk =>
    match files.place naming lnk with
    | none => []
    | some source =>
      match files.entries source.1 source.2 with
      | none | some (.dir _) => []
      | some entry => files.make naming path fun place => [(place, some entry)]
  | .unlink path =>
    match files.place naming path with
    | none => []
    | some place =>
      match files.entries place.1 place.2 with
      | none | some (.dir _) => []
      | some _ => [(place, none)]
  | .rmdir path =>
    match files.place naming path with
    | none => []
    | some place =>
      match files.entries place.1 place.2 with
      | some (.dir _) => [(place, none)]
      | _ => []
  | .write _ | .clone _ | .close | .other => []

def setEntry (entries : Entries ν) (change : (ℕ × ν) × Option (Entry ν)) : Entries ν :=
  fun d c => if (d, c) = change.1 then change.2 else entries d c

/-- `open_inode_for_write`: the descriptor that is used. -/
def openInodeForWrite (files : Files ν π) (path : π) : Option (π × ℕ) :=
  if files.writeFile.map Prod.fst = some path then files.writeFile
  else (files.lookup naming path).map (path, ·)

/-- One callback. Writes and clones open their file the same way and change it through the
descriptor. -/
def processFile (files : Files ν π) (cmd : FileCmd ν π) : Files ν π where
  entries := (files.changes naming cmd).foldl setEntry files.entries
  next := files.next + 1
  writeFile :=
    match cmd with
    | .write path | .clone path => openInodeForWrite naming files path
    | .close => none
    | _ => files.writeFile

end

end Btrfs.Receive
