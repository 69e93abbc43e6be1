import Btrfs.Model.DiskIo
import Btrfs.Verification.Shared.Calls

/-! # The mirrors of a tree block -/

namespace Btrfs.DiskIo

open Raid56 Volumes

/-! ## What a buffer is checked for -/

/-- Two buffers have the same bytes up to a length. -/
def SameOn (len : ℕ) (data data' : ℕ → Byte) : Prop := ∀ k < len, data k = data' k

/-- The checksum and the header are those of a tree block. -/
def Passes (info : FsInfo) (eb : Volumes.ExtentBuffer) (data : ℕ → Byte) : Prop :=
  csumTreeBlock { eb with data := data } = true ∧ checkTreeBlock info { eb with data := data } = .ok ()

/-- The block is the one that its parent points to. -/
def Matches (parentTransid : ℕ) (data : ℕ → Byte) : Prop :=
  parentTransid = 0 ∨ headerGeneration data = parentTransid

instance (parentTransid : ℕ) (data : ℕ → Byte) : Decidable (Matches parentTransid data) :=
  inferInstanceAs (Decidable (parentTransid = 0 ∨ headerGeneration data = parentTransid))

section

variable {len : ℕ} {data data' : ℕ → Byte}

section

variable (h : SameOn len data data')

include h

theorem SameOn.symm : SameOn len data' data := fun k hk => (h k hk).symm

theorem SameOn.trans {data'' : ℕ → Byte} (h' : SameOn len data' data'') : SameOn len data data'' :=
  fun k hk => (h k hk).trans (h' k hk)

theorem SameOn.bytesAt_eq {offset n : ℕ} (hle : offset + n ≤ len) :
    bytesAt data offset n = bytesAt data' offset n := by
  apply List.map_congr_left
  intro k hk
  have hlt := List.mem_range.mp hk
  exact h _ (by omega)

theorem SameOn.generation_eq (hlen : Ctree.headerSize ≤ len) :
    headerGeneration data = headerGeneration data' := by
  change 101 ≤ len at hlen
  rw [headerGeneration, headerGeneration, h.bytesAt_eq (by omega)]

theorem SameOn.matches_iff (hlen : Ctree.headerSize ≤ len)
    (parentTransid : ℕ) : Matches parentTransid data ↔ Matches parentTransid data' := by
  rw [Matches, Matches, h.generation_eq hlen]

end

theorem SameOn.passes_iff {info : FsInfo} {eb : Volumes.ExtentBuffer}
    (h : SameOn eb.len data data') (hlen : Ctree.headerSize ≤ eb.len) :
    Passes info eb data ↔ Passes info eb data' := by
  change 101 ≤ eb.len at hlen
  have hcsum : csumTreeBlock { eb with data := data } = csumTreeBlock { eb with data := data' } := by
    simp only [csumTreeBlock, blockCsum]
    rw [h.bytesAt_eq (by rw [BTRFS_CSUM_SIZE]; omega), h.bytesAt_eq (by omega)]
  have hbytenr : headerBytenr data = headerBytenr data' := by
    rw [headerBytenr, headerBytenr, h.bytesAt_eq (by omega)]
  have hlevel : headerLevel data = headerLevel data' := by
    rw [headerLevel, headerLevel, h.bytesAt_eq (by omega)]
  have hnr : headerNritems data = headerNritems data' := by
    rw [headerNritems, headerNritems, h.bytesAt_eq (by omega)]
  have hf : headerFsid data = headerFsid data' := by
    rw [headerFsid, headerFsid, h.bytesAt_eq (by rw [BTRFS_FSID_SIZE]; omega)]
  have hcheck : checkTreeBlock info { eb with data := data } =
      checkTreeBlock info { eb with data := data' } := by
    simp only [checkTreeBlock, hbytenr, hlevel, hnr, hf]
  rw [Passes, Passes, hcsum, hcheck]

theorem bytesAt_writeCsum (len : ℕ) {offset : ℕ} (hle : 4 ≤ offset) (n : ℕ) :
    bytesAt (writeCsum data len) offset n = bytesAt data offset n := by
  apply List.map_congr_left
  intro k _
  exact if_neg (by omega)

theorem blockCsum_writeCsum (len : ℕ) :
    blockCsum (writeCsum data len) len = bytesAt (writeCsum data len) 0 4 := by
  have hcrc : blockCsum (writeCsum data len) len = blockCsum data len := by
    rw [blockCsum, bytesAt_writeCsum len (by decide), blockCsum]
  rw [hcrc]
  rfl

end

/-! ## Reading a mirror -/

section

variable (info : FsInfo) (devs : Devices) (eb : Volumes.ExtentBuffer)

def Holds (m : ℕ) (c : ℕ → Byte) : Prop :=
  ∀ data, ∃ out, readWholeEb info.toFsInfo devs { eb with data := data } m =
    .ok (0, { eb with data := out }) ∧ SameOn eb.len out c

def Unreadable (m : ℕ) : Prop :=
  ∀ data, ∃ ret out, readWholeEb info.toFsInfo devs { eb with data := data } m =
    .ok (ret, { eb with data := out }) ∧ ret ≠ 0

/-- The mirrors of a block can be read as a whole or not at all. A block with one copy is read
from one place. -/
structure Readings : Prop where
  outcome : ∀ m ≤ btrfsNumCopies info.mappingTree eb.start,
    (∃ c, Holds info devs eb m c) ∨ Unreadable info devs eb m
  one : btrfsNumCopies info.mappingTree eb.start = 1 →
    ∀ c, Holds info devs eb 1 c → Holds info devs eb 0 c

def attempt (m : ℕ) (data : ℕ → Byte) : ℕ → Byte :=
  match readWholeEb info.toFsInfo devs { eb with data := data } m with
  | .ok (_, buf) => buf.data
  | .error _ => data

/-- The buffer after attempts to read the first mirrors in turn. -/
def attempted : ℕ → ℕ → Byte
  | 0 => attempt info devs eb 0 eb.data
  | m + 1 => attempt info devs eb (m + 1) (attempted m)

/-- A mirror that is accepted, whatever its generation. -/
def Good (m : ℕ) : Prop := ∃ c, Holds info devs eb m c ∧ Passes info eb c

def Wanted (parentTransid m : ℕ) : Prop :=
  ∃ c, Holds info devs eb m c ∧ Passes info eb c ∧ Matches parentTransid c

end

/-- The first of the mirrors from 1 on whose header has the highest generation, or mirror 0 if
their generations are all 0. -/
def BestHeader (generation : ℕ → ℕ) (n g : ℕ) : Prop :=
  (g = 0 ∧ ∀ k, 1 ≤ k → k ≤ n → generation k = 0) ∨
    (1 ≤ g ∧ g ≤ n ∧ 0 < generation g ∧ (∀ k, 1 ≤ k → k < g → generation k < generation g) ∧
      ∀ k, 1 ≤ k → k ≤ n → generation k ≤ generation g)

def bestTransidOf (generation : ℕ → ℕ) (g : ℕ) : ℕ := if g = 0 then 0 else generation g

theorem BestHeader.step {generation : ℕ → ℕ} {k g : ℕ} (h : BestHeader generation k g) :
    BestHeader generation (k + 1)
      (if bestTransidOf generation g < generation (k + 1) then k + 1 else g) := by
  rcases h with ⟨rfl, hz⟩ | ⟨hg, hgk, hpos, hfirst, hmax⟩
  · have hb : bestTransidOf generation 0 = 0 := if_pos rfl
    split
    · rename_i hlt
      right
      refine ⟨by omega, le_rfl, hlt, ?_, ?_⟩
      · intro j hj hjk
        rw [hz j hj (by omega)]
        exact hlt
      · intro j hj hjk
        rcases Nat.lt_or_eq_of_le hjk with hless | rfl
        · rw [hz j hj (by omega)]
          exact Nat.zero_le _
        · exact le_rfl
    · left
      refine ⟨rfl, ?_⟩
      intro j hj hjk
      rcases Nat.lt_or_eq_of_le hjk with hless | rfl
      · exact hz j hj (by omega)
      · omega
  · have hb : bestTransidOf generation g = generation g := if_neg (by omega)
    right
    split
    · refine ⟨by omega, le_rfl, by omega, ?_, ?_⟩
      · intro j hj hjk
        have hle := hmax j hj (by omega)
        omega
      · intro j hj hjk
        rcases Nat.lt_or_eq_of_le hjk with hless | rfl
        · have hle := hmax j hj (by omega)
          omega
        · exact le_rfl
    · refine ⟨hg, by omega, hpos, hfirst, ?_⟩
      intro j hj hjk
      rcases Nat.lt_or_eq_of_le hjk with hless | rfl
      · exact hmax j hj (by omega)
      · omega

theorem BestHeader.unique {generation : ℕ → ℕ} {n g g' : ℕ} (h : BestHeader generation n g)
    (h' : BestHeader generation n g') : g = g' := by
  rcases h with ⟨rfl, hze⟩ | ⟨hg, hgn, hpos, hfirst, hmax⟩
  · rcases h' with ⟨rfl, -⟩ | ⟨hg', hgn', hpos', -⟩
    · rfl
    · have hz := hze g' hg' hgn'
      omega
  · rcases h' with ⟨rfl, hz'⟩ | ⟨hg', hgn', hpos', hfirst', hmax'⟩
    · have hz := hz' g hg hgn
      omega
    · rcases Nat.lt_trichotomy g g' with hlt | heq | hgt
      · have hless := hfirst' g hg hlt
        have hle := hmax g' hg' hgn'
        omega
      · exact heq
      · have hless := hfirst g' hg' hgt
        have hle := hmax' g hg hgn
        omega

/-! ## What `read_tree_block` returns -/

variable {info : FsInfo} {devs : Devices} {eb : Volumes.ExtentBuffer} {parentTransid : ℕ} {m n : ℕ}
  {c : ℕ → Byte} {buf : TreeBuffer}

/-! ## One mirror -/

theorem Holds.sameOn {c' : ℕ → Byte} (h : Holds info devs eb m c) (h' : Holds info devs eb m c') :
    SameOn eb.len c c' := by
  obtain ⟨out, hout, hs⟩ := h eb.data
  obtain ⟨out', hout', hs'⟩ := h' eb.data
  rw [hout] at hout'
  obtain rfl : out = out' :=
    congrArg Volumes.ExtentBuffer.data (Prod.mk.inj (Except.ok.inj hout')).2
  exact hs.symm.trans hs'

theorem Holds.not_unreadable (h : Holds info devs eb m c) : ¬ Unreadable info devs eb m := by
  intro hun
  obtain ⟨out, hout, -⟩ := h eb.data
  obtain ⟨ret, out', hout', hret⟩ := hun eb.data
  rw [hout] at hout'
  exact hret (Prod.mk.inj (Except.ok.inj hout')).1.symm

theorem verifyParentTransid_eq (buf : TreeBuffer) (parentTransid : ℕ) (ignore : Bool) :
    verifyParentTransid buf parentTransid ignore =
      if Matches parentTransid buf.data then (true, buf)
      else if ignore then (true, { buf with badTransid := true })
      else (false, { buf with uptodate := false }) := rfl

/-- An accepted buffer has the bytes of the mirror; its flag says whether the generation is the
expected one. -/
structure Taken (info : FsInfo) (devs : Devices) (eb : Volumes.ExtentBuffer) (parentTransid m : ℕ)
    (buf : TreeBuffer) (c : ℕ → Byte) : Prop where
  holds : Holds info devs eb m c
  passes : Passes info eb c
  start : buf.start = eb.start
  len : buf.len = eb.len
  bytes : SameOn eb.len buf.data c
  flag : buf.badTransid = true ↔ ¬ Matches parentTransid c

structure Tried (info : FsInfo) (devs : Devices) (eb : Volumes.ExtentBuffer) (parentTransid m : ℕ)
    (ignore : Bool) (data : ℕ → Byte) (accepted : Bool) (buf : TreeBuffer) : Prop where
  buffer : buf.toExtentBuffer = { eb with data := attempt info devs eb m data }
  taken : accepted = true → ∃ c, Taken info devs eb parentTransid m buf c ∧
    (ignore = false → Matches parentTransid c)
  refused : accepted = false → buf.badTransid = false ∧ ¬ Wanted info devs eb parentTransid m ∧
    (ignore = true → ¬ Good info devs eb m)

variable {data : ℕ → Byte} {generation : ℕ → ℕ} {g : ℕ}

theorem tryMirror_spec (hlen : Ctree.headerSize ≤ eb.len) (parentTransid : ℕ) (s : MirrorSearch)
    (hr : (∃ c, Holds info devs eb s.mirrorNum c) ∨ Unreadable info devs eb s.mirrorNum)
    (hbuf : buf.toExtentBuffer = { eb with data  := data }) (hf : buf.badTransid = false) :
    ∃ accepted buf', tryMirror info devs buf parentTransid s = .ok (accepted, buf') ∧
      Tried info devs eb parentTransid s.mirrorNum s.ignore data accepted buf' := by
  rcases hr with ⟨c, hholds⟩ | hun
  · obtain ⟨out, hout, hs⟩ := hholds data
    have hattempt : attempt info devs eb s.mirrorNum data = out := by simp [attempt, hout]
    have hpas : Passes info eb out ↔ Passes info eb c := hs.passes_iff hlen
    have hmatches : Matches parentTransid out ↔ Matches parentTransid c :=
      hs.matches_iff hlen parentTransid
    simp only [tryMirror, hbuf, hout, bind, Except.bind]
    by_cases hp : Passes info eb out
    · rw [if_pos ⟨trivial, hp⟩, verifyParentTransid_eq]
      by_cases hm : Matches parentTransid out
      · rw [if_pos hm]
        refine ⟨_, _, rfl, by rw [hattempt], ?_, nofun⟩
        intro _
        refine ⟨c, ⟨hholds, hpas.mp hp, rfl, rfl, hs, ?_⟩, fun _ => hmatches.mp hm⟩
        exact iff_of_false (by simp [hf]) (not_not.mpr (hmatches.mp hm))
      · rw [if_neg hm]
        cases hignore : s.ignore with
        | true =>
          refine ⟨_, _, rfl, by rw [hattempt], ?_, nofun⟩
          intro _
          refine ⟨c, ⟨hholds, hpas.mp hp, rfl, rfl, hs, ?_⟩, nofun⟩
          exact iff_of_true rfl (hmatches.not.mp hm)
        | false =>
          refine ⟨_, _, rfl, by rw [hattempt], nofun, fun _ => ⟨hf, ?_, nofun⟩⟩
          rintro ⟨c', hholds', -, hmat'⟩
          exact hm (hmatches.mpr (((hholds.sameOn hholds').matches_iff hlen _).mpr hmat'))
    · rw [if_neg fun hc => hp hc.2]
      have hnot : ¬ Good info devs eb s.mirrorNum := by
        rintro ⟨c', hholds', hpass'⟩
        exact hp (hpas.mpr (((hholds.sameOn hholds').passes_iff hlen).mpr hpass'))
      refine ⟨_, _, rfl, by rw [hattempt], nofun, fun _ => ⟨hf, ?_, fun _ => hnot⟩⟩
      rintro ⟨c', hholds', hpass', -⟩
      exact hnot ⟨c', hholds', hpass'⟩
  · obtain ⟨ret, out, hout, hret⟩ := hun data
    have hattempt : attempt info devs eb s.mirrorNum data = out := by simp [attempt, hout]
    have hnot : ∀ c, ¬ Holds info devs eb s.mirrorNum c := fun c hholds => hholds.not_unreadable hun
    simp only [tryMirror, hbuf, hout, bind, Except.bind]
    rw [if_neg fun hc => hret hc.1]
    refine ⟨_, _, rfl, by rw [hattempt], nofun, fun _ => ⟨hf, ?_, ?_⟩⟩
    · rintro ⟨c', hholds', -⟩
      exact hnot c' hholds'
    · rintro - ⟨c', hholds', -⟩
      exact hnot c' hholds'

/-! ## The loop -/

def LastTried (info : FsInfo) (devs : Devices) (eb : Volumes.ExtentBuffer) (parentTransid g : ℕ)
    (result : Except ℤ TreeBuffer) : Prop :=
  (∃ buf c, result = .ok buf ∧ Taken info devs eb parentTransid g buf c) ∨
    ¬ Good info devs eb g ∧ result = .error (-eio)

/-- What the loop returns: the first wanted mirror, or what the last attempt has brought. -/
def Outcome (info : FsInfo) (devs : Devices) (eb : Volumes.ExtentBuffer) (parentTransid n : ℕ)
    (result : Except ℤ TreeBuffer) : Prop :=
  (∃ m ≤ n, ∃ buf c, result = .ok buf ∧ Taken info devs eb parentTransid m buf c ∧
    Matches parentTransid c) ∨
  (∀ m ≤ n, ¬ Wanted info devs eb parentTransid m) ∧ ∃ g, (n = 1 ∧ g = 0 ∨
      n ≠ 1 ∧ BestHeader (fun m => headerGeneration (attempted info devs eb m)) n g) ∧
      LastTried info devs eb parentTransid g result

theorem Taken.uptodate (h : Taken info devs eb parentTransid m buf c) :
    Taken info devs eb parentTransid m { buf with uptodate := true } c :=
  ⟨h.holds, h.passes, h.start, h.len, h.bytes, h.flag⟩

theorem loop_last (hlen : Ctree.headerSize ≤ eb.len) (parentTransid : ℕ) (s : MirrorSearch)
    (hignore : s.ignore = true)
    (hr : (∃ c, Holds info devs eb s.mirrorNum c) ∨ Unreadable info devs eb s.mirrorNum)
    (hbuf : buf.toExtentBuffer = { eb with data  := data }) (hf : buf.badTransid = false)
    (rounds : ℕ) :
    ∃ result, readTreeBlockLoop info devs parentTransid (rounds + 1) buf s = .ok result ∧
      LastTried info devs eb parentTransid s.mirrorNum result := by
  obtain ⟨accepted, buf', htry, htried⟩ := tryMirror_spec hlen parentTransid s hr hbuf hf
  simp only [readTreeBlockLoop, htry]
  cases accepted with
  | true =>
    obtain ⟨c, htaken, -⟩ := htried.taken rfl
    exact ⟨_, rfl, .inl ⟨_, c, rfl, htaken.uptodate⟩⟩
  | false =>
    simp only [hignore]
    exact ⟨_, rfl, .inr ⟨(htried.refused rfl).2.2 hignore, rfl⟩⟩

def beforeMirror (info : FsInfo) (devs : Devices) (eb : Volumes.ExtentBuffer) : ℕ → ℕ → Byte
  | 0 => eb.data
  | k + 1 => attempted info devs eb k

theorem attempt_beforeMirror (k : ℕ) :
    attempt info devs eb k (beforeMirror info devs eb k) = attempted info devs eb k := by
  cases k <;> rfl

/-- The state of the search before mirror `k` is tried. -/
def searchAt (generation : ℕ → ℕ) (k g : ℕ) : MirrorSearch :=
  ⟨k, g, bestTransidOf generation g, false⟩

theorem next_searchAt {k : ℕ} (hn : n ≠ 1) (h : BestHeader generation (k - 1) g) :
    ∃ g', BestHeader generation k g' ∧ (searchAt generation k g).next n (generation k) =
      if n < k + 1 then ⟨g', g', bestTransidOf generation g', true⟩
      else searchAt generation (k + 1) g' := by
  cases k with
  | zero =>
    refine ⟨g, h, ?_⟩
    simp [MirrorSearch.next, hn, searchAt, ne_eq]
  | succ k =>
    rw [Nat.add_sub_cancel] at h
    refine ⟨_, h.step, ?_⟩
    simp only [MirrorSearch.next, hn, if_false, searchAt, ne_eq, Nat.succ_ne_zero,
      not_false_eq_true, and_true]
    by_cases hlt : bestTransidOf generation g < generation (k + 1)
    · have hb : bestTransidOf generation (k + 1) = generation (k + 1) :=
        if_neg (Nat.succ_ne_zero k)
      simp only [hlt, if_true, hb]
    · simp [hlt]

theorem BestHeader.le (h : BestHeader generation n g) : g ≤ n := by
  rcases h with ⟨rfl, -⟩ | ⟨-, hle, -⟩
  · exact Nat.zero_le n
  · exact hle

section

variable (hlen : Ctree.headerSize ≤ eb.len) (h : Readings info devs eb)

include hlen h

theorem loop_spec (hcopies : btrfsNumCopies info.mappingTree eb.start ≠ 1) {k g rounds : ℕ}
    (hk : k ≤ btrfsNumCopies info.mappingTree eb.start)
    (hrounds : btrfsNumCopies info.mappingTree eb.start + 2 ≤ rounds + k)
    (hb : BestHeader (fun m => headerGeneration (attempted info devs eb m)) (k - 1) g)
    (hbefore : ∀ m < k, ¬ Wanted info devs eb parentTransid m) {buf : TreeBuffer}
    (hbuf : buf.toExtentBuffer = { eb with data := beforeMirror info devs eb k })
    (hf : buf.badTransid = false) :
    ∃ result, readTreeBlockLoop info devs parentTransid rounds buf
        (searchAt (fun m => headerGeneration (attempted info devs eb m)) k g) = .ok result ∧
      Outcome info devs eb parentTransid (btrfsNumCopies info.mappingTree eb.start) result := by
  induction rounds generalizing k g buf with
  | zero => omega
  | succ rounds ih =>
    obtain ⟨accepted, buf', htry, htried⟩ := tryMirror_spec hlen parentTransid
      (searchAt (fun m => headerGeneration (attempted info devs eb m)) k g) (h.outcome k hk) hbuf
      hf
    simp only [readTreeBlockLoop, htry, bind, Except.bind]
    cases accepted with
    | true =>
      obtain ⟨c, htaken, hmat⟩ := htried.taken rfl
      exact ⟨_, rfl, .inl ⟨k, hk, _, c, rfl, htaken.uptodate, hmat rfl⟩⟩
    | false =>
      obtain ⟨hf', hnot, -⟩ := htried.refused rfl
      have hbuf' := htried.buffer
      have hmir : (searchAt (fun m => headerGeneration (attempted info devs eb m)) k g).mirrorNum =
          k := rfl
      rw [hmir, attempt_beforeMirror] at hbuf'
      have hst : buf'.start = eb.start := by rw [hbuf']
      have hd : buf'.data = attempted info devs eb k := by rw [hbuf']
      have hupto : ∀ m < k + 1, ¬ Wanted info devs eb parentTransid m := by
        intro m hm
        rcases Nat.lt_succ_iff_lt_or_eq.mp hm with hlt | rfl
        · exact hbefore m hlt
        · exact hnot
      obtain ⟨g', hb', hn⟩ := next_searchAt hcopies hb
      have hignore : (searchAt (fun m => headerGeneration (attempted info devs eb m)) k g).ignore =
          false := rfl
      simp only [Bool.false_eq_true, if_false, hignore, hst, hd, hn]
      split
      · obtain rfl : k = btrfsNumCopies info.mappingTree eb.start := by omega
        obtain ⟨rounds, rfl⟩ : ∃ m, rounds = m + 1 := ⟨rounds - 1, by omega⟩
        obtain ⟨result, hl, hla⟩ := loop_last hlen parentTransid
          ⟨g', g', bestTransidOf _ g', true⟩ rfl (h.outcome g' hb'.le) hbuf' hf' rounds
        exact ⟨result, hl, .inr ⟨fun m hm => hupto m (Nat.lt_succ_of_le hm), g',
          .inr ⟨hcopies, hb'⟩, hla⟩⟩
      · rw [← Nat.add_sub_cancel k 1] at hb'
        exact ih (by omega) (by omega) hb' hupto hbuf' hf'

theorem loop_one
    (hcopies : btrfsNumCopies info.mappingTree eb.start = 1) (hbuf : buf.toExtentBuffer = eb)
    (hf : buf.badTransid = false) (rounds : ℕ) :
    ∃ result, readTreeBlockLoop info devs parentTransid (rounds + 2) buf ⟨0, 0, 0, false⟩ =
        .ok result ∧ Outcome info devs eb parentTransid 1 result := by
  obtain ⟨accepted, buf', htry, htried⟩ := tryMirror_spec hlen parentTransid ⟨0, 0, 0, false⟩
    (h.outcome 0 (Nat.zero_le _)) hbuf hf
  rw [readTreeBlockLoop]
  simp only [htry, bind, Except.bind]
  cases accepted with
  | true =>
    obtain ⟨c, htaken, hmat⟩ := htried.taken rfl
    exact ⟨_, rfl, .inl ⟨0, by decide, _, c, rfl, htaken.uptodate, hmat rfl⟩⟩
  | false =>
    obtain ⟨hf', hnot, -⟩ := htried.refused rfl
    have hbuf' := htried.buffer
    have hst : buf'.start = eb.start := by rw [hbuf']
    obtain ⟨result, hl, hla⟩ := loop_last hlen parentTransid ⟨0, 0, 0, true⟩ rfl
      (h.outcome 0 (Nat.zero_le _)) hbuf' hf' rounds
    simp only [hst, hcopies]
    refine ⟨result, hl, .inr ⟨?_, 0, .inl ⟨rfl, rfl⟩, hla⟩⟩
    intro m hm
    rcases Nat.le_one_iff_eq_zero_or_eq_one.mp hm with rfl | rfl
    · exact hnot
    · rintro ⟨c, hholds, hr⟩
      exact hnot ⟨c, h.one hcopies c hholds, hr⟩

theorem readTreeBlock_outcome (hbuf : buf.toExtentBuffer = eb) (huptodate : buf.uptodate = false)
    (hf : buf.badTransid = false) (hlow : info.sectorsize ≤ eb.start)
    (hal : info.sectorsize ∣ eb.start) (parentTransid : ℕ) :
    ∃ result, readTreeBlock info devs buf parentTransid = .ok result ∧
      Outcome info devs eb parentTransid (btrfsNumCopies info.mappingTree eb.start) result := by
  have hst : buf.start = eb.start := by rw [hbuf]
  have hok : ¬ (eb.start < info.sectorsize ∨ eb.start % info.sectorsize ≠ 0) := by omega
  simp only [readTreeBlock, hst, hok, if_false, btrfsBufferUptodate, huptodate, Bool.false_eq_true]
  by_cases hcopies : btrfsNumCopies info.mappingTree eb.start = 1
  · rw [hcopies]
    exact loop_one hlen h hcopies hbuf hf 1
  · exact @loop_spec _ _ _ parentTransid hlen h hcopies 0 0 _ (Nat.zero_le _) le_rfl
      (.inl ⟨rfl, fun k hk hle => absurd hle (by omega)⟩) (fun m hm => absurd hm (Nat.not_lt_zero m))
      _ hbuf hf

end

/-! ## The fallback -/

/-- What a read of a tree block promises: a returned block is sound, a mirror that its parent
points to is found, and otherwise a sound mirror is returned with a flag. -/
structure Fallback (info : FsInfo) (devs : Devices) (eb : Volumes.ExtentBuffer)
    (parentTransid n : ℕ) (result : Except ℤ TreeBuffer) : Prop where
  sound : ∀ buf, result = .ok buf →
    csumTreeBlock buf.toExtentBuffer = true ∧ checkTreeBlock info buf.toExtentBuffer = .ok ()
  wanted : (∃ m ≤ n, Wanted info devs eb parentTransid m) → ∃ buf, result = .ok buf ∧
    buf.badTransid = false ∧ ∃ m ≤ n, ∃ c, Holds info devs eb m c ∧ Passes info eb c ∧
      Matches parentTransid c ∧ SameOn eb.len buf.data c
  fallback : (¬ ∃ m ≤ n, Wanted info devs eb parentTransid m) → (∃ m ≤ n, Good info devs eb m) →
    ∃ buf, result = .ok buf ∧ buf.badTransid = true ∧ ∃ m ≤ n, ∃ c, Holds info devs eb m c ∧
      Passes info eb c ∧ SameOn eb.len buf.data c

/-- If no mirror has the expected generation, the mirror with the highest generation in its
header is good, unless none is good or there is one copy only. The header of a mirror that cannot be
read is what is in the buffer after the attempt. -/
def BestIsGood (info : FsInfo) (devs : Devices) (eb : Volumes.ExtentBuffer) (parentTransid n : ℕ) :
    Prop :=
  n = 1 ∨ (∃ m ≤ n, Wanted info devs eb parentTransid m) ∨ (∀ m ≤ n, ¬ Good info devs eb m) ∨
    ∃ g, BestHeader (fun m => headerGeneration (attempted info devs eb m)) n g ∧ Good info devs eb g

theorem Taken.passes_buf (hlen : Ctree.headerSize ≤ eb.len)
    (h : Taken info devs eb parentTransid m buf c) :
    csumTreeBlock buf.toExtentBuffer = true ∧ checkTreeBlock info buf.toExtentBuffer = .ok () := by
  have hbuf : buf.toExtentBuffer = { eb with data := buf.data } := by rw [← h.start, ← h.len]
  have hpas : Passes info eb buf.data := (h.bytes.passes_iff hlen).mpr h.passes
  rw [hbuf]
  exact hpas

theorem Outcome.fallback_iff {result : Except ℤ TreeBuffer} (hlen : Ctree.headerSize ≤ eb.len)
    (hone : n = 1 → ∀ c, Holds info devs eb 1 c → Holds info devs eb 0 c)
    (h : Outcome info devs eb parentTransid n result) :
    Fallback info devs eb parentTransid n result ↔ BestIsGood info devs eb parentTransid n := by
  rcases h with ⟨m, hm, buf, c, rfl, htaken, hmat⟩ | ⟨hno, g, hg, hl⟩
  · refine iff_of_true ⟨?_, ?_, ?_⟩ (.inr (.inl ⟨m, hm, c, htaken.holds, htaken.passes, hmat⟩))
    · intro buf' heq
      obtain rfl := Except.ok.inj heq
      exact htaken.passes_buf hlen
    · intro _
      refine ⟨buf, rfl, ?_, m, hm, c, htaken.holds, htaken.passes, hmat, htaken.bytes⟩
      exact Bool.eq_false_iff.mpr fun hf => htaken.flag.mp hf hmat
    · intro hnot
      exact absurd ⟨m, hm, c, htaken.holds, htaken.passes, hmat⟩ hnot
  · have hn' : ¬ ∃ m ≤ n, Wanted info devs eb parentTransid m := by
      rintro ⟨m, hm, hwanted⟩
      exact hno m hm hwanted
    rcases hl with ⟨buf, c, rfl, htaken⟩ | ⟨hbad, rfl⟩
    · -- the last attempt was accepted
      have hgn : g ≤ n := by
        rcases hg with ⟨-, rfl⟩ | ⟨-, hb⟩
        · exact Nat.zero_le n
        · exact hb.le
      have hmat : ¬ Matches parentTransid c :=
        fun hmat => hno g hgn ⟨c, htaken.holds, htaken.passes, hmat⟩
      refine iff_of_true ⟨?_, fun hwanted => absurd hwanted hn', ?_⟩ ?_
      · intro buf' heq
        obtain rfl := Except.ok.inj heq
        exact htaken.passes_buf hlen
      · intro _ _
        exact ⟨buf, rfl, htaken.flag.mpr hmat, g, hgn, c, htaken.holds, htaken.passes, htaken.bytes⟩
      · rcases hg with ⟨hn, -⟩ | ⟨-, hb⟩
        · exact .inl hn
        · exact .inr (.inr (.inr ⟨g, hb, c, htaken.holds, htaken.passes⟩))
    · constructor
      · intro hfallback
        refine .inr (.inr (.inl ?_))
        intro m hm hgo
        obtain ⟨buf, heq, -⟩ := hfallback.fallback hn' ⟨m, hm, hgo⟩
        cases heq
      · intro hc
        have hsingle : n = 1 → ∀ m ≤ n, ¬ Good info devs eb m := by
          intro hn m hm hgo
          have hz : g = 0 := by
            rcases hg with ⟨-, hz⟩ | ⟨hne, -⟩
            · exact hz
            · exact absurd hn hne
          subst hz
          rcases Nat.le_one_iff_eq_zero_or_eq_one.mp (hn ▸ hm) with rfl | rfl
          · exact hbad hgo
          · obtain ⟨c, hholds, hpas⟩ := hgo
            exact hbad ⟨c, hone hn c hholds, hpas⟩
        have hnogood : ∀ m ≤ n, ¬ Good info devs eb m := by
          rcases hc with hn | hwanted | hall | ⟨g', hb', hg'⟩
          · exact hsingle hn
          · exact absurd hwanted hn'
          · exact hall
          · rcases hg with ⟨hn, -⟩ | ⟨-, hb⟩
            · exact hsingle hn
            · rw [hb.unique hb'] at hbad
              exact absurd hg' hbad
        exact ⟨nofun, fun hwanted => absurd hwanted hn',
          fun _ ⟨m, hm, hgo⟩ => absurd hgo (hnogood m hm)⟩

end Btrfs.DiskIo
