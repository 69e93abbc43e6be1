import Btrfs.Verification.FreeSpaceTree.Loading

/-! # What is free once the free space tree is loaded -/

namespace Btrfs.FreeSpaceTree

open Ctree (Key)
open ExtentIo FreeSpaceCache MarkedRuns

/-! ## Bitmaps -/

def BlockGroup.stop (group : BlockGroup) : ℕ := wrap64 (group.objectid + group.offset)

/-- The items behind the info item of a block group: by the order of the keys they do not start
before it, and its bitmaps do not overlap. -/
structure GroupItems (group : BlockGroup) (items : List FstItem) : Prop where
  start_le : ∀ item ∈ items, group.objectid ≤ item.key.objectid
  disjoint : (acceptedItems BTRFS_FREE_SPACE_BITMAP_KEY group items).Pairwise fun a b =>
    b.key.objectid < b.stop → a.stop ≤ b.key.objectid

theorem mem_acceptedItems {type : ℕ} {group : BlockGroup} {items : List FstItem} {item : FstItem}
    (h : item ∈ acceptedItems type group items) :
    item ∈ items ∧ checkKey type group item.key = .item := by
  refine ⟨(List.takeWhile_sublist _).subset h, ?_⟩
  have := List.mem_takeWhile_imp h
  exact of_decide_eq_true this

variable {group : BlockGroup} {items : List FstItem}

theorem GroupItems.inOrder (h : GroupItems group items) :
    InOrder group.stop (acceptedItems BTRFS_FREE_SPACE_BITMAP_KEY group items) :=
  ⟨h.disjoint, fun _ hi => (checkKey_eq_item (mem_acceptedItems hi).2).2.2⟩

/-- A byte whose bit is set in a bitmap of the block group. -/
def SetInGroup (sectorsize : ℕ) (group : BlockGroup) (items : List FstItem) (a : ℕ) : Prop :=
  ∃ item ∈ acceptedItems BTRFS_FREE_SPACE_BITMAP_KEY group items, item.SetAt sectorsize a

/-- The bits of the block group, as they are read. -/
def groupBits (sectorsize : ℕ) (group : BlockGroup) (items : List FstItem) : List Bool :=
  ((acceptedItems BTRFS_FREE_SPACE_BITMAP_KEY group items).flatMap
    (itemPoints sectorsize)).map Prod.snd

/-- A byte of the block group that no bitmap has, behind a bitmap whose last bit is set. -/
def GapInGroup (sectorsize : ℕ) (group : BlockGroup) (items : List FstItem) (a : ℕ) : Prop :=
  GapAt sectorsize group.stop (acceptedItems BTRFS_FREE_SPACE_BITMAP_KEY group items) a

variable {pinnedExtents : StateTree} {ctl : FreeSpaceCtl}

theorem sectorsize_pos (h : WellFormed ctl) : 0 < ctl.sectorsize := by
  have hmem := h.sectorsize
  simp only [List.mem_cons, List.not_mem_nil, or_false] at hmem
  omega

/-- The loader adds the set bits and the gaps, but for what is pinned. -/
theorem loadFreeSpaceBitmaps_spec (hpinned : Ordered pinnedExtents) (h : WellFormed ctl)
    (hgroup : group.stop + ctl.sectorsize ≤ 2 ^ 64)
    (hf : ∀ a, group.objectid ≤ a → a < group.stop → ¬ FreeAt ctl a)
    (hitems : GroupItems group items) (expected errors : ℕ) :
    ∃ ctl', loadFreeSpaceBitmaps pinnedExtents group ctl expected items errors = .ok (ctl',
          (if endsInError BTRFS_FREE_SPACE_BITMAP_KEY group items then errors + 1 else errors) +
          if countRuns false (groupBits ctl.sectorsize group items) % 2 ^ 32 ≠ expected then 1
          else 0) ∧
      Adds ctl ctl' (fun a => (SetInGroup ctl.sectorsize group items a ∨
        GapInGroup ctl.sectorsize group items a) ∧ ¬ Pinned pinnedExtents a) := by
  have hsize := sectorsize_pos h
  have hstop : group.stop < 2 ^ 64 := Nat.mod_lt _ (by decide)
  have horder := hitems.inOrder
  have hasc := horder.ascending hsize
  obtain ⟨points, hpoints⟩ : ∃ points, points =
    (acceptedItems BTRFS_FREE_SPACE_BITMAP_KEY group items).flatMap (itemPoints ctl.sectorsize) :=
      ⟨_, rfl⟩
  rw [← hpoints] at hasc
  obtain ⟨hseparated, hbounds⟩ := separated_runs hasc false 0 nofun
  have hmarked : ∀ a, InRanges (runs group.stop false 0 points) a ↔
      SetInGroup ctl.sectorsize group items a ∨ GapInGroup ctl.sectorsize group items a := by
    intro a
    rw [inRanges_runs hasc false 0 nofun, hpoints, horder.marked_iff hsize]
    exact ⟨fun ha => ha.resolve_left fun ha => absurd ha.1 (by decide), Or.inr⟩
  have hinside : ∀ a, InRanges (runs group.stop false 0 points) a →
      group.objectid ≤ a ∧ a < group.stop := by
    rintro a ⟨r, hr, hlo, hhi⟩
    have hend := (hbounds r hr).2
    refine ⟨?_, by omega⟩
    rcases (hmarked a).mp ⟨r, hr, hlo, hhi⟩ with ⟨item, hi, hset⟩ | hgap
    · exact (hitems.start_le item (mem_acceptedItems hi).1).trans hset.1
    · obtain ⟨item, hi, hlt, hle⟩ := GapAt.behind hsize hgap
      have := hitems.start_le item (mem_acceptedItems hi).1
      omega
  obtain ⟨ctl', hc, had⟩ := addRanges_spec hpinned h hseparated
    (fun r hr => (hbounds r hr).2.trans_lt hstop)
    (fun a ha => hf a (hinside a ha).1 (hinside a ha).2)
  refine ⟨ctl', ?_, had.congr fun a => and_congr_left fun _ => hmarked a⟩
  have heq := @loadFreeSpaceBitmaps_eq pinnedExtents group ctl hsize hgroup expected items errors
  have hend : wrap64 (group.objectid + group.offset) = group.stop := rfl
  simp only [← hpoints, hend, hc] at heq
  rw [heq, groupBits, ← hpoints, ← length_runs group.stop false 0 points]
  split_ifs <;> rfl

/-- The bitmaps are loaded as they are, or an error is counted. -/
def LoadsExactly (pinnedExtents : StateTree) (group : BlockGroup) (ctl : FreeSpaceCtl)
    (expected : ℕ) (items : List FstItem) (errors : ℕ) : Prop :=
  ∃ ctl' errors',
    loadFreeSpaceBitmaps pinnedExtents group ctl expected items errors = .ok (ctl', errors') ∧
    (errors < errors' ∨ ∀ a, FreeAt ctl' a ↔ FreeAt ctl a ∨
      SetInGroup ctl.sectorsize group items a ∧ ¬ Pinned pinnedExtents a)

theorem loadsExactly_iff (hpinned : Ordered pinnedExtents) (h : WellFormed ctl)
    (hgroup : group.stop + ctl.sectorsize ≤ 2 ^ 64)
    (hf : ∀ a, group.objectid ≤ a → a < group.stop → ¬ FreeAt ctl a)
    (hitems : GroupItems group items) (expected errors : ℕ) :
    LoadsExactly pinnedExtents group ctl expected items errors ↔
      endsInError BTRFS_FREE_SPACE_BITMAP_KEY group items ∨
      countRuns false (groupBits ctl.sectorsize group items) % 2 ^ 32 ≠ expected ∨
      ∀ a, GapInGroup ctl.sectorsize group items a → Pinned pinnedExtents a := by
  obtain ⟨ctl', hc, had⟩ := loadFreeSpaceBitmaps_spec hpinned h hgroup hf hitems expected errors
  have hsize := sectorsize_pos h
  -- a gap is in the block group, and no bit of it is set
  have hgaps : ∀ a, GapInGroup ctl.sectorsize group items a →
      ¬ FreeAt ctl a ∧ ¬ SetInGroup ctl.sectorsize group items a := by
    intro a hgap
    obtain ⟨item, hi, hlt, hle⟩ := GapAt.behind hsize hgap
    have hst := hitems.start_le item (mem_acceptedItems hi).1
    refine ⟨hf a (by omega) (GapAt.lt_stop hsize hgap hitems.inOrder), ?_⟩
    rintro ⟨item, hi, hset⟩
    exact hitems.inOrder.not_setAt_of_gapAt hsize hgap item hi hset
  constructor
  · rintro ⟨ctl'', errors', hc', hresult⟩
    rw [hc] at hc'
    obtain ⟨rfl, rfl⟩ := hc'
    by_contra hn
    rw [not_or, not_or, not_not] at hn
    obtain ⟨hend, hcount, hgap⟩ := hn
    rw [if_neg hend, hcount] at hresult
    rcases hresult with hlt | hex
    · simp at hlt
    · refine hgap fun a ha => ?_
      by_contra hnot
      obtain ⟨hctl, hset⟩ := hgaps a ha
      have := (hex a).mp ((had.freeAt a).mpr (Or.inr ⟨Or.inr ha, hnot⟩))
      tauto
  · intro hco
    refine ⟨ctl', _, hc, ?_⟩
    by_cases hend : endsInError BTRFS_FREE_SPACE_BITMAP_KEY group items = true
    · rw [if_pos hend]
      exact Or.inl (by omega)
    · by_cases hcount : countRuns false (groupBits ctl.sectorsize group items) % 2 ^ 32 = expected
      · have hgap := (hco.resolve_left hend).resolve_left (not_not.mpr hcount)
        refine Or.inr fun a => ?_
        rw [had.freeAt]
        refine or_congr_right (and_congr_left fun hnot => ?_)
        exact or_iff_left fun ha => hnot (hgap a ha)
      · rw [if_neg hend, if_pos hcount]
        exact Or.inl (by omega)

/-! ## Extents -/

def extentKey (r : ℕ × ℕ) : Key := ⟨r.1, BTRFS_FREE_SPACE_EXTENT_KEY, r.2 - r.1⟩

/-- Behind the items of a block group there is the next info item, or nothing. -/
def NextGroup (tail : List FstItem) : Prop :=
  ∀ item ∈ tail.head?, item.key.type = BTRFS_FREE_SPACE_INFO_KEY

theorem NextGroup.checkKey {tail : List FstItem} (h : NextGroup tail) (type : ℕ)
    (group : BlockGroup) : ∀ item ∈ tail.head?, checkKey type group item.key = .stop := by
  intro item hi
  rw [FreeSpaceTree.checkKey, if_pos (h item hi)]

theorem loadExtentsLoop_eq {extents : List (ℕ × ℕ)} {tail : List FstItem} {prevKey : Option Key}
    {count : ℕ} (hseparated : Separated extents) (hinside : ∀ r ∈ extents, r.2 ≤ group.stop)
    (hk : items.map FstItem.key = extents.map extentKey) (hta : NextGroup tail)
    (hp : ∀ prev ∈ prevKey, ∀ r ∈ extents, wrap64 (prev.objectid + prev.offset) < r.1)
    (hcount : count < 2 ^ 32) (errors : ℕ) :
    loadExtentsLoop pinnedExtents group (items ++ tail) prevKey ctl count errors =
      (addRanges pinnedExtents extents ctl).map fun ctl =>
        (ctl, (count + extents.length) % 2 ^ 32, errors) := by
  induction extents generalizing items prevKey ctl count with
  | nil =>
    rw [List.map_nil, List.map_eq_nil_iff] at hk
    subst hk
    have hmod : (count + 0) % 2 ^ 32 = count := Nat.mod_eq_of_lt hcount
    rw [List.nil_append, List.length_nil, hmod]
    cases tail with
    | nil => rfl
    | cons item tail =>
      rw [loadExtentsLoop, hta.checkKey _ group item rfl]
      rfl
  | cons r extents ih =>
    obtain ⟨hne, hlater, hr⟩ := separated_cons.mp hseparated
    rw [List.map_cons, List.map_eq_cons_iff] at hk
    obtain ⟨item, items, rfl, hkey, hk⟩ := hk
    have hstop : group.stop < 2 ^ 64 := Nat.mod_lt _ (by decide)
    have hend := hinside r (by simp)
    have hrange : wrap64 (item.key.objectid + item.key.offset) = r.2 := by
      rw [hkey, extentKey]
      rw [Nat.add_sub_cancel' hne.le]
      exact Nat.mod_eq_of_lt (by omega)
    have hst : item.key.objectid = r.1 := by rw [hkey, extentKey]
    have hcheck : checkKey BTRFS_FREE_SPACE_EXTENT_KEY group item.key = .item := by
      have ht : item.key.type = BTRFS_FREE_SPACE_EXTENT_KEY := by rw [hkey, extentKey]
      have hend' : wrap64 (group.objectid + group.offset) = group.stop := rfl
      simp only [checkKey, ht]
      rw [if_neg (by decide), if_neg (by simp), if_neg (by omega), if_neg (by omega)]
    have herrors : checkPrev prevKey item.key errors = errors := by
      cases prevKey with
      | none => rfl
      | some prev =>
        have := hp prev rfl r (by simp)
        rw [checkPrev, if_neg (by omega), if_neg (by omega)]
    rw [List.cons_append, loadExtentsLoop, hcheck]
    simp only [herrors, hrange]
    rw [addRanges, hst]
    simp only [bind, Except.bind]
    cases addNewFreeSpace pinnedExtents ctl r.1 r.2 with
    | error fault => rfl
    | ok result =>
      have hp' : ∀ prev ∈ some item.key, ∀ r ∈ extents,
          wrap64 (prev.objectid + prev.offset) < r.1 := by
        rintro prev ⟨⟩ r' hr'
        rw [hrange]
        exact hlater r' hr'
      have hn := @ih items result.2 (some item.key) ((count + 1) % 2 ^ 32) hr
        (List.forall_mem_cons.mp hinside).2 hk hp'
        (Nat.mod_lt _ (by decide))
      simp only [hn, List.length_cons]
      refine congrArg (fun f => Except.map f _) (funext fun ctl => ?_)
      rw [Nat.mod_add_mod]
      congr 3
      omega

/-! ## One free space in two encodings -/

/-- Bitmaps one behind the other from `start` to `stop`. -/
def Tiles (sectorsize stop : ℕ) : ℕ → List FstItem → Prop
  | start, [] => start = stop
  | start, item :: items => ∃ n, 0 < n ∧
      item.key = ⟨start, BTRFS_FREE_SPACE_BITMAP_KEY, n * sectorsize⟩ ∧
      Tiles sectorsize stop (start + n * sectorsize) items

/-- Maximal free extents of a block group, with the extent items and the bitmaps for them. -/
structure Encodes (sectorsize : ℕ) (group : BlockGroup) (extents : List (ℕ × ℕ))
    (extentItems bitmapItems : List FstItem) : Prop where
  separated : Separated extents
  inside : ∀ r ∈ extents, group.objectid ≤ r.1 ∧ r.2 ≤ group.stop
  aligned : ∀ r ∈ extents, ∃ i j, r = (group.objectid + i * sectorsize, group.objectid + j * sectorsize)
  keys : extentItems.map FstItem.key = extents.map extentKey
  tiles : Tiles sectorsize group.stop group.objectid bitmapItems
  bits : ∀ item ∈ bitmapItems, ∀ i, i * sectorsize < item.key.offset →
    (item.bits i = true ↔ InRanges extents (item.key.objectid + i * sectorsize))

section

variable {sectorsize start stop : ℕ} (hsize : 0 < sectorsize) (hstop : stop < 2 ^ 64)

theorem Tiles.le (h : Tiles sectorsize stop start items) : start ≤ stop := by
  induction items generalizing start with
  | nil => exact Nat.le_of_eq h
  | cons item items ih =>
    obtain ⟨n, -, -, hr⟩ := h
    have := ih hr
    omega

include hstop

section

variable (h : Tiles sectorsize stop start items)

include h

theorem Tiles.mem : ∀ item ∈ items, ∃ k n, 0 < n ∧
      item.key = ⟨start + k * sectorsize, BTRFS_FREE_SPACE_BITMAP_KEY, n * sectorsize⟩ ∧
      item.stop = start + k * sectorsize + n * sectorsize ∧ item.stop ≤ stop := by
  induction items generalizing start with
  | nil => exact by simp
  | cons item items ih =>
    obtain ⟨n, hpos, hkey, hr⟩ := h
    have hle := hr.le
    intro b hb
    rcases List.mem_cons.mp hb with rfl | hb
    · have hend : b.stop = start + 0 * sectorsize + n * sectorsize := by
        rw [FstItem.stop, hkey, Nat.zero_mul]
        exact Nat.mod_eq_of_lt (by simp only; omega)
      refine ⟨0, n, hpos, by simp [hkey], hend, ?_⟩
      rw [hend, Nat.zero_mul]
      exact hle
    · obtain ⟨k, m, hm, hbkey, hbstop, hble⟩ := ih hr b hb
      have hsum : start + n * sectorsize + k * sectorsize = start + (n + k) * sectorsize := by
        rw [Nat.add_mul, Nat.add_assoc]
      rw [hsum] at hbkey hbstop
      exact ⟨n + k, m, hm, hbkey, hbstop, hble⟩

theorem Tiles.inOrder : InOrder stop items := by
  induction items generalizing start with
  | nil => exact ⟨.nil, by simp⟩
  | cons item items ih =>
    obtain ⟨k, n, -, hkey, hend, hle⟩ := h.mem hstop item (by simp)
    obtain ⟨m, -, hkey', hr⟩ := h
    rw [hkey', Key.mk.injEq] at hkey
    refine inOrder_cons.mpr ⟨fun b hb _ => ?_, hle, ih hr⟩
    obtain ⟨k', n', -, hbkey, -, -⟩ := hr.mem hstop b hb
    rw [hbkey]
    simp only
    omega

theorem Tiles.covers {a : ℕ} (hlo : start ≤ a)
    (hhi : a < stop) : ∃ item ∈ items, item.key.objectid ≤ a ∧ a < item.stop := by
  induction items generalizing start with
  | nil =>
    have : start = stop := h
    omega
  | cons item items ih =>
    obtain ⟨k, n, -, hkey, hend, -⟩ := h.mem hstop item (by simp)
    obtain ⟨m, -, hkey', hr⟩ := h
    have hoid : item.key.objectid = start := by rw [hkey']
    rw [hkey', Key.mk.injEq] at hkey
    by_cases hin : a < start + m * sectorsize
    · exact ⟨item, by simp, by omega, by omega⟩
    · obtain ⟨b, hb, hcovered⟩ := ih hr (by omega)
      exact ⟨b, by simp [hb], hcovered⟩

end

include hsize

theorem Tiles.not_gapAt (h : Tiles sectorsize stop start items) (a : ℕ) :
    ¬ GapAt sectorsize stop items a := by
  induction items generalizing start with
  | nil => exact id
  | cons item items ih =>
    obtain ⟨k, n, -, hkey, hend, -⟩ := h.mem hstop item (by simp)
    obtain ⟨m, -, hkey', hr⟩ := h
    rw [hkey', Key.mk.injEq] at hkey
    rintro (⟨-, -, hlo, hhi⟩ | hgap)
    · -- the next bitmap starts where this one ends
      have hn : nextBitmap sectorsize stop items = start + m * sectorsize := by
        cases items with
        | nil => exact hr.symm
        | cons b items =>
          obtain ⟨kb, nb, hposb, hkeyb, hendb, -⟩ := hr.mem hstop b (by simp)
          obtain ⟨mb, -, hkeyb', -⟩ := hr
          have hcount : sectorCount sectorsize b ≠ 0 := by
            refine ((lt_sectorCount hsize).mpr ?_).ne'
            have := Nat.mul_pos hposb hsize
            rw [hkeyb]
            simp only
            omega
          rw [nextBitmap, if_neg hcount, hkeyb']
      omega
    · exact ih hr hgap

end

theorem aligned_mem_iff {base step i j q a : ℕ} (hq : q * step ≤ a) (hq' : a < (q + 1) * step) :
    (base + i * step ≤ base + q * step ∧ base + q * step < base + j * step) ↔
      base + i * step ≤ base + a ∧ base + a < base + j * step := by
  have hmul : ∀ m n, m * step < n * step → m < n := fun m n h => Nat.lt_of_mul_lt_mul_right h
  have hle : ∀ m n, m ≤ n → m * step ≤ n * step := fun m n h => Nat.mul_le_mul_right step h
  constructor
  · rintro ⟨hlo, hhi⟩
    have := hle _ _ (hmul q j (by omega))
    rw [Nat.succ_eq_add_one] at this
    exact ⟨by omega, by omega⟩
  · rintro ⟨hlo, hhi⟩
    have h1 := hle _ _ (Nat.le_of_lt_succ (hmul i (q + 1) (by omega)))
    exact ⟨by omega, by omega⟩

section

variable {extents : List (ℕ × ℕ)} {extentItems bitmapItems tail : List FstItem} {sectorsize : ℕ}

theorem Encodes.setAt_iff (h : Encodes sectorsize group extents extentItems bitmapItems)
    (hsize : 0 < sectorsize) {item : FstItem} (hi : item ∈ bitmapItems) {a : ℕ}
    (hlo : item.key.objectid ≤ a) (hhi : a < item.stop) :
    item.SetAt sectorsize a ↔ InRanges extents a := by
  have hstop : group.stop < 2 ^ 64 := Nat.mod_lt _ (by decide)
  obtain ⟨k, n, -, hkey, hend, -⟩ := h.tiles.mem hstop item hi
  have hoffset : item.key.offset = n * sectorsize := by rw [hkey]
  obtain ⟨q, hq⟩ : ∃ q, q = (a - item.key.objectid) / sectorsize := ⟨_, rfl⟩
  have hdiv := (Nat.div_eq_iff hsize).mp hq.symm
  have hoid : item.key.objectid = group.objectid + k * sectorsize := by rw [hkey]
  have hsec : item.key.objectid + q * sectorsize = group.objectid + (k + q) * sectorsize := by
    rw [hoid, Nat.add_mul, Nat.add_assoc]
  have hsucc := Nat.add_one_mul (k + q) sectorsize
  have hb : group.objectid + (a - group.objectid) = a := by omega
  have hin : InRanges extents (item.key.objectid + q * sectorsize) ↔ InRanges extents a := by
    refine exists_congr fun r => and_congr_right fun hr => ?_
    obtain ⟨i, j, rfl⟩ := h.aligned r hr
    have hal := @aligned_mem_iff group.objectid sectorsize i j (k + q) (a - group.objectid)
      (by omega) (by omega)
    rw [hb] at hal
    rw [hsec]
    exact hal
  rw [FstItem.SetAt, ← hq, h.bits item hi q (by omega), hin]
  exact ⟨fun ha => ha.2.2, fun ha => ⟨hlo, hhi, ha⟩⟩

theorem acceptedItems_append {type : ℕ} {xs : List FstItem}
    (h : ∀ item ∈ xs, checkKey type group item.key = .item) (ht : NextGroup tail) :
    acceptedItems type group (xs ++ tail) = xs ∧ endsInError type group (xs ++ tail) = false := by
  have hd : (tail.takeWhile fun item => checkKey type group item.key = .item) = [] ∧
      (tail.dropWhile fun item => checkKey type group item.key = .item) = tail := by
    cases tail with
    | nil => exact ⟨rfl, rfl⟩
    | cons item tail => simp [ht.checkKey type group item rfl]
  have hall : ∀ item ∈ xs, decide (checkKey type group item.key = .item) = true :=
    fun item hi => decide_eq_true (h item hi)
  constructor
  · simp [acceptedItems, hd.1, List.takeWhile_append_of_pos hall]
  · rw [endsInError, List.dropWhile_append_of_pos hall]
    cases tail with
    | nil => rfl
    | cons item tail => simp [ht.checkKey type group item rfl]

section

variable (h : Encodes sectorsize group extents extentItems bitmapItems)

include h

theorem Encodes.accepted (hsize : 0 < sectorsize) :
    ∀ item ∈ bitmapItems, checkKey BTRFS_FREE_SPACE_BITMAP_KEY group item.key = .item := by
  have hstop : group.stop < 2 ^ 64 := Nat.mod_lt _ (by decide)
  intro item hi
  obtain ⟨k, n, hpos, hkey, hend, hle⟩ := h.tiles.mem hstop item hi
  have hlen := Nat.mul_pos hpos hsize
  have hend' : wrap64 (group.objectid + group.offset) = group.stop := rfl
  have hitemEnd : wrap64 (item.key.objectid + item.key.offset) = item.stop := rfl
  have ht : item.key.type = BTRFS_FREE_SPACE_BITMAP_KEY := by rw [hkey]
  have hoid : item.key.objectid = group.objectid + k * sectorsize := by rw [hkey]
  simp only [checkKey, ht]
  rw [if_neg (by decide), if_neg (by simp), if_neg (by omega), if_neg (by omega)]

theorem Encodes.runs_eq (hsize : 0 < sectorsize) :
    runs group.stop false 0 (bitmapItems.flatMap (itemPoints sectorsize)) = extents := by
  have hstop : group.stop < 2 ^ 64 := Nat.mod_lt _ (by decide)
  have horder := h.tiles.inOrder hstop
  have hasc := horder.ascending hsize
  refine (separated_runs hasc false 0 nofun).1.ext h.separated fun a => ?_
  rw [inRanges_runs hasc false 0 nofun, horder.marked_iff hsize]
  constructor
  · rintro (⟨hfalse, -⟩ | ⟨item, hi, hset⟩ | hgap)
    · cases hfalse
    · exact (h.setAt_iff hsize hi hset.1 hset.2.1).mp hset
    · exact absurd hgap (h.tiles.not_gapAt hsize hstop a)
  · rintro ⟨r, hr, hlo, hhi⟩
    obtain ⟨hst, hend⟩ := h.inside r hr
    obtain ⟨item, hi, hlo', hhi'⟩ := h.tiles.covers hstop (hst.trans hlo) (hhi.trans_le hend)
    exact Or.inr (Or.inl ⟨item, hi, (h.setAt_iff hsize hi hlo' hhi').mpr ⟨r, hr, hlo, hhi⟩⟩)

theorem Encodes.loadFreeSpaceExtents_eq (ht : NextGroup tail) (errors : ℕ) :
    loadFreeSpaceExtents pinnedExtents group ctl (extents.length % 2 ^ 32) (extentItems ++ tail)
        errors =
      (addRanges pinnedExtents extents ctl).map fun ctl => (ctl, errors) := by
  have hl := @loadExtentsLoop_eq group extentItems pinnedExtents ctl extents tail none 0
    h.separated (fun r hr => (h.inside r hr).2) h.keys ht nofun (by decide) errors
  rw [loadFreeSpaceExtents, hl]
  cases addRanges pinnedExtents extents ctl with
  | error fault => rfl
  | ok ctl => simp [Except.map, bind, Except.bind, pure, Except.pure]

end

theorem Encodes.loadFreeSpaceBitmaps_eq
    (h : Encodes ctl.sectorsize group extents extentItems bitmapItems) (hsize : 0 < ctl.sectorsize)
    (hgroup : group.stop + ctl.sectorsize ≤ 2 ^ 64) (ht : NextGroup tail) (errors : ℕ) :
    loadFreeSpaceBitmaps pinnedExtents group ctl (extents.length % 2 ^ 32) (bitmapItems ++ tail)
        errors =
      (addRanges pinnedExtents extents ctl).map fun ctl => (ctl, errors) := by
  have heq := @FreeSpaceTree.loadFreeSpaceBitmaps_eq pinnedExtents group ctl hsize hgroup
    (extents.length % 2 ^ 32) (bitmapItems ++ tail) errors
  obtain ⟨haccepted, hend⟩ := acceptedItems_append (h.accepted hsize) ht
  have hstop : wrap64 (group.objectid + group.offset) = group.stop := rfl
  simp only [haccepted, hend, hstop, h.runs_eq hsize] at heq
  rw [heq]
  cases addRanges pinnedExtents extents ctl with
  | error fault => rfl
  | ok ctl => simp [Except.map]

end

/-! ## The two loaders -/

/-- The bitmaps of a block group are loaded as they are, or an error is counted, exactly if an item
does not belong there, the count of the info item is wrong, or all bytes between a bitmap whose last
bit is set and the next bitmap, or the end of the block group, are pinned. Both loaders make the same
of one free space. -/
theorem loadFreeSpaceTree_exact (hpinned : Ordered pinnedExtents) (h : WellFormed ctl)
    (hgroup : group.stop + ctl.sectorsize ≤ 2 ^ 64)
    (hfree : ∀ a, group.objectid ≤ a → a < group.stop → ¬ FreeAt ctl a) :
    (∀ items, GroupItems group items → ∀ expected errors,
      LoadsExactly pinnedExtents group ctl expected items errors ↔
        endsInError BTRFS_FREE_SPACE_BITMAP_KEY group items ∨
        countRuns false (groupBits ctl.sectorsize group items) % 2 ^ 32 ≠ expected ∨
        ∀ a, GapInGroup ctl.sectorsize group items a → Pinned pinnedExtents a) ∧
    (∀ extents extentItems bitmapItems tail tail',
      Encodes ctl.sectorsize group extents extentItems bitmapItems →
      NextGroup tail → NextGroup tail' → ∀ errors, ∃ ctl',
        loadFreeSpaceExtents pinnedExtents group ctl (extents.length % 2 ^ 32)
            (extentItems ++ tail) errors = .ok (ctl', errors) ∧
        loadFreeSpaceBitmaps pinnedExtents group ctl (extents.length % 2 ^ 32)
            (bitmapItems ++ tail') errors = .ok (ctl', errors) ∧
        ∀ a, FreeAt ctl' a ↔ FreeAt ctl a ∨ InRanges extents a ∧ ¬ Pinned pinnedExtents a) := by
  have hsize := sectorsize_pos h
  have hstop : group.stop < 2 ^ 64 := Nat.mod_lt _ (by decide)
  refine ⟨fun items hitems expected errors =>
    loadsExactly_iff hpinned h hgroup hfree hitems expected errors, ?_⟩
  intro extents extentItems bitmapItems tail tail' hencodes ht ht' errors
  obtain ⟨ctl', hc, ha⟩ := addRanges_spec hpinned h hencodes.separated
    (fun r hr => (hencodes.inside r hr).2.trans_lt hstop) (by
      rintro a ⟨r, hr, hlo, hhi⟩
      obtain ⟨hst, hend⟩ := hencodes.inside r hr
      exact hfree a (hst.trans hlo) (hhi.trans_le hend))
  refine ⟨ctl', ?_, ?_, ha.freeAt⟩
  · rw [hencodes.loadFreeSpaceExtents_eq ht, hc]
    rfl
  · rw [hencodes.loadFreeSpaceBitmaps_eq hsize hgroup ht', hc]
    rfl

/-! ## A bitmap that ends before the block group -/

def emptyCtl : FreeSpaceCtl := ⟨.nil, 0, 0, 4096, 4096⟩

def eightSectors : BlockGroup := ⟨1048576, 32768⟩

def onesBitmap (sectors : ℕ) : FstItem :=
  ⟨⟨1048576, BTRFS_FREE_SPACE_BITMAP_KEY, sectors * 4096⟩, fun i => decide (i < 4)⟩

theorem emptyCtl_wellFormed : WellFormed emptyCtl :=
  ⟨by decide, rfl, ⟨RbTree.valid_nil, .nil⟩, List.forall_mem_nil _, List.forall_mem_nil _, rfl, rfl⟩

theorem emptyCtl_not_freeAt (a : ℕ) : ¬ FreeAt emptyCtl a := fun ⟨_, he, _⟩ => List.not_mem_nil he

theorem groupItems_onesBitmap (sectors : ℕ) : GroupItems eightSectors [onesBitmap sectors] := by
  refine ⟨fun item hi => ?_, ?_⟩
  · rw [List.mem_singleton.mp hi]
    exact le_refl _
  · exact (List.pairwise_singleton _ _).sublist (List.takeWhile_sublist _)

/-- A bit behind the end of the bitmap belongs to no sector. -/
def strayBitmap : FstItem :=
  ⟨⟨1048576, BTRFS_FREE_SPACE_BITMAP_KEY, 32768⟩, fun i => decide (i < 4 ∨ i = 8)⟩

def fourSectorExtent : FstItem :=
  ⟨⟨1048576, BTRFS_FREE_SPACE_EXTENT_KEY, 16384⟩, fun _ => false⟩

theorem encodes_fourSectors :
    Encodes 4096 eightSectors [(1048576, 1064960)] [fourSectorExtent] [strayBitmap] where
  separated := ⟨by decide, by simp⟩
  inside := by decide
  aligned := by
    intro r hr
    obtain rfl := List.mem_singleton.mp hr
    exact ⟨0, 4, rfl⟩
  keys := rfl
  tiles := ⟨8, by decide, rfl, rfl⟩
  bits := by
    intro item hi i hlt
    obtain rfl := List.mem_singleton.mp hi
    simp only [strayBitmap, InRanges, List.mem_singleton, exists_eq_left, decide_eq_true_eq] at hlt ⊢
    omega

/-- A bitmap of the whole block group, and one free extent in both encodings. -/
theorem loadsExactly_eightSectors : LoadsExactly [] eightSectors emptyCtl 1 [onesBitmap 8] 0 ∧
    ∃ ctl', loadFreeSpaceExtents [] eightSectors emptyCtl 1 [fourSectorExtent] 0 = .ok (ctl', 0) ∧
      loadFreeSpaceBitmaps [] eightSectors emptyCtl 1 [strayBitmap] 0 = .ok (ctl', 0) ∧
      ∀ a, FreeAt ctl' a ↔
        FreeAt emptyCtl a ∨ InRanges [(1048576, 1064960)] a ∧ ¬ Pinned [] a := by
  obtain ⟨hexact, hagree⟩ := loadFreeSpaceTree_exact ordered_nil emptyCtl_wellFormed
    (show eightSectors.stop + emptyCtl.sectorsize ≤ 2 ^ 64 by decide)
    fun a _ _ => emptyCtl_not_freeAt a
  refine ⟨(hexact [onesBitmap 8] (groupItems_onesBitmap 8) 1 0).mpr
    (Or.inr (Or.inr fun a hgap => ?_)),
    hagree _ [fourSectorExtent] [strayBitmap] [] [] encodes_fourSectors nofun nofun 0⟩
  rcases hgap with ⟨-, -, hlo, hhi⟩ | hgap
  · exact absurd (hlo.trans_lt hhi) (by decide)
  · exact absurd hgap id

/-- A bitmap of the first four sectors, all free: the other four sectors are added as well, and no
error is counted. -/
theorem loadsExactly_fourSectors : GroupItems eightSectors [onesBitmap 4] ∧
    (loadFreeSpaceBitmaps [] eightSectors emptyCtl 1 [onesBitmap 4] 0).map
        (fun result => (result.1.freeSpaceOffset, result.2)) =
      .ok (.node .black .nil ⟨1048576, 32768, none⟩ .nil, 0) ∧
    ¬ SetInGroup 4096 eightSectors [onesBitmap 4] 1064960 ∧
    ¬ LoadsExactly [] eightSectors emptyCtl 1 [onesBitmap 4] 0 := by
  have hitems := groupItems_onesBitmap 4
  refine ⟨hitems, by decide +kernel, ?_, ?_⟩
  · rintro ⟨item, hi, -, hhi, -⟩
    rw [List.mem_singleton.mp hi] at hhi
    exact absurd hhi (by decide)
  · rw [loadsExactly_iff ordered_nil emptyCtl_wellFormed
      (show eightSectors.stop + emptyCtl.sectorsize ≤ 2 ^ 64 by decide)
      (fun a _ _ => emptyCtl_not_freeAt a) hitems 1 0]
    rintro (hend | hcount | hgap)
    · exact absurd hend (by decide)
    · exact hcount (by decide +kernel)
    · have hin : GapInGroup emptyCtl.sectorsize eightSectors [onesBitmap 4] 1064960 := by
        exact Or.inl ⟨by decide, by decide, by decide, by decide⟩
      exact hgap _ hin rfl

/-! ## New free space -/

end Btrfs.FreeSpaceTree
