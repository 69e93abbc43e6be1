import Btrfs.Model.FreeSpaceTree
import Btrfs.Verification.ExtentIo.Semantics
import Btrfs.Verification.FreeSpaceCache.Correctness
import Btrfs.Verification.Shared.MarkedRuns

/-! # Loading the free space of a block group -/

namespace Btrfs.FreeSpaceTree

open ExtentIo FreeSpaceCache MarkedRuns RbTree

variable {ctl : FreeSpaceCtl} {start : ℕ}

def Pinned (pinnedExtents : StateTree) (a : ℕ) : Prop :=
  stateAt pinnedExtents a &&& (EXTENT_DIRTY ||| EXTENT_UPTODATE) ≠ 0

instance (pinnedExtents : StateTree) : DecidablePred (Pinned pinnedExtents) :=
  fun _ => inferInstanceAs (Decidable (_ ≠ _))

/-- The number of bytes of a range that are not pinned. -/
def unpinned (pinnedExtents : StateTree) (start stop : ℕ) : ℕ :=
  ((Finset.Ico start stop).filter fun a => ¬ Pinned pinnedExtents a).card

section

variable {pinnedExtents : StateTree} {a b c stop : ℕ}

theorem unpinned_of_le (h : b ≤ a) : unpinned pinnedExtents a b = 0 := by
  simp [unpinned, Finset.Ico_eq_empty_of_le h]

theorem unpinned_of_pinned (h : ∀ x, a ≤ x → x < b → Pinned pinnedExtents x) :
    unpinned pinnedExtents a b = 0 := by
  simpa [unpinned] using h

theorem unpinned_of_not_pinned (h : ∀ x, a ≤ x → x < b → ¬ Pinned pinnedExtents x) :
    unpinned pinnedExtents a b = b - a := by
  rw [unpinned, Finset.filter_true_of_mem, Nat.card_Ico]
  simpa using h

theorem unpinned_add (hab : a ≤ b) (hbc : b ≤ c) :
    unpinned pinnedExtents a c = unpinned pinnedExtents a b + unpinned pinnedExtents b c := by
  rw [unpinned, ← Finset.Ico_union_Ico_eq_Ico hab hbc, Finset.filter_union,
    Finset.card_union_of_disjoint]
  · rfl
  · exact Finset.disjoint_filter_filter (Finset.Ico_disjoint_Ico_consecutive a b c)

/-- Behind the end of the range nothing counts. -/
theorem unpinned_min (hab : a ≤ b) (hbc : b ≤ c) : unpinned pinnedExtents a (min c stop) =
    unpinned pinnedExtents a (min b stop) + unpinned pinnedExtents b (min c stop) := by
  by_cases hb : b ≤ stop
  · rw [unpinned_add hab (le_min hbc hb), min_eq_left hb]
  · rw [min_eq_right (by omega), min_eq_right (by omega), unpinned_of_le (by omega : stop ≤ b),
      add_zero]

end

/-! ## Adding a range -/

structure Adds (ctl ctl' : FreeSpaceCtl) (added : ℕ → Prop) : Prop where
  wellFormed : WellFormed ctl'
  sectorsize : ctl'.sectorsize = ctl.sectorsize
  freeAt : ∀ a, FreeAt ctl' a ↔ FreeAt ctl a ∨ added a

theorem Adds.refl (h : WellFormed ctl) : Adds ctl ctl fun _ => False :=
  ⟨h, rfl, fun _ => (or_false _).symm ▸ Iff.rfl⟩

theorem Adds.trans {a b c : FreeSpaceCtl} {p q : ℕ → Prop} (hab : Adds a b p) (hbc : Adds b c q) :
    Adds a c fun x => p x ∨ q x :=
  ⟨hbc.wellFormed, hbc.sectorsize.trans hab.sectorsize,
    fun x => by rw [hbc.freeAt, hab.freeAt, or_assoc]⟩

theorem Adds.congr {a b : FreeSpaceCtl} {p q : ℕ → Prop} (h : Adds a b p) (hpq : ∀ x, p x ↔ q x) :
    Adds a b q :=
  ⟨h.wellFormed, h.sectorsize, fun x => by rw [h.freeAt, hpq]⟩

theorem freeAt_iff (ctl : FreeSpaceCtl) (a : ℕ) : FreeAt ctl a ↔ ExtentAt ctl a ∨
      ∃ e ∈ inorder ctl.freeSpaceOffset, e.bitmap ≠ none ∧ e.Covers ctl.unit a := by
  constructor
  · rintro ⟨e, he, hcovered⟩
    by_cases hk : e.bitmap = none
    · exact Or.inl ⟨e, he, hk, hcovered⟩
    · exact Or.inr ⟨e, he, hk, hcovered⟩
  · rintro (⟨e, he, -, hcovered⟩ | ⟨e, he, -, hcovered⟩)
    · exact ⟨e, he, hcovered⟩
    · exact ⟨e, he, hcovered⟩

theorem btrfsAddFreeSpace_adds (h : WellFormed ctl) {stop : ℕ} (hlt : start < stop)
    (hs : stop < 2 ^ 64) (hf : ∀ a, start ≤ a → a < stop → ¬ FreeAt ctl a) :
    ∃ ctl', btrfsAddFreeSpace ctl start (stop - start) = .ok (0, ctl') ∧
      Adds ctl ctl' fun a => start ≤ a ∧ a < stop := by
  have hsum : start + (stop - start) = stop := by omega
  have hapart : Apart ctl ⟨start, stop - start, none⟩ := by
    refine ⟨rfl, by simp only; omega, by simp only; omega, ?_⟩
    intro e he a hcovered hin
    simp only [hsum] at hin
    exact hf a hin.1 hin.2 ⟨e, he, hcovered⟩
  obtain ⟨ctl', hc, hmov, hextents, -⟩ := h.add hapart
  rw [hsum] at hextents
  refine ⟨ctl', hc, hmov.wellFormed, hmov.sectorsize, fun a => ?_⟩
  have hbitmaps : (∃ e ∈ inorder ctl'.freeSpaceOffset, e.bitmap ≠ none ∧ e.Covers ctl'.unit a) ↔
      ∃ e ∈ inorder ctl.freeSpaceOffset, e.bitmap ≠ none ∧ e.Covers ctl.unit a := by
    rw [hmov.unit]
    refine exists_congr fun e => ?_
    constructor
    · rintro ⟨he, hk, hcovered⟩
      exact ⟨(hmov.bitmaps e hk).mp he, hk, hcovered⟩
    · rintro ⟨he, hk, hcovered⟩
      exact ⟨(hmov.bitmaps e hk).mpr he, hk, hcovered⟩
  rw [freeAt_iff, freeAt_iff, hextents, hbitmaps]
  exact or_right_comm

/-! ## The loop over the pinned extents -/

section

variable {pinnedExtents : StateTree} (hpinned : Ordered pinnedExtents)

def statesFrom (pinnedExtents : StateTree) (start : ℕ) : ℕ :=
  (pinnedExtents.filter fun s => decide (start ≤ s.last)).length

theorem statesFrom_lt {s : ExtentState} (hs : s ∈ pinnedExtents) (hle : start ≤ s.last) :
    statesFrom pinnedExtents (s.last + 1) < statesFrom pinnedExtents start := by
  have hsub : (pinnedExtents.filter fun e => decide (s.last + 1 ≤ e.last)).Sublist
      (pinnedExtents.filter fun e => decide (start ≤ e.last)) := by
    refine List.monotone_filter_right _ fun e he => ?_
    simp only [decide_eq_true_eq] at he ⊢
    omega
  refine lt_of_le_of_ne hsub.length_le fun heq => ?_
  have hmem : s ∈ pinnedExtents.filter fun e => decide (start ≤ e.last) :=
    List.mem_filter.mpr ⟨hs, decide_eq_true hle⟩
  rw [← hsub.eq_of_length heq, List.mem_filter, decide_eq_true_eq] at hmem
  omega

include hpinned

theorem pinned_of_state {s : ExtentState} (hs : s ∈ pinnedExtents)
    (hstate : s.state &&& (EXTENT_DIRTY ||| EXTENT_UPTODATE) ≠ 0) {a : ℕ} (hlo : s.start ≤ a)
    (hhi : a ≤ s.last) : Pinned pinnedExtents a := by
  rw [Pinned, hpinned.stateAt_eq hs hlo hhi]
  exact hstate

theorem addNewFreeSpaceLoop_spec {ctl : FreeSpaceCtl} (h : WellFormed ctl)
    {rounds start stop totalAdded : ℕ} (hst : stop < 2 ^ 64)
    (htotal : totalAdded + (stop - start) < 2 ^ 64)
    (hf : ∀ a, start ≤ a → a < stop → ¬ FreeAt ctl a)
    (hrounds : statesFrom pinnedExtents start < rounds) :
    ∃ start' totalAdded' ctl', addNewFreeSpaceLoop pinnedExtents stop rounds start totalAdded ctl =
        .ok (start', totalAdded', ctl') ∧
      start ≤ start' ∧ totalAdded' = totalAdded + unpinned pinnedExtents start (min start' stop) ∧
      Adds ctl ctl' (fun a => start ≤ a ∧ a < start' ∧ a < stop ∧ ¬ Pinned pinnedExtents a) ∧
      ∀ a, start' ≤ a → a < stop → ¬ Pinned pinnedExtents a := by
  induction rounds generalizing ctl start totalAdded with
  | zero => omega
  | succ rounds ih =>
    have hd : Adds ctl ctl (fun a => start ≤ a ∧ a < start ∧ a < stop ∧ ¬ Pinned pinnedExtents a) :=
      (Adds.refl h).congr fun a => iff_of_false id (by omega)
    have hz : totalAdded = totalAdded + unpinned pinnedExtents start (min start stop) := by
      rw [unpinned_of_le (min_le_left _ _), add_zero]
    rw [addNewFreeSpaceLoop]
    by_cases hle : stop ≤ start
    · exact ⟨start, totalAdded, ctl, if_pos hle, le_refl _, hz, hd, fun a _ _ => by omega⟩
    rw [if_neg hle]
    cases hfi : findFirstExtentBit pinnedExtents start (EXTENT_DIRTY ||| EXTENT_UPTODATE) with
    | none =>
      exact ⟨start, totalAdded, ctl, rfl, le_refl _, hz, hd,
        fun a ha _ => not_not.mpr (hpinned.findFirstExtentBit_none hfi ha)⟩
    | some found =>
      obtain ⟨first, last⟩ := found
      obtain ⟨s, hs, rfl, rfl, hla, hstate, hbefore⟩ := hpinned.findFirstExtentBit_some hfi
      have hcovered := fun a => @pinned_of_state _ hpinned s hs hstate a
      have hw : wrap64 (s.last + 1) = s.last + 1 := by
        have := (hpinned.proper s hs).2
        unfold u64Max at this
        exact Nat.mod_eq_of_lt (by omega)
      have hrounds' : statesFrom pinnedExtents (s.last + 1) < rounds := by
        have := statesFrom_lt hs hla
        omega
      simp only [hw]
      by_cases hfst : s.start ≤ start
      · rw [if_pos hfst]
        obtain ⟨start', totalAdded', ctl', hl, hle', hcount, had, hr⟩ :=
          @ih ctl h (s.last + 1) totalAdded (by omega) (fun a ha => hf a (by omega)) hrounds'
        refine ⟨start', totalAdded', ctl', hl, by omega, ?_, had.congr fun a => ?_, hr⟩
        · have hmin := @unpinned_min pinnedExtents start (s.last + 1) start' stop (by omega) hle'
          have hn : unpinned pinnedExtents start (min (s.last + 1) stop) = 0 :=
            unpinned_of_pinned fun a ha hlt => hcovered a (by omega) (by omega)
          omega
        constructor
        · rintro ⟨ha, hin⟩
          exact ⟨by omega, hin⟩
        · rintro ⟨ha, hlt, hlt', hnot⟩
          refine ⟨?_, hlt, hlt', hnot⟩
          by_contra hgt
          exact hnot (hcovered a (by omega) (by omega))
      rw [if_neg hfst]
      by_cases hins : s.start < stop
      · rw [if_pos hins]
        obtain ⟨ctl₁, hc, ha₁⟩ := btrfsAddFreeSpace_adds h (Nat.lt_of_not_le hfst) (hins.trans hst)
          fun a ha hlt => hf a ha (hlt.trans hins)
        have hf₁ : ∀ a, s.last + 1 ≤ a → a < stop → ¬ FreeAt ctl₁ a := by
          intro a ha hlt
          rw [ha₁.freeAt, not_or]
          have := (hpinned.proper s hs).1
          exact ⟨hf a (by omega) hlt, by omega⟩
        have hproper := (hpinned.proper s hs).1
        rw [wrap64_of_lt (by omega)]
        obtain ⟨start', totalAdded', ctl', hl, hle', hcount, had, hr⟩ :=
          @ih ctl₁ ha₁.wellFormed (s.last + 1) (totalAdded + (s.start - start)) (by omega)
            hf₁ hrounds'
        refine ⟨start', totalAdded', ctl', ?_, by omega, ?_, (ha₁.trans had).congr fun a => ?_, hr⟩
        · simp only [hc]
          exact hl
        · have hmin := @unpinned_min pinnedExtents start (s.last + 1) start' stop (by omega) hle'
          have hadd := @unpinned_add pinnedExtents start s.start (min (s.last + 1) stop) (by omega)
            (by omega)
          have hgap : unpinned pinnedExtents start s.start = s.start - start :=
            unpinned_of_not_pinned fun a ha hlt => not_not.mpr (hbefore a ha hlt)
          have hn : unpinned pinnedExtents s.start (min (s.last + 1) stop) = 0 :=
            unpinned_of_pinned fun a ha hlt => hcovered a ha (by omega)
          omega
        · constructor
          · rintro (⟨ha, hlt⟩ | ⟨ha, hin⟩)
            · exact ⟨ha, by omega, by omega, not_not.mpr (hbefore a ha hlt)⟩
            · exact ⟨by omega, hin⟩
          · rintro ⟨ha, hlt, hlt', hnot⟩
            by_cases hbelow : a < s.start
            · exact Or.inl ⟨ha, hbelow⟩
            · refine Or.inr ⟨?_, hlt, hlt', hnot⟩
              by_contra hgt
              exact hnot (hcovered a (by omega) (by omega))
      · rw [if_neg hins]
        exact ⟨start, totalAdded, ctl, rfl, le_refl _, hz, hd,
          fun a ha hlt => not_not.mpr (hbefore a ha (by omega))⟩

theorem addNewFreeSpace_spec (h : WellFormed ctl) {stop : ℕ} (hs : stop < 2 ^ 64)
    (hf : ∀ a, start ≤ a → a < stop → ¬ FreeAt ctl a) :
    ∃ ctl', addNewFreeSpace pinnedExtents ctl start stop =
        .ok (unpinned pinnedExtents start stop, ctl') ∧
      Adds ctl ctl' fun a => (start ≤ a ∧ a < stop) ∧ ¬ Pinned pinnedExtents a := by
  have hrounds : statesFrom pinnedExtents start < pinnedExtents.length + 1 :=
    Nat.lt_succ_of_le (List.length_filter_le _ _)
  obtain ⟨start', totalAdded, ctl₁, hl, hle, hcount, had, hr⟩ :=
    @addNewFreeSpaceLoop_spec _ hpinned ctl h _ start stop 0 hs (by omega) hf hrounds
  rw [addNewFreeSpace, hl]
  rw [zero_add] at hcount
  by_cases hlt : start' < stop
  · have hf₁ : ∀ a, start' ≤ a → a < stop → ¬ FreeAt ctl₁ a := by
      intro a ha hlt
      rw [had.freeAt, not_or]
      exact ⟨hf a (hle.trans ha) hlt, by omega⟩
    obtain ⟨ctl', hc, ha'⟩ := btrfsAddFreeSpace_adds had.wellFormed hlt hs hf₁
    refine ⟨ctl', ?_, (had.trans ha').congr fun a => ?_⟩
    · have hsum : wrap64 (totalAdded + (stop - start')) = unpinned pinnedExtents start stop := by
        rw [← unpinned_of_not_pinned hr, hcount, min_eq_left hlt.le, ← unpinned_add hle hlt.le]
        exact wrap64_of_lt ((Finset.card_filter_le _ _).trans_lt (by rw [Nat.card_Ico]; omega))
      simp only [bind, Except.bind, if_pos hlt, hc, hsum]
      rfl
    · constructor
      · rintro (⟨ha, -, hlt', hnot⟩ | ⟨ha, hlt'⟩)
        · exact ⟨⟨ha, hlt'⟩, hnot⟩
        · exact ⟨⟨hle.trans ha, hlt'⟩, hr a ha hlt'⟩
      · rintro ⟨⟨ha, hlt'⟩, hnot⟩
        by_cases hbelow : a < start'
        · exact Or.inl ⟨ha, hbelow, hlt', hnot⟩
        · exact Or.inr ⟨by omega, hlt'⟩
  · refine ⟨ctl₁, ?_, had.congr fun a => ?_⟩
    · simp only [bind, Except.bind, if_neg hlt, hcount, min_eq_right (not_lt.mp hlt)]
      rfl
    · constructor
      · rintro ⟨ha, -, hlt', hnot⟩
        exact ⟨⟨ha, hlt'⟩, hnot⟩
      · rintro ⟨⟨ha, hlt'⟩, hnot⟩
        exact ⟨ha, by omega, hlt', hnot⟩

omit hpinned

/-- `add_new_free_space` for one range after the other. -/
def addRanges (pinnedExtents : StateTree) : List (ℕ × ℕ) → FreeSpaceCtl → Call FreeSpaceCtl
  | [], ctl => .ok ctl
  | r :: ranges, ctl => do
      let (_, ctl) ← addNewFreeSpace pinnedExtents ctl r.1 r.2
      addRanges pinnedExtents ranges ctl

include hpinned

theorem addRanges_spec (h : WellFormed ctl) {ranges : List (ℕ × ℕ)} (hranges : Separated ranges)
    (he : ∀ r ∈ ranges, r.2 < 2 ^ 64) (hf : ∀ a, InRanges ranges a → ¬ FreeAt ctl a) :
    ∃ ctl', addRanges pinnedExtents ranges ctl = .ok ctl' ∧
      Adds ctl ctl' fun a => InRanges ranges a ∧ ¬ Pinned pinnedExtents a := by
  induction ranges generalizing ctl with
  | nil =>
    exact ⟨ctl, rfl, (Adds.refl h).congr fun a => iff_of_false id fun ha => inRanges_nil a ha.1⟩
  | cons r ranges ih =>
    obtain ⟨-, hlater, hr⟩ := separated_cons.mp hranges
    obtain ⟨ctl₁, hc, ha₁⟩ :=
      addNewFreeSpace_spec hpinned h (he r (by simp))
        fun a ha hlt => hf a (inRanges_cons.mpr (Or.inl ⟨ha, hlt⟩))
    have hf₁ : ∀ a, InRanges ranges a → ¬ FreeAt ctl₁ a := by
      intro a ha
      rw [ha₁.freeAt, not_or]
      refine ⟨hf a (inRanges_cons.mpr (Or.inr ha)), ?_⟩
      obtain ⟨r', hr', ha'⟩ := ha
      have := hlater r' hr'
      omega
    obtain ⟨ctl', hl, had⟩ := ih ha₁.wellFormed hr (fun r' hr' => he r' (by simp [hr'])) hf₁
    refine ⟨ctl', ?_, (ha₁.trans had).congr fun a => ?_⟩
    · rw [addRanges, hc]
      exact hl
    · rw [inRanges_cons, or_and_right]

end

/-! ## Loading bitmaps and extents -/

open Ctree (Key)
open ExtentIo FreeSpaceCache MarkedRuns

variable {pinnedExtents : StateTree} {items : List FstItem} {item : FstItem} {a : ℕ}
  {rest : List (ℕ × Bool)}

/-! ## The bits of an item -/

def FstItem.stop (item : FstItem) : ℕ := wrap64 (item.key.objectid + item.key.offset)

def FstItem.SetAt (sectorsize : ℕ) (item : FstItem) (a : ℕ) : Prop :=
  item.key.objectid ≤ a ∧ a < item.stop ∧ item.bits ((a - item.key.objectid) / sectorsize) = true

def sectorCount (sectorsize : ℕ) (item : FstItem) : ℕ :=
  (item.stop - item.key.objectid + (sectorsize - 1)) / sectorsize

theorem lt_sectorCount {sectorsize : ℕ} (hsize : 0 < sectorsize) {item : FstItem} {i : ℕ} :
    i < sectorCount sectorsize item ↔ i * sectorsize < item.stop - item.key.objectid := by
  rw [sectorCount, ← Nat.succ_le_iff, Nat.le_div_iff_mul_le hsize, Nat.succ_mul]
  omega

def itemPoints (sectorsize : ℕ) (item : FstItem) : List (ℕ × Bool) :=
  stepPoints item.key.objectid sectorsize item.bits 0 (sectorCount sectorsize item)

/-! ## The scan over all bits -/

/-- `load_free_space_bitmaps` on sectors, wherever they come from. -/
def loadPoints (pinnedExtents : StateTree) : List (ℕ × Bool) → BitmapLoad → Call BitmapLoad
  | [], st => .ok st
  | point :: points, st => do
      let st ← loadBit pinnedExtents st point.1 point.2
      loadPoints pinnedExtents points st

theorem loadPoints_append (xs ys : List (ℕ × Bool)) (st : BitmapLoad) :
    loadPoints pinnedExtents (xs ++ ys) st =
      loadPoints pinnedExtents xs st >>= loadPoints pinnedExtents ys := by
  induction xs generalizing st with
  | nil => rfl
  | cons x xs ih =>
    rw [List.cons_append, loadPoints, loadPoints, bind_assoc]
    exact bind_congr fun st => ih st

theorem loadBitmap_eq {sectorsize : ℕ} (hsize : 0 < sectorsize) {item : FstItem}
    (hs : item.stop + sectorsize ≤ 2 ^ 64) {rounds i : ℕ}
    (hle : i ≤ sectorCount sectorsize item) (hrounds : sectorCount sectorsize item < i + rounds)
    (st : BitmapLoad) :
    loadBitmap pinnedExtents sectorsize item rounds (item.key.objectid + i * sectorsize) st =
      loadPoints pinnedExtents (stepPoints item.key.objectid sectorsize item.bits i
        (sectorCount sectorsize item - i)) st := by
  induction rounds generalizing i st with
  | zero => omega
  | succ rounds ih =>
    have hcount := @lt_sectorCount sectorsize hsize item i
    change (if item.stop ≤ _ then _ else _) = _
    by_cases hl : i = sectorCount sectorsize item
    · have hout : item.stop ≤ item.key.objectid + i * sectorsize := by omega
      rw [if_pos hout, ← hl, Nat.sub_self]
      rfl
    · obtain ⟨m, hm⟩ : ∃ m, sectorCount sectorsize item - i = m + 1 :=
        Nat.exists_eq_succ_of_ne_zero (by omega)
      have hm' : m = sectorCount sectorsize item - (i + 1) := by omega
      have hin : ¬ item.stop ≤ item.key.objectid + i * sectorsize := by omega
      have hbit : freeSpaceTestBit item (item.key.objectid + i * sectorsize) sectorsize =
          item.bits i := by
        simp [freeSpaceTestBit, Nat.mul_div_cancel _ hsize]
      have hn : wrap64 (item.key.objectid + i * sectorsize + sectorsize) =
          item.key.objectid + (i + 1) * sectorsize := by
        rw [Nat.add_one_mul, ← Nat.add_assoc]
        exact Nat.mod_eq_of_lt (by omega)
      rw [if_neg hin, hm, hbit, hn, hm']
      exact bind_congr fun st => ih (by omega) (by omega) st

/-- The items of a type up to the first other one. -/
def acceptedItems (type : ℕ) (group : BlockGroup) (items : List FstItem) : List FstItem :=
  items.takeWhile fun item => checkKey type group item.key = .item

def endsInError (type : ℕ) (group : BlockGroup) (items : List FstItem) : Bool :=
  match items.dropWhile fun item => checkKey type group item.key = .item with
  | [] => false
  | item :: _ => checkKey type group item.key = .error

variable {group : BlockGroup}

theorem checkKey_eq_item {type : ℕ} (h : checkKey type group item.key = .item) :
    item.key.type = type ∧ item.key.objectid < wrap64 (group.objectid + group.offset) ∧
      item.stop ≤ wrap64 (group.objectid + group.offset) := by
  simp only [checkKey] at h
  split_ifs at h with hi ht hst hs
  exact ⟨not_not.mp ht, Nat.lt_of_not_le hst, Nat.le_of_not_lt hs⟩

theorem loadBitmapsLoop_eq {sectorsize : ℕ} (hsize : 0 < sectorsize)
    (hgroup : wrap64 (group.objectid + group.offset) + sectorsize ≤ 2 ^ 64) (items : List FstItem)
    (st : BitmapLoad) (errors : ℕ) :
    loadBitmapsLoop pinnedExtents sectorsize group items st errors =
      (loadPoints pinnedExtents ((acceptedItems BTRFS_FREE_SPACE_BITMAP_KEY group items).flatMap
        (itemPoints sectorsize)) st).map fun st =>
          (st, if endsInError BTRFS_FREE_SPACE_BITMAP_KEY group items then errors + 1
            else errors) := by
  induction items generalizing st with
  | nil => rfl
  | cons item items ih =>
    rw [loadBitmapsLoop, acceptedItems, endsInError]
    cases hcheck : checkKey BTRFS_FREE_SPACE_BITMAP_KEY group item.key with
    | stop => simp [hcheck, loadPoints, Except.map]
    | error => simp [hcheck, loadPoints, Except.map]
    | item =>
      have hs : item.stop + sectorsize ≤ 2 ^ 64 :=
        (Nat.add_le_add_right (checkKey_eq_item hcheck).2.2 _).trans hgroup
      have hrounds : sectorCount sectorsize item < 0 + (item.key.offset / sectorsize + 2) := by
        have hle : item.stop - item.key.objectid ≤ item.key.offset := by
          have : item.stop ≤ _ := Nat.mod_le (item.key.objectid + item.key.offset) (2 ^ 64)
          omega
        have hdiv : sectorCount sectorsize item ≤ (item.key.offset + sectorsize) / sectorsize :=
          Nat.div_le_div_right (by omega)
        rw [Nat.add_div_right _ hsize] at hdiv
        omega
      have hi := fun st => @loadBitmap_eq pinnedExtents sectorsize hsize item hs _ 0
        (Nat.zero_le _) hrounds st
      simp only [Nat.zero_mul, Nat.add_zero] at hi
      simp only [hcheck, List.takeWhile_cons, List.dropWhile_cons, decide_true, ↓reduceIte,
        List.flatMap_cons, loadPoints_append, hi]
      rw [itemPoints]
      cases loadPoints pinnedExtents _ st with
      | error fault => rfl
      | ok st => exact ih st

/-! ## The runs that are added -/

theorem loadPoints_runs (stop : ℕ) (points : List (ℕ × Bool)) (st : BitmapLoad)
    (hcount : st.extentCount < 2 ^ 32) :
    ((loadPoints pinnedExtents points st >>= closeLastRun pinnedExtents stop).map
        fun st => (st.ctl, st.extentCount)) =
      (addRanges pinnedExtents (runs stop st.prevBit st.extentStart points) st.ctl).map fun ctl =>
        (ctl, (st.extentCount + (runs stop st.prevBit st.extentStart points).length) % 2 ^ 32) := by
  induction points generalizing st with
  | nil =>
    obtain ⟨prevBit, extentStart, extentCount, ctl⟩ := st
    have hmod : extentCount % 2 ^ 32 = extentCount := Nat.mod_eq_of_lt hcount
    cases prevBit with
    | false =>
      change Except.ok (ctl, extentCount) = Except.ok (ctl, extentCount % 2 ^ 32)
      rw [hmod]
    | true =>
      simp only [loadPoints, closeLastRun, runs, addRanges, loadBit, bind, Except.bind, ↓reduceIte]
      cases addNewFreeSpace pinnedExtents ctl extentStart stop with
      | error fault => rfl
      | ok result => rfl
  | cons point points ih =>
    obtain ⟨prevBit, extentStart, extentCount, ctl⟩ := st
    obtain ⟨offset, bit⟩ := point
    cases prevBit with
    | false =>
      cases bit with
      | false => exact ih ⟨false, extentStart, extentCount, ctl⟩ hcount
      | true => exact ih ⟨true, offset, extentCount, ctl⟩ hcount
    | true =>
      cases bit with
      | true => exact ih ⟨true, extentStart, extentCount, ctl⟩ hcount
      | false =>
        simp only [loadPoints, runs, addRanges, loadBit, ↓reduceIte, Bool.and_false, Bool.not_false, Bool.and_true, Bool.false_eq_true]
        cases addNewFreeSpace pinnedExtents ctl extentStart offset with
        | error fault => rfl
        | ok result =>
          obtain ⟨totalAdded, ctl'⟩ := result
          have hn := ih ⟨false, extentStart, (extentCount + 1) % 2 ^ 32, ctl'⟩
            (Nat.mod_lt _ (by decide))
          refine hn.trans ?_
          simp only [List.length_cons]
          refine congrArg (fun f => Except.map f _) (funext fun ctl => ?_)
          rw [Nat.mod_add_mod]
          congr 2
          omega

theorem loadFreeSpaceBitmaps_eq {group : BlockGroup} {ctl : FreeSpaceCtl}
    (hsize : 0 < ctl.sectorsize)
    (hgroup : wrap64 (group.objectid + group.offset) + ctl.sectorsize ≤ 2 ^ 64) (expected : ℕ)
    (items : List FstItem) (errors : ℕ) :
    let points := (acceptedItems BTRFS_FREE_SPACE_BITMAP_KEY group items).flatMap
      (itemPoints ctl.sectorsize)
    let found := runs (wrap64 (group.objectid + group.offset)) false 0 points
    let errors' := if endsInError BTRFS_FREE_SPACE_BITMAP_KEY group items then errors + 1 else errors
    loadFreeSpaceBitmaps pinnedExtents group ctl expected items errors =
      (addRanges pinnedExtents found ctl).map fun ctl =>
        (ctl, if found.length % 2 ^ 32 ≠ expected then errors' + 1 else errors') := by
  intro points found errors'
  have hr := @loadPoints_runs pinnedExtents (wrap64 (group.objectid + group.offset)) points
    { ctl := ctl } (show (0 : ℕ) < 2 ^ 32 by decide)
  simp only [Nat.zero_add] at hr
  have hmap : (addRanges pinnedExtents found ctl).map (fun ctl =>
      (ctl, if found.length % 2 ^ 32 ≠ expected then errors' + 1 else errors')) =
      ((addRanges pinnedExtents found ctl).map fun ctl => (ctl, found.length % 2 ^ 32)).map
        fun result => (result.1, if result.2 ≠ expected then errors' + 1 else errors') := by
    cases addRanges pinnedExtents found ctl <;> rfl
  rw [hmap, ← hr, loadFreeSpaceBitmaps, loadBitmapsLoop_eq hsize hgroup]
  cases loadPoints pinnedExtents points { ctl := ctl } with
  | error fault => rfl
  | ok st =>
    simp only [Except.map, bind, Except.bind]
    cases closeLastRun pinnedExtents (wrap64 (group.objectid + group.offset)) st <;> rfl

/-! ## The points of an item -/

section

variable {sectorsize : ℕ} (hsize : 0 < sectorsize)

include hsize

theorem mem_itemPoints {p : ℕ × Bool} (hp : p ∈ itemPoints sectorsize item) :
    item.key.objectid ≤ p.1 ∧ p.1 < item.stop := by
  obtain ⟨i, hi, rfl⟩ := List.mem_map.mp hp
  rw [← List.range_eq_range', List.mem_range, lt_sectorCount hsize] at hi
  exact ⟨Nat.le_add_right _ _, by omega⟩

variable {stop : ℕ}

theorem ascending_itemPoints (hs : item.stop ≤ stop) (hr : Ascending stop rest)
    (hlater : ∀ p ∈ rest, item.stop ≤ p.1) :
    Ascending stop (itemPoints sectorsize item ++ rest) := by
  constructor
  · rw [List.pairwise_append]
    refine ⟨?_, hr.1, ?_⟩
    · rw [itemPoints, stepPoints, List.pairwise_map, ← List.range_eq_range']
      refine List.pairwise_lt_range.imp ?_
      intro i j hij
      have := Nat.mul_lt_mul_of_pos_right hij hsize
      omega
    · intro p hp q hq
      exact (mem_itemPoints hsize hp).2.trans_le (hlater q hq)
  · refine List.forall_mem_append.mpr ⟨fun p hp => ?_, hr.2⟩
    exact (mem_itemPoints hsize hp).2.trans_le hs

/-- The marks of a bitmap: its set bits, and what lies between it and the next point if its last
bit is set. -/
theorem marked_itemPoints (hne : item.stop ≤ nextPoint stop rest) (a : ℕ) :
    Marked stop (itemPoints sectorsize item ++ rest) a ↔ item.SetAt sectorsize a ∨
      (0 < sectorCount sectorsize item ∧
        item.bits (sectorCount sectorsize item - 1) = true ∧ item.stop ≤ a ∧
        a < nextPoint stop rest) ∨
      Marked stop rest a := by
  obtain ⟨n, hn⟩ : ∃ n, n = sectorCount sectorsize item := ⟨_, rfl⟩
  have hcount : ∀ i, i < n ↔ i * sectorsize < item.stop - item.key.objectid :=
    fun i => hn ▸ lt_sectorCount hsize
  rw [itemPoints, marked_stepPoints, Nat.zero_add, ← hn, ← or_assoc]
  refine or_congr_left ?_
  constructor
  · rintro ⟨i, -, hi, hbit, hlo, hhi⟩
    have hsucc := Nat.add_one_mul i sectorsize
    have hthis := hcount (i + 1)
    by_cases hin : a < item.stop
    · left
      refine ⟨by omega, hin, ?_⟩
      have hdiv : (a - item.key.objectid) / sectorsize = i := by
        rw [Nat.div_eq_iff hsize]
        split_ifs at hhi <;> omega
      rw [hdiv]
      exact hbit
    · right
      have hl : n = i + 1 := by split_ifs at hhi <;> omega
      rw [if_neg (by omega)] at hhi
      rw [hl]
      exact ⟨Nat.succ_pos i, hbit, by omega, hhi⟩
  · rintro (⟨hlo, hin, hbit⟩ | ⟨hpos, hbit, hlo, hhi⟩)
    · obtain ⟨i, hi⟩ : ∃ i, i = (a - item.key.objectid) / sectorsize := ⟨_, rfl⟩
      have hdiv := (Nat.div_eq_iff hsize).mp hi.symm
      have hsucc := Nat.add_one_mul i sectorsize
      refine ⟨i, Nat.zero_le _, (hcount i).mpr (by omega), hi ▸ hbit, by omega, ?_⟩
      split_ifs <;> omega
    · have hl := (hcount (n - 1)).mp (by omega)
      exact ⟨n - 1, Nat.zero_le _, by omega, hbit, by omega, by rw [if_neg (by omega)]; exact hhi⟩

omit hsize

/-! ## The bits of all items -/

/-- Where the next bitmap with a bit starts, or the block group ends. -/
def nextBitmap (sectorsize stop : ℕ) : List FstItem → ℕ
  | [] => stop
  | item :: items =>
    if sectorCount sectorsize item = 0 then nextBitmap sectorsize stop items
    else item.key.objectid

/-- A byte behind a bitmap whose last bit is set, before the next bitmap. -/
def GapAt (sectorsize stop : ℕ) : List FstItem → ℕ → Prop
  | [], _ => False
  | item :: items, a =>
    (0 < sectorCount sectorsize item ∧
      item.bits (sectorCount sectorsize item - 1) = true ∧ item.stop ≤ a ∧
      a < nextBitmap sectorsize stop items) ∨
    GapAt sectorsize stop items a

/-- Items in the order of their ranges, which do not overlap and end before `stop`. -/
structure InOrder (stop : ℕ) (items : List FstItem) : Prop where
  ordered : items.Pairwise fun a b => b.key.objectid < b.stop → a.stop ≤ b.key.objectid
  stop_le : ∀ item ∈ items, item.stop ≤ stop

theorem inOrder_cons : InOrder stop (item :: items) ↔
      (∀ b ∈ items, b.key.objectid < b.stop → item.stop ≤ b.key.objectid) ∧ item.stop ≤ stop ∧
        InOrder stop items := by
  constructor
  · rintro ⟨horder, hs⟩
    obtain ⟨hfirst, hr⟩ := List.pairwise_cons.mp horder
    exact ⟨hfirst, hs item (by simp), hr, (List.forall_mem_cons.mp hs).2⟩
  · rintro ⟨hfirst, hs, hr⟩
    exact ⟨List.pairwise_cons.mpr ⟨hfirst, hr.ordered⟩, List.forall_mem_cons.mpr ⟨hs, hr.stop_le⟩⟩

theorem nextPoint_flatMap (stop : ℕ) (items : List FstItem) :
    nextPoint stop (items.flatMap (itemPoints sectorsize)) = nextBitmap sectorsize stop items := by
  induction items with
  | nil => rfl
  | cons item items ih =>
    rw [List.flatMap_cons, nextBitmap]
    cases hcount : sectorCount sectorsize item with
    | zero => simpa [itemPoints, stepPoints, hcount] using ih
    | succ n =>
      rw [itemPoints, hcount, stepPoints_succ]
      simp [nextPoint]

include hsize

theorem stop_le_nextBitmap (hs : item.stop ≤ stop)
    (hlater : ∀ b ∈ items, b.key.objectid < b.stop → item.stop ≤ b.key.objectid) :
    item.stop ≤ nextBitmap sectorsize stop items := by
  induction items with
  | nil => exact hs
  | cons b items ih =>
    rw [nextBitmap]
    split_ifs with hcount
    · exact ih (List.forall_mem_cons.mp hlater).2
    · have hpos := (lt_sectorCount hsize).mp (Nat.pos_of_ne_zero hcount)
      exact hlater b (by simp) (by omega)

theorem InOrder.ascending (h : InOrder stop items) :
    Ascending stop (items.flatMap (itemPoints sectorsize)) := by
  induction items with
  | nil => exact ⟨.nil, by simp⟩
  | cons item items ih =>
    obtain ⟨hlater, hs, hr⟩ := inOrder_cons.mp h
    refine ascending_itemPoints hsize hs (ih hr) fun p hp => ?_
    obtain ⟨b, hb, hp⟩ := List.mem_flatMap.mp hp
    obtain ⟨hlo, hhi⟩ := mem_itemPoints hsize hp
    exact (hlater b hb (hlo.trans_lt hhi)).trans hlo

theorem InOrder.marked_iff (h : InOrder stop items) (a : ℕ) :
    Marked stop (items.flatMap (itemPoints sectorsize)) a ↔
      (∃ item ∈ items, item.SetAt sectorsize a) ∨ GapAt sectorsize stop items a := by
  induction items with
  | nil => simp [Marked, GapAt]
  | cons item items ih =>
    obtain ⟨hlater, hs, hr⟩ := inOrder_cons.mp h
    have hn := stop_le_nextBitmap hsize hs hlater
    rw [List.flatMap_cons, marked_itemPoints hsize (by rw [nextPoint_flatMap]; exact hn),
      ih hr, nextPoint_flatMap]
    simp only [List.mem_cons, exists_eq_or_imp]
    rw [or_assoc]
    exact or_congr_right or_left_comm

omit hsize in
theorem FstItem.SetAt.nonempty (h : item.SetAt sectorsize a) :
    item.key.objectid < item.stop := h.1.trans_lt h.2.1

theorem nextBitmap_le (h : InOrder stop items) (hi : item ∈ items)
    (hset : item.SetAt sectorsize a) :
    nextBitmap sectorsize stop items ≤ a := by
  induction items with
  | nil => exact absurd hi (by simp)
  | cons b items ih =>
    obtain ⟨hlater, -, hr⟩ := inOrder_cons.mp h
    rw [nextBitmap]
    rcases List.mem_cons.mp hi with rfl | hi
    · rw [if_neg]
      · exact hset.1
      · have hlt := hset.nonempty
        exact ((lt_sectorCount hsize).mpr (by omega)).ne'
    · split_ifs with hcount
      · exact ih hr hi
      · have hpos := (lt_sectorCount hsize).mp (Nat.pos_of_ne_zero hcount)
        have hle := hlater item hi (hset.nonempty)
        have := hset.1
        omega

theorem GapAt.behind (h : GapAt sectorsize stop items a) :
    ∃ item ∈ items, item.key.objectid < item.stop ∧ item.stop ≤ a := by
  induction items with
  | nil => exact absurd h id
  | cons item items ih =>
    rcases h with ⟨hcount, -, hlo, -⟩ | h
    · have hpos := (lt_sectorCount hsize).mp hcount
      exact ⟨item, by simp, by omega, hlo⟩
    · obtain ⟨b, hb, hin⟩ := ih h
      exact ⟨b, by simp [hb], hin⟩

theorem nextBitmap_le_stop (h : InOrder stop items) : nextBitmap sectorsize stop items ≤ stop := by
  induction items with
  | nil => exact le_refl stop
  | cons item items ih =>
    obtain ⟨-, hs, hr⟩ := inOrder_cons.mp h
    rw [nextBitmap]
    split_ifs with hcount
    · exact ih hr
    · have hpos := (lt_sectorCount hsize).mp (Nat.pos_of_ne_zero hcount)
      omega

theorem GapAt.lt_stop (h : GapAt sectorsize stop items a) (horder : InOrder stop items) :
    a < stop := by
  induction items with
  | nil => exact absurd h id
  | cons item items ih =>
    obtain ⟨-, -, hr⟩ := inOrder_cons.mp horder
    rcases h with ⟨-, -, -, hlt⟩ | h
    · exact hlt.trans_le (nextBitmap_le_stop hsize hr)
    · exact ih h hr

theorem InOrder.not_setAt_of_gapAt (h : InOrder stop items) (hgap : GapAt sectorsize stop items a) :
    ∀ item ∈ items, ¬ item.SetAt sectorsize a := by
  induction items with
  | nil => exact absurd hgap id
  | cons b items ih =>
    obtain ⟨hlater, -, hr⟩ := inOrder_cons.mp h
    intro item hi hset
    rcases hgap with ⟨-, -, hlo, hhi⟩ | hgap
    · rcases List.mem_cons.mp hi with rfl | hi
      · have := hset.2.1
        omega
      · have := nextBitmap_le hsize hr hi hset
        omega
    · rcases List.mem_cons.mp hi with rfl | hi
      · obtain ⟨c, hc, hlt, hle⟩ := hgap.behind hsize
        have := hlater c hc hlt
        have := hset.2.1
        omega
      · exact ih hr hgap item hi hset

end

end Btrfs.FreeSpaceTree
