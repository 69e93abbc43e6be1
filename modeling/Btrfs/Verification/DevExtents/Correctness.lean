import Btrfs.Model.DevExtents
import Btrfs.Verification.Ctree.Iteration
import Btrfs.Verification.Shared.Calls
import Btrfs.Verification.Shared.Holes

/-! # The scan over the extents of a device -/

namespace Btrfs.DevExtents

open Ctree Holes

/-! ## The extents of a device -/

/-- The offset and the length of a dev extent of the device. -/
def devExtent? (devid : ℕ) (item : Item) : Option (ℕ × ℕ) :=
  if item.key.objectid = devid ∧ item.key.type = BTRFS_DEV_EXTENT_KEY then
    some (item.key.offset, btrfsDevExtentLength item)
  else none

/-- The dev extents of the device in the order of the tree. -/
def devExtents (devid : ℕ) (items : List Item) : List (ℕ × ℕ) := items.filterMap (devExtent? devid)

/-- The device has nothing stored at an offset from `origin` on. -/
def Free (extents : List (ℕ × ℕ)) (origin totalBytes x : ℕ) : Prop :=
  origin ≤ x ∧ x < totalBytes ∧ ∀ e ∈ extents, ¬ (e.1 ≤ x ∧ x < e.1 + e.2)

/-- The extents are not empty, follow each other and lie on the device. -/
structure InOrder (extents : List (ℕ × ℕ)) (totalBytes : ℕ) : Prop where
  order : extents.Pairwise fun e f => e.1 + e.2 ≤ f.1
  nonempty : ∀ e ∈ extents, 0 < e.2
  inside : ∀ e ∈ extents, e.1 + e.2 ≤ totalBytes

/-! ## The loop as a function of the extents -/

/-- What the loop does with the extents that it visits. -/
def scanExtents (numBytes searchEnd : ℕ) : List (ℕ × ℕ) → HoleSearch → ℤ × HoleSearch
  | [], s => s.finish numBytes searchEnd
  | e :: rest, s =>
    if (s.holeBefore numBytes e.1).1 then (0, (s.holeBefore numBytes e.1).2)
    else scanExtents numBytes searchEnd rest ((s.holeBefore numBytes e.1).2.skip e.1 e.2)

section

variable {nodesize : ℕ} {blocks : Blocks} {root : ℕ} {path : Path}
  {pre before after post : List Item} {devid : ℕ}

theorem devExtents_eq_nil_of_lt {items : List Item} (h : ∀ x ∈ items, devid < x.key.objectid) :
    devExtents devid items = [] := by
  rw [devExtents, List.filterMap_eq_nil_iff]
  intro x hx
  have hlt := h x hx
  rw [devExtent?, if_neg (by omega)]

/-- From a position on the loop scans the extents behind it. -/
theorem findHoleLoop_eq (numBytes searchEnd : ℕ) {n : ℕ}
    (h : Position nodesize blocks root path pre before after post)
    (hsorted : SortedItems (after ++ post)) (hn : walkRounds after post ≤ n) (s : HoleSearch) :
    findHoleLoop blocks devid numBytes searchEnd n path s =
      .ok (scanExtents numBytes searchEnd (devExtents devid (after ++ post)) s) := by
  induction n generalizing path pre before after post s with
  | zero =>
    unfold walkRounds at hn
    split at hn <;> omega
  | succ n ih =>
    obtain ⟨hnr, hs⟩ := h.leaf_items
    cases after with
    | nil =>
      have hend : (path.leaf blocks).nritems ≤ path.slots 0 := by rw [hnr, hs, List.append_nil]
      have hl := h.nextLeaf (path.slots 0)
      rw [Path.setSlot_eq_self] at hl
      simp only [findHoleLoop, hend]
      rcases hl with ⟨rfl, hret⟩ | ⟨path', _, _, after', post', heq, hpos, hafter, rfl⟩
      · simp only [hret]
        rfl
      · simp only [heq]
        refine ih hpos hsorted ?_ s
        rw [walkRounds_of_ne_nil hafter]
        simp only [walkRounds, List.nil_append, if_true] at hn
        omega
    | cons x rest =>
      have hinside : ¬ (path.leaf blocks).nritems ≤ path.slots 0 := by
        rw [hnr, List.length_append, List.length_cons]
        omega
      have hi : path.item blocks = some x := h.item_eq
      rw [List.cons_append] at hsorted
      obtain ⟨hfirst, hr⟩ := List.pairwise_cons.mp hsorted
      rw [walkRounds_of_ne_nil (List.cons_ne_nil x rest), List.cons_append, List.length_cons] at hn
      have hmoved := h.setSlot (before ++ [x]) rest (by simp)
      have hlen : (before ++ [x]).length = path.slots 0 + 1 := by simp [hs]
      rw [hlen, Path.setSlot] at hmoved
      have hbound := walkRounds_le rest post
      have hne := ih hmoved hr (by omega)
      simp only [findHoleLoop, hinside, if_false, hi, hne, List.cons_append]
      by_cases hlt : x.key.objectid < devid
      · have hother : devExtent? devid x = none := by rw [devExtent?, if_neg (by omega)]
        simp [hlt, devExtents, List.filterMap_cons_none hother]
      · by_cases hgt : devid < x.key.objectid
        · -- the extents of the device have all been visited
          have hno : devExtents devid (x :: (rest ++ post)) = [] := by
            apply devExtents_eq_nil_of_lt
            refine List.forall_mem_cons.mpr ⟨hgt, fun y hy => ?_⟩
            have hkey := (Key.lt_iff _ _).mp (hfirst y hy)
            omega
          simp only [hlt, hgt, hno]
          rfl
        · by_cases ht : x.key.type = BTRFS_DEV_EXTENT_KEY
          · have hthis : devExtent? devid x = some (x.key.offset, btrfsDevExtentLength x) := by
              rw [devExtent?, if_pos ⟨by omega, ht⟩]
            simp only [hlt, hgt, if_false, ht, ne_eq, not_true_eq_false, devExtents,
              List.filterMap_cons_some hthis, scanExtents]
            split <;> rfl
          · have hother : devExtent? devid x = none := by
              rw [devExtent?, if_neg fun hboth => ht hboth.2]
            simp only [hlt, hgt, if_false, ht, ne_eq, not_false_eq_true, if_true, devExtents,
              List.filterMap_cons_none hother]

end

/-! ## What the scan finds -/

/-- The state of the scan with `rest` still to be visited: the holes before `search_start` are
too small, and the first of the largest of them is known. -/
structure Scanning (extents : List (ℕ × ℕ)) (origin totalBytes numBytes : ℕ)
    (rest : List (ℕ × ℕ)) (s : HoleSearch) : Prop where
  origin_le : origin ≤ s.searchStart
  le_total : s.searchStart ≤ totalBytes
  subset : ∀ e ∈ rest, e ∈ extents
  visited : ∀ e ∈ extents, e ∈ rest ∨ e.1 + e.2 ≤ s.searchStart
  before : ∀ y, y + 1 = s.searchStart → ¬ Free extents origin totalBytes y
  best : Best (Free extents origin totalBytes) s.searchStart s.maxHoleStart s.maxHoleSize
  none : s.maxHoleSize = 0 → s.maxHoleStart = origin
  small : s.maxHoleSize < numBytes

theorem HoleSearch.record_eq (s : HoleSearch) (holeSize : ℕ) :
    s.record holeSize = ⟨s.searchStart, if s.maxHoleSize < holeSize then s.searchStart
      else s.maxHoleStart, if s.maxHoleSize < holeSize then holeSize else s.maxHoleSize⟩ := by
  unfold HoleSearch.record
  split <;> rfl

section

variable {extents rest : List (ℕ × ℕ)} {origin totalBytes numBytes : ℕ} {s : HoleSearch} {e : ℕ × ℕ}

section

variable (h : Scanning extents origin totalBytes numBytes (e :: rest) s)

include h

theorem Scanning.hole (hextents : InOrder extents totalBytes)
    (hr : (e :: rest).Pairwise fun e f => e.1 + e.2 ≤ f.1) (hlt : s.searchStart < e.1) :
    Hole (Free extents origin totalBytes) s.searchStart (e.1 - s.searchStart) := by
  have hmem := h.subset e (by simp)
  have hpos := hextents.nonempty e hmem
  have hin := hextents.inside e hmem
  have horigin := h.origin_le
  refine ⟨by omega, ?_, h.before, ?_⟩
  · intro x hle hx
    refine ⟨by omega, by omega, ?_⟩
    intro f hf
    rcases h.visited f hf with hf | hf
    · rcases List.mem_cons.mp hf with rfl | hf
      · omega
      · have hafter := (List.pairwise_cons.mp hr).1 f hf
        omega
    · omega
  · rintro ⟨-, -, hout⟩
    exact hout e hmem ⟨by omega, by omega⟩

theorem Scanning.visited_tail {cur : ℕ} (hcursor : s.searchStart ≤ cur) (hend : e.1 + e.2 ≤ cur) :
    ∀ f ∈ extents, f ∈ rest ∨ f.1 + f.2 ≤ cur := by
  intro f hf
  rcases h.visited f hf with hf | hf
  · rcases List.mem_cons.mp hf with rfl | hf
    · exact .inr hend
    · exact .inl hf
  · exact .inr (hf.trans hcursor)

theorem Scanning.step (hextents : InOrder extents totalBytes) (htotal : totalBytes < 2 ^ 64)
    (hr : (e :: rest).Pairwise fun e f => e.1 + e.2 ≤ f.1)
    (hsmall : (s.holeBefore numBytes e.1).1 = false) :
    Scanning extents origin totalBytes numBytes rest
      ((s.holeBefore numBytes e.1).2.skip e.1 e.2) := by
  have hmem := h.subset e (by simp)
  have hpos := hextents.nonempty e hmem
  have hin := hextents.inside e hmem
  have hend : wrap64 (e.1 + e.2) = e.1 + e.2 := wrap64_of_lt (by omega)
  have hstored : ∀ x, e.1 ≤ x → x < e.1 + e.2 → ¬ Free extents origin totalBytes x :=
    fun x hle hlt hfr => hfr.2.2 e hmem ⟨hle, hlt⟩
  have hbefore : ∀ y, y + 1 = e.1 + e.2 → ¬ Free extents origin totalBytes y :=
    fun y hy => hstored y (by omega) (by omega)
  have hsubset : ∀ f ∈ rest, f ∈ extents := fun f hf => h.subset f (List.mem_cons_of_mem e hf)
  have horigin := h.origin_le
  by_cases hlt : s.searchStart < e.1
  · have hh := h.hole hextents hr hlt
    have hsi : e.1 - s.searchStart < numBytes := by
      rw [HoleSearch.holeBefore, if_pos hlt] at hsmall
      simpa using hsmall
    have hskip : (s.holeBefore numBytes e.1).2.skip e.1 e.2 =
        ⟨e.1 + e.2, if s.maxHoleSize < e.1 - s.searchStart then s.searchStart else s.maxHoleStart,
          if s.maxHoleSize < e.1 - s.searchStart then e.1 - s.searchStart else s.maxHoleSize⟩ := by
      rw [HoleSearch.holeBefore, if_pos hlt, HoleSearch.record_eq, HoleSearch.skip]
      simp only [hend]
      rw [if_pos (by omega)]
    have hb := (h.best.add hh hlt (by omega)).mono (by omega : e.1 ≤ e.1 + e.2) hstored
    rw [hskip]
    refine ⟨by change origin ≤ e.1 + e.2; omega, hin, hsubset,
      h.visited_tail (by change _ ≤ e.1 + e.2; omega) le_rfl, hbefore, hb, ?_, ?_⟩
    · intro hz
      simp only at hz ⊢
      split at hz <;> simp_all
    · have hold := h.small
      simp only
      split <;> omega
  · -- the extent starts at or before `search_start`
    have hs : (s.holeBefore numBytes e.1).2 = s := by rw [HoleSearch.holeBefore, if_neg hlt]
    rw [hs, HoleSearch.skip]
    simp only [hend]
    split
    · rename_i hfurther
      exact ⟨horigin.trans hfurther.le, hin, hsubset, h.visited_tail hfurther.le le_rfl, hbefore,
        h.best.mono hfurther.le fun x hle hx => hstored x (by omega) hx, h.none, h.small⟩
    · rename_i hbehind
      exact ⟨h.origin_le, h.le_total, hsubset, h.visited_tail le_rfl (not_lt.mp hbehind), h.before,
        h.best, h.none, h.small⟩

theorem Scanning.enough (hextents : InOrder extents totalBytes)
    (hr : (e :: rest).Pairwise fun e f => e.1 + e.2 ≤ f.1)
    (hen : (s.holeBefore numBytes e.1).1 = true) :
    FirstFit (Free extents origin totalBytes) numBytes origin True
      (s.holeBefore numBytes e.1).2.maxHoleStart (s.holeBefore numBytes e.1).2.maxHoleSize := by
  rw [HoleSearch.holeBefore] at hen ⊢
  split at hen
  · rename_i hlt
    have hs : numBytes ≤ e.1 - s.searchStart := by simpa using hen
    have hsmall := h.small
    have hlarger : s.maxHoleSize < e.1 - s.searchStart := by omega
    rw [if_pos hlt, HoleSearch.record_eq]
    simp only [hlarger]
    exact h.best.firstFit_some hsmall (h.hole hextents hr hlt) hs trivial
  · cases hen

end

theorem Scanning.hole_at_end (h : Scanning extents origin totalBytes numBytes [] s)
    (hlt : s.searchStart < totalBytes) :
    Hole (Free extents origin totalBytes) s.searchStart (totalBytes - s.searchStart) := by
  have horigin := h.origin_le
  refine ⟨by omega, ?_, h.before, ?_⟩
  · intro x hle hx
    refine ⟨by omega, by omega, ?_⟩
    intro f hf
    rcases h.visited f hf with hf | hf
    · cases hf
    · omega
  · rintro ⟨-, hin, -⟩
    omega

theorem Scanning.finish (h : Scanning extents origin totalBytes numBytes [] s) :
    FirstFit (Free extents origin totalBytes) numBytes origin
      ((s.finish numBytes totalBytes).1 = 0) (s.finish numBytes totalBytes).2.maxHoleStart
      (s.finish numBytes totalBytes).2.maxHoleSize := by
  have hall : ∀ a n, Hole (Free extents origin totalBytes) a n → a < totalBytes :=
    fun a n ha => ha.first.2.1
  have hsmall := h.small
  have henospc : ¬ -ENOSPC = 0 := by decide
  rw [HoleSearch.finish]
  by_cases hlt : s.searchStart < totalBytes
  · have hh := h.hole_at_end hlt
    simp only [hlt, if_true, HoleSearch.record_eq]
    by_cases hs : numBytes ≤ totalBytes - s.searchStart
    · have hlarger : s.maxHoleSize < totalBytes - s.searchStart := by omega
      simp only [hlarger, if_true, not_lt.mpr hs, if_false]
      exact h.best.firstFit_some hsmall hh hs trivial
    · have hless : (if s.maxHoleSize < totalBytes - s.searchStart then totalBytes - s.searchStart
          else s.maxHoleSize) < numBytes := by
        split <;> omega
      have hb := h.best.add hh hlt (by omega)
      simp only [hless]
      refine hb.firstFit_none hless hall ?_ henospc
      intro hz
      split at hz
      · omega
      · rename_i hnot
        rw [if_neg hnot]
        exact h.none hz
  · have heq : s.searchStart = totalBytes := le_antisymm h.le_total (not_lt.mp hlt)
    simp only [hlt, if_false, hsmall]
    exact h.best.firstFit_none hsmall (heq ▸ hall) h.none henospc

theorem scanExtents_ret (numBytes searchEnd : ℕ) (extents : List (ℕ × ℕ)) (s : HoleSearch) :
    (scanExtents numBytes searchEnd extents s).1 = 0 ∨
      (scanExtents numBytes searchEnd extents s).1 = -ENOSPC := by
  induction extents generalizing s with
  | nil =>
    rw [scanExtents, HoleSearch.finish]
    split_ifs <;> simp
  | cons e rest ih =>
    rw [scanExtents]
    split
    · exact .inl rfl
    · exact ih _

theorem Scanning.firstFit (hextents : InOrder extents totalBytes) (htotal : totalBytes < 2 ^ 64)
    (hr : rest.Pairwise fun e f => e.1 + e.2 ≤ f.1)
    (h : Scanning extents origin totalBytes numBytes rest s) :
    FirstFit (Free extents origin totalBytes) numBytes origin
      ((scanExtents numBytes totalBytes rest s).1 = 0)
      (scanExtents numBytes totalBytes rest s).2.maxHoleStart
      (scanExtents numBytes totalBytes rest s).2.maxHoleSize := by
  induction rest generalizing s with
  | nil => exact h.finish
  | cons e rest ih =>
    rw [scanExtents]
    split
    · rename_i hen
      simpa using h.enough hextents hr hen
    · rename_i hsmall
      exact ih (List.pairwise_cons.mp hr).2
        (h.step hextents htotal hr (Bool.eq_false_of_not_eq_true hsmall))

end

/-! ## `find_free_dev_extent_start` is first fit -/

variable {totalBytes : ℕ} {skipped : List Item}

def Apart (e f : ℕ × ℕ) : Prop := ∀ x, ¬ ((e.1 ≤ x ∧ x < e.1 + e.2) ∧ f.1 ≤ x ∧ x < f.1 + f.2)

/-- The extents of a device are disjoint, and none ends behind the device. -/
structure OnDevice (extents : List (ℕ × ℕ)) (totalBytes : ℕ) : Prop where
  apart : extents.Pairwise Apart
  inside : ∀ e ∈ extents, e.1 + e.2 ≤ totalBytes

/-! ## The extents in the order of the tree -/

theorem devExtents_sorted {devid : ℕ} {items : List Item} (h : SortedItems items) :
    (devExtents devid items).Pairwise fun e f => e.1 < f.1 := by
  apply List.Pairwise.filterMap (devExtent? devid) ?_ h
  intro x y hxy e he f hf
  simp only [devExtent?, Option.ite_none_right_eq_some, Option.some.injEq] at he hf
  obtain ⟨⟨hobj, ht⟩, rfl⟩ := he
  obtain ⟨⟨hobj', ht'⟩, rfl⟩ := hf
  have hkey := (Key.lt_iff _ _).mp hxy
  omega

theorem OnDevice.inOrder {devid : ℕ} {items : List Item} (hsorted : SortedItems items)
    (h : OnDevice (devExtents devid items) totalBytes)
    (hne : ∀ e ∈ devExtents devid items, 0 < e.2) :
    InOrder (devExtents devid items) totalBytes := by
  refine ⟨?_, hne, h.inside⟩
  apply ((devExtents_sorted hsorted).and h.apart).imp_of_mem
  rintro e f - hf ⟨hlt, hapart⟩
  by_contra hinside
  have hpos := hne f hf
  exact hapart f.1 ⟨⟨hlt.le, by omega⟩, le_rfl, by omega⟩

/-! ## Where the scan starts -/

section

variable {nodesize : ℕ} {blocks : Blocks} {root : ℕ} {path : Path}
  {pre before after post items : List Item} {devid : ℕ}

theorem devExtents_append (xs ys : List Item) :
    devExtents devid (xs ++ ys) = devExtents devid xs ++ devExtents devid ys :=
  List.filterMap_append

theorem InOrder.ends_le {rest : List Item} {x : Item} {e : ℕ × ℕ}
    (h : InOrder (devExtents devid (skipped ++ x :: rest)) totalBytes)
    (hx : devExtent? devid x = some e) : ∀ f ∈ devExtents devid skipped, f.1 + f.2 ≤ e.1 := by
  intro f hf
  have horder := h.order
  rw [devExtents_append, List.pairwise_append] at horder
  exact horder.2.2 f hf e (List.mem_filterMap.mpr ⟨x, by simp, hx⟩)

theorem devExtents_eq_nil_of_before {x : Item} (hle : ∀ y ∈ skipped, y.key < x.key)
    (hx : x.key.objectid < devid ∨ x.key.objectid = devid ∧ x.key.type < BTRFS_DEV_EXTENT_KEY) :
    devExtents devid skipped = [] := by
  rw [devExtents, List.filterMap_eq_nil_iff]
  intro y hy
  have hkey := (Key.lt_iff _ _).mp (hle y hy)
  rw [devExtent?, if_neg (by omega)]

/-- Where the scan starts: nothing before it reaches beyond the offset that was searched for. -/
structure StartsAt (nodesize : ℕ) (blocks : Blocks) (root : ℕ) (path : Path) (items : List Item)
    (devid offset : ℕ) (after post : List Item) : Prop where
  position : ∃ pre before, Position nodesize blocks root path pre before after post ∧
    items = pre ++ before ++ (after ++ post)
  skipped : ∀ e ∈ devExtents devid items, e ∈ devExtents devid (after ++ post) ∨ e.1 + e.2 ≤ offset

section

variable (h : Position nodesize blocks root path pre before after post)
  (hitems : items = pre ++ before ++ (after ++ post))

include h hitems

theorem startsAt_of_skipped {offset : ℕ}
    (hen : ∀ f ∈ devExtents devid (pre ++ before), f.1 + f.2 ≤ offset) :
    StartsAt nodesize blocks root path items devid offset after post := by
  refine ⟨⟨pre, before, h, hitems⟩, ?_⟩
  intro e he
  rw [hitems, devExtents_append, List.mem_append] at he
  rcases he with he | he
  · exact .inr (hen e he)
  · exact .inl he

/-- A step back from the place of the key. The item before it ends the search of
`btrfs_previous_item` in any case. -/
theorem previousItem_startsAt (hsorted : SortedItems items)
    (horder : InOrder (devExtents devid items) totalBytes) {offset : ℕ}
    (hlow : ∀ x ∈ pre ++ before, x.key < ⟨devid, BTRFS_DEV_EXTENT_KEY, offset⟩) :
    ∃ ret path' after' post', 0 ≤ ret ∧ (∀ n,
      btrfsPreviousItem blocks devid BTRFS_DEV_EXTENT_KEY (n + 1) path = .ok (ret, path')) ∧ StartsAt nodesize blocks root path' items devid offset after' post' := by
  rcases List.eq_nil_or_concat' (pre ++ before) with hnil | ⟨skipped, x, hsplit⟩
  · refine ⟨1, path, after, post, by decide, h.previousItem_none _ _ hnil, ?_⟩
    apply startsAt_of_skipped h hitems
    rw [hnil]
    simp [devExtents]
  · obtain ⟨path', pre', before', after', post', hpos, happ, hbehind, hround⟩ :=
      h.previousItem_some devid BTRFS_DEV_EXTENT_KEY hsplit
    have hitems' : items = pre' ++ before' ++ (x :: after' ++ post') := by
      rw [hitems, hsplit, happ, List.cons_append, hbehind, List.append_assoc]
      rfl
    have hbefore : ∀ y ∈ pre' ++ before', y.key < x.key := by
      rw [hitems', SortedItems, List.pairwise_append] at hsorted
      exact fun y hy => hsorted.2.2 y hy x (by simp)
    have hkey := (Key.lt_iff _ _).mp (hlow x (by rw [hsplit]; simp))
    simp only at hkey
    by_cases ht : x.key.objectid = devid ∧ x.key.type = BTRFS_DEV_EXTENT_KEY
    · have hthis : devExtent? devid x = some (x.key.offset, btrfsDevExtentLength x) := by
        rw [devExtent?, if_pos ht]
      have he := InOrder.ends_le (hitems' ▸ horder) hthis
      refine ⟨0, path', x :: after', post', le_rfl, ?_, startsAt_of_skipped hpos hitems' ?_⟩
      · intro n
        rw [hround, if_neg (by omega), if_pos (by exact_mod_cast ht.2)]
      · intro f hf
        have hle := he f hf
        omega
    · have hs : x.key.objectid < devid ∨
          x.key.objectid = devid ∧ x.key.type < BTRFS_DEV_EXTENT_KEY := by omega
      refine ⟨1, path', x :: after', post', by decide, ?_, startsAt_of_skipped hpos hitems' ?_⟩
      · intro n
        rw [hround]
        split_ifs <;> first | rfl | omega
      · rw [devExtents_eq_nil_of_before hbefore hs]
        simp

end

theorem findFreeDevExtentStart_scan {allocStart searchStart : ℕ}
    (h : ValidTree nodesize blocks root items)
    (horder : InOrder (devExtents devid items) totalBytes)
    (hlt : searchFrom allocStart searchStart < totalBytes) (numBytes : ℕ) :
    ∃ path after post,
      StartsAt nodesize blocks root path items devid (searchFrom allocStart searchStart) after post ∧
      ∀ n > walkRounds after post, findFreeDevExtentStart nodesize blocks root devid totalBytes
          allocStart numBytes searchStart n =
        let s := searchFrom allocStart searchStart
        let result := scanExtents numBytes totalBytes (devExtents devid (after ++ post)) ⟨s, s, 0⟩
        .ok (result.1, result.2.maxHoleStart, result.2.maxHoleSize) := by
  obtain ⟨ret, path, l, hsearch, hl, habove, hfound⟩ := btrfsSearchSlot_spec h
    ⟨devid, BTRFS_DEV_EXTENT_KEY, searchFrom allocStart searchStart⟩
  obtain ⟨pre, before, after, post, hitems, hcur, hlow, hhigh, -, hret⟩ := hfound.cursor
  have hposition : Position nodesize blocks root path pre before after post := ⟨l, hl, habove, hcur⟩
  rw [List.append_assoc] at hitems
  have hlo : ∀ {path after post n}, StartsAt nodesize blocks root path items devid
      (searchFrom allocStart searchStart) after post → walkRounds after post ≤ n → ∀ s,
        findHoleLoop blocks devid numBytes totalBytes n path s =
          .ok (scanExtents numBytes totalBytes (devExtents devid (after ++ post)) s) := by
    intro path after post n hst hn s
    obtain ⟨pre, before, hpos, hsplit⟩ := hst.position
    have hsorted := h.sorted
    rw [hsplit, SortedItems, List.pairwise_append] at hsorted
    exact findHoleLoop_eq numBytes totalBytes hpos hsorted.2.1 hn s
  have hinside : ¬ totalBytes ≤ searchFrom allocStart searchStart := not_le.mpr hlt
  by_cases hex : firstKey after = some ⟨devid, BTRFS_DEV_EXTENT_KEY, searchFrom allocStart searchStart⟩
  · rw [if_pos hex] at hret
    subst hret
    have hst : StartsAt nodesize blocks root path items devid
        (searchFrom allocStart searchStart) after post := by
      apply startsAt_of_skipped hposition hitems
      cases after with
      | nil => cases hex
      | cons x rest =>
        have hkey : x.key = ⟨devid, BTRFS_DEV_EXTENT_KEY, searchFrom allocStart searchStart⟩ :=
          Option.some.inj hex
        have hthis : devExtent? devid x = some (x.key.offset, btrfsDevExtentLength x) := by
          rw [devExtent?, hkey, if_pos ⟨rfl, rfl⟩]
        intro f hf
        have hle := InOrder.ends_le (hitems ▸ horder) hthis f hf
        rwa [hkey] at hle
    refine ⟨path, after, post, hst, ?_⟩
    intro n hn
    simp only [findFreeDevExtentStart, hinside, if_false, hsearch, hlo hst hn.le]
    rfl
  · rw [if_neg hex] at hret
    subst hret
    obtain ⟨ret, path', after', post', hnonneg, hprevious, hst⟩ :=
      previousItem_startsAt hposition hitems h.sorted horder hlow
    refine ⟨path', after', post', hst, ?_⟩
    intro n hn
    obtain ⟨m, rfl⟩ : ∃ m, n = m + 1 := ⟨n - 1, by omega⟩
    simp only [findFreeDevExtentStart, hinside, hsearch, hprevious m,
      not_lt.mpr hnonneg, hlo hst hn.le, bind, Except.bind]
    rfl

theorem StartsAt.scanning {numBytes origin : ℕ}
    (h : StartsAt nodesize blocks root path items devid origin after post) (hnum : 0 < numBytes)
    (hlt : origin < totalBytes) :
    Scanning (devExtents devid items) origin totalBytes numBytes
      (devExtents devid (after ++ post)) ⟨origin, origin, 0⟩ := by
  obtain ⟨pre, before, -, hitems⟩ := h.position
  refine ⟨le_rfl, hlt.le, ?_, h.skipped, ?_, ?_, fun _ => rfl, hnum⟩
  · intro e he
    rw [hitems, devExtents_append]
    exact by simp [he]
  · rintro y hy ⟨hle, -⟩
    simp only at hy
    omega
  · refine ⟨fun hz => absurd hz (lt_irrefl 0), ?_, ?_⟩
    · intro a n ha hlow
      exact absurd ha.first.1 (not_le.mpr hlow)
    · intro a ha hlow
      exact absurd ha.first.1 (not_le.mpr hlow)

theorem findFreeDevExtentStart_spec {numBytes : ℕ} (h : ValidTree nodesize blocks root items)
    (htotal : totalBytes < 2 ^ 64) (horder : InOrder (devExtents devid items) totalBytes)
    (hnum : 0 < numBytes) (allocStart searchStart : ℕ) :
    ∃ ret start len, (ret = 0 ∨ ret = -ENOSPC) ∧
      FirstFit (Free (devExtents devid items) (searchFrom allocStart searchStart) totalBytes)
        numBytes (searchFrom allocStart searchStart) (ret = 0) start len ∧
      ∃ rounds, ∀ n ≥ rounds, findFreeDevExtentStart nodesize blocks root devid totalBytes
        allocStart numBytes searchStart n = .ok (ret, start, len) := by
  by_cases hlt : searchFrom allocStart searchStart < totalBytes
  · obtain ⟨path, after, post, hst, hf⟩ := findFreeDevExtentStart_scan h horder hlt numBytes
    obtain ⟨pre, before, -, hitems⟩ := hst.position
    have hr := horder.order
    rw [hitems, devExtents_append, List.pairwise_append] at hr
    refine ⟨_, _, _, scanExtents_ret _ _ _ _,
      (hst.scanning hnum hlt).firstFit horder htotal hr.2.1, walkRounds after post + 1, ?_⟩
    intro n hn
    exact hf n hn
  · -- the search starts behind the device
    have hno : ∀ x, ¬ Free (devExtents devid items) (searchFrom allocStart searchStart)
        totalBytes x := by
      rintro x ⟨hle, hx, -⟩
      omega
    have hb : Best (Free (devExtents devid items) (searchFrom allocStart searchStart)
        totalBytes) 0 (searchFrom allocStart searchStart) 0 :=
      ⟨fun hz => absurd hz (lt_irrefl 0), fun a n _ hlow => absurd hlow (Nat.not_lt_zero a),
        fun a _ hlow => absurd hlow (Nat.not_lt_zero a)⟩
    refine ⟨-ENOSPC, searchFrom allocStart searchStart, 0, .inr rfl,
      hb.firstFit_none hnum (fun a n ha => absurd ha.first (hno a)) (fun _ => rfl) (by decide),
      0, ?_⟩
    intro n _
    simp [findFreeDevExtentStart, not_lt.mp hlt]

end

/-- With extents that are not empty the search is exact first fit over the holes of the device:
the value 0 with the lowest hole that is large enough, or else `-ENOSPC` with the first of the
largest holes. What the tree holds for other devices does not matter. -/
theorem findFreeDevExtentStart_firstFit {nodesize : ℕ} {blocks : Blocks} {root : ℕ}
    {items : List Item} (h : ValidTree nodesize blocks root items) {devid totalBytes : ℕ}
    (htotal : totalBytes < 2 ^ 64) (hdevice : OnDevice (devExtents devid items) totalBytes)
    (hnonempty : ∀ e ∈ devExtents devid items, 0 < e.2) {numBytes : ℕ} (hnum : 0 < numBytes)
    (allocStart searchStart : ℕ) :
    ∃ ret start len, (ret = 0 ∨ ret = -ENOSPC) ∧
      FirstFit (Free (devExtents devid items) (searchFrom allocStart searchStart) totalBytes)
        numBytes (searchFrom allocStart searchStart) (ret = 0) start len ∧
      ∀ nodesize' blocks' root' items', ValidTree nodesize' blocks' root' items' →
        devExtents devid items' = devExtents devid items →
        ∃ rounds, ∀ n ≥ rounds, findFreeDevExtentStart nodesize' blocks' root' devid totalBytes
          allocStart numBytes searchStart n = .ok (ret, start, len) := by
  obtain ⟨ret, start, len, hret, hfit, -⟩ :=
    findFreeDevExtentStart_spec h htotal (hdevice.inOrder h.sorted hnonempty) hnum allocStart
      searchStart
  refine ⟨ret, start, len, hret, hfit, ?_⟩
  intro nodesize' blocks' root' items' h' heq
  rw [← heq] at hdevice hnonempty hfit
  obtain ⟨ret', start', len', hret', hfit', hrounds⟩ :=
    findFreeDevExtentStart_spec h' htotal (hdevice.inOrder h'.sorted hnonempty) hnum allocStart
      searchStart
  obtain ⟨hiff, rfl, rfl⟩ := hfit.unique hfit'
  have hs : ret = ret' := by rcases hret with rfl | rfl <;> rcases hret' with rfl | rfl <;> simp_all
  rw [hs]
  exact hrounds

/-! ## A device with one leaf -/

/-- A dev extent as it is stored, with the first fields and the UUID zero. -/
def devExtentItem (devid offset length : ℕ) : Item :=
  ⟨⟨devid, BTRFS_DEV_EXTENT_KEY, offset⟩, leBytes 24 0 ++ leBytes 8 length ++ leBytes 16 0⟩

def oneLeaf (items : List Item) : Blocks := fun bytenr =>
  if bytenr = 1 then some ⟨0, 0, items, []⟩ else none

theorem oneLeaf_valid {items : List Item} (hf : leafSpaceUsed items ≤ leafDataSize 4096)
    (hsorted : SortedItems items) : ValidTree 4096 (oneLeaf items) 1 items :=
  ⟨⟨0, by decide, _, rfl, rfl, rfl, hf⟩, hsorted⟩

/-- An extent from 2 MiB to 3 MiB, and one of another device. -/
def twoDevices : List Item := [devExtentItem 1 2097152 1048576, devExtentItem 2 1048576 3145728]

theorem findFreeDevExtentStart_twoDevices : ∃ ret start len, (ret = 0 ∨ ret = -ENOSPC) ∧
      FirstFit (Free (devExtents 1 twoDevices) (searchFrom 0 0) 4194304) 1048576 (searchFrom 0 0)
        (ret = 0) start len ∧
      ∀ nodesize' blocks' root' items', ValidTree nodesize' blocks' root' items' →
        devExtents 1 items' = devExtents 1 twoDevices →
        ∃ rounds, ∀ n ≥ rounds, findFreeDevExtentStart nodesize' blocks' root' 1 4194304 0 1048576 0 n =
          .ok (ret, start, len) := by
  have hval : ValidTree 4096 (oneLeaf twoDevices) 1 twoDevices := by
    apply oneLeaf_valid (by decide)
    simp [SortedItems, twoDevices, devExtentItem, Key.lt_iff]
  have hdev : OnDevice (devExtents 1 twoDevices) 4194304 := by
    exact ⟨List.pairwise_singleton _ _, by decide⟩
  exact findFreeDevExtentStart_firstFit hval (by decide) hdev (by decide) (by decide) 0 0

/-- An extent from 1 MiB to 3 MiB and an empty one inside of it. -/
def emptyExtent : List Item := [devExtentItem 1 1048576 2097152, devExtentItem 1 2097152 0]

/-- From 2.5 MiB on the scan starts at the empty extent, so that it takes allocated space. -/
theorem findFreeDevExtentStart_takes_allocated :
    ValidTree 4096 (oneLeaf emptyExtent) 1 emptyExtent ∧
      OnDevice (devExtents 1 emptyExtent) 4194304 ∧
      (∀ n, findFreeDevExtentStart 4096 (oneLeaf emptyExtent) 1 1 4194304 0 1048576 2621440 (n + 3) =
        .ok (0, 2621440, 1572864)) ∧
      ¬ FirstFit (Free (devExtents 1 emptyExtent) (searchFrom 0 2621440) 4194304) 1048576
        (searchFrom 0 2621440) ((0 : ℤ) = 0) 2621440 1572864 := by
  have hextents : devExtents 1 emptyExtent = [(1048576, 2097152), (2097152, 0)] := by decide
  refine ⟨?_, ?_, ?_, ?_⟩
  · apply oneLeaf_valid (by decide)
    simp [SortedItems, emptyExtent, devExtentItem, Key.lt_iff]
  · rw [hextents]
    refine ⟨?_, by decide⟩
    simp only [List.pairwise_cons, List.mem_singleton, forall_eq, List.not_mem_nil, false_imp_iff,
      implies_true, List.Pairwise.nil, and_true]
    intro x
    simp only
    omega
  · intro n
    rfl
  · intro hfit
    obtain ⟨hh, -⟩ := hfit.lowest rfl
    have hf := hh.first
    rw [hextents] at hf
    exact hf.2.2 (1048576, 2097152) (by simp) ⟨by decide, by decide⟩

end Btrfs.DevExtents
