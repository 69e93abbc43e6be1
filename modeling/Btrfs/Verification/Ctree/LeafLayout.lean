import Btrfs.Model.Ctree.LeafEdits
import Btrfs.Verification.Ctree.TreeBlock
import Btrfs.Verification.Shared.Slices

/-! # The byte layout of a leaf

Item headers grow upward from the block header and data grow downward from the end of the
block. `Stored` says where a run of items is, so that an edit is a statement about the runs
before, at and behind the edited slot. -/

namespace Btrfs.Ctree

variable {start len i' n top top' : ℕ}

def dataSize (items : List Item) : ℕ := (items.map fun item => item.data.length).sum

@[simp] theorem dataSize_nil : dataSize [] = 0 := rfl

@[simp] theorem dataSize_cons (item : Item) (items : List Item) :
    dataSize (item :: items) = item.data.length + dataSize items := rfl

@[simp] theorem dataSize_append (xs ys : List Item) :
    dataSize (xs ++ ys) = dataSize xs + dataSize ys := by
  rw [dataSize, List.map_append, List.sum_append]
  rfl

theorem leafSpaceUsed_eq (items : List Item) :
    leafSpaceUsed items = items.length * itemSize + dataSize items := by
  induction items with
  | nil => rfl
  | cons item items ih =>
    have hc : leafSpaceUsed (item :: items) =
        itemSize + item.data.length + leafSpaceUsed items := rfl
    rw [dataSize_cons, List.length_cons, Nat.add_mul]
    omega

namespace TreeBlock

variable {nodesize : ℕ} {leaf leaf' leaf'' : TreeBlock}

/-! ## Reads after writes -/

theorem length_write {bytes : List (BitVec 8)} {offset : ℕ}
    (h : offset + bytes.length ≤ leaf.data.length) :
    (leaf.write bytes offset).data.length = leaf.data.length := length_memcpy h

theorem length_read (h : start + len ≤ leaf.data.length) :
    (leaf.read start len).length = len := length_slice h

theorem read_write_inside {bytes : List (BitVec 8)} {offset k len : ℕ}
    (h : offset + bytes.length ≤ leaf.data.length) (hinside : k + len ≤ bytes.length) :
    (leaf.write bytes offset).read (offset + k) len = (bytes.drop k).take len :=
  slice_memcpy_inside h hinside

theorem read_write_self {bytes : List (BitVec 8)} {offset : ℕ}
    (h : offset + bytes.length ≤ leaf.data.length) :
    (leaf.write bytes offset).read offset bytes.length = bytes := by
  have hr := @read_write_inside leaf bytes offset 0 bytes.length h (by omega)
  rwa [List.drop_zero, List.take_length] at hr

theorem get_write_self {offset len v : ℕ} (h : offset + len ≤ leaf.data.length)
    (hv : v < 256 ^ len) : (leaf.write (leBytes len v) offset).get offset len = v := by
  have hr := @read_write_self leaf (leBytes len v) offset (by rwa [length_leBytes])
  rw [length_leBytes] at hr
  calc (leaf.write (leBytes len v) offset).get offset len
      = leNat ((leaf.write (leBytes len v) offset).read offset len) := rfl
    _ = v := by rw [hr, leNat_leBytes hv]

theorem read_memmove_inside {dst src len k n : ℕ} (hsrc : src + len ≤ leaf.data.length)
    (hdst : dst + len ≤ leaf.data.length) (hinside : k + n ≤ len) :
    (leaf.memmove dst src len).read (dst + k) n = leaf.read (src + k) n := by
  have hlen := length_read hsrc
  rw [memmove, read_write_inside (by rwa [hlen]) (by rwa [hlen])]
  exact slice_slice _ _ _ hinside

theorem read_sub {start start' len : ℕ} (h : leaf'.read start' len = leaf.read start len)
    {k n : ℕ} (hk : k + n ≤ len) : leaf'.read (start' + k) n = leaf.read (start + k) n := by
  have hslice := congrArg (fun bytes => (bytes.drop k).take n) h
  rwa [read, read, slice_slice _ _ _ hk, slice_slice _ _ _ hk] at hslice

theorem get_eq_of_read {start' : ℕ} (h : leaf'.read start' len = leaf.read start len) :
    leaf'.get start' len = leaf.get start len := congrArg leNat h

/-- Two blocks differ from `lo` up to `hi` at most. -/
structure ChangedWithin (leaf leaf' : TreeBlock) (lo hi : ℕ) : Prop where
  length_data : leaf'.data.length = leaf.data.length
  read_eq : ∀ start len, start + len ≤ lo ∨ hi ≤ start → leaf'.read start len = leaf.read start len

theorem ChangedWithin.refl (leaf : TreeBlock) (lo hi : ℕ) : ChangedWithin leaf leaf lo hi :=
  ⟨rfl, fun _ _ _ => rfl⟩

theorem ChangedWithin.mono {lo lo' hi hi' : ℕ} (h : ChangedWithin leaf leaf' lo hi)
    (hlo : lo' ≤ lo) (hhi : hi ≤ hi') : ChangedWithin leaf leaf' lo' hi' :=
  ⟨h.length_data, fun start len hout => h.read_eq start len (by omega)⟩

theorem ChangedWithin.trans {lo hi : ℕ} (h : ChangedWithin leaf leaf' lo hi)
    (h' : ChangedWithin leaf' leaf'' lo hi) : ChangedWithin leaf leaf'' lo hi where
  length_data := h'.length_data.trans h.length_data
  read_eq := fun start len hout => (h'.read_eq start len hout).trans (h.read_eq start len hout)

theorem changedWithin_write {bytes : List (BitVec 8)} {offset : ℕ}
    (h : offset + bytes.length ≤ leaf.data.length) :
    ChangedWithin leaf (leaf.write bytes offset) offset (offset + bytes.length) :=
  ⟨length_write h, fun _ _ hout => slice_memcpy_of_disjoint h hout⟩

theorem changedWithin_memmove {dst src : ℕ} (hsrc : src + len ≤ leaf.data.length)
    (hdst : dst + len ≤ leaf.data.length) :
    ChangedWithin leaf (leaf.memmove dst src len) dst (dst + len) := by
  have hlen := length_read hsrc
  have hwrite := @changedWithin_write leaf (leaf.read src len) dst (by rwa [hlen])
  rwa [hlen] at hwrite

/-! ## Item headers -/

/-- The headers of `n` items from slot `i` on are those from slot `i'` on of another leaf, up
to a common shift of their offsets. -/
def HeadersMoved (leaf leaf' : TreeBlock) (i i' n top top' : ℕ) : Prop :=
  ∀ j < n, leaf'.itemKey (i' + j) = leaf.itemKey (i + j) ∧
    leaf'.itemSizeNr (i' + j) = leaf.itemSizeNr (i + j) ∧
    leaf'.itemOffset (i' + j) + top = leaf.itemOffset (i + j) + top'

theorem HeadersMoved.trans {i i'' top'' : ℕ} (h : HeadersMoved leaf leaf' i i' n top top')
    (h' : HeadersMoved leaf' leaf'' i' i'' n top' top'') :
    HeadersMoved leaf leaf'' i i'' n top top'' := by
  intro j hj
  obtain ⟨hkey, hs, hoff⟩ := h j hj
  obtain ⟨hkey', hs', hoff'⟩ := h' j hj
  exact ⟨hkey'.trans hkey, hs'.trans hs, by omega⟩

theorem headersMoved_of_read {i : ℕ} (top : ℕ)
    (h : leaf'.read (itemNrOffset i') (n * itemSize) = leaf.read (itemNrOffset i) (n * itemSize)) :
    HeadersMoved leaf leaf' i i' n top top := by
  intro j hj
  have hmul : j * itemSize + itemSize ≤ n * itemSize := by
    rw [← Nat.succ_mul]
    exact Nat.mul_le_mul_right itemSize hj
  have hat : ∀ slot, headerSize + (slot + j) * itemSize = itemNrOffset slot + j * itemSize := by
    intro slot
    rw [itemNrOffset, Nat.add_mul, Nat.add_assoc]
  have hfield : ∀ k len, k + len ≤ itemSize → leaf'.get (headerSize + (i' + j) * itemSize + k) len =
        leaf.get (headerSize + (i + j) * itemSize + k) len := by
    intro k len hk
    apply get_eq_of_read
    rw [hat, hat, Nat.add_assoc, Nat.add_assoc]
    exact read_sub h (by omega)
  refine ⟨?_, hfield 21 4 (by decide), ?_⟩
  · rw [itemKey, itemKey, diskKey, diskKey, hfield 8 1 (by decide), hfield 9 8 (by decide)]
    rw [show leaf'.get (headerSize + (i' + j) * itemSize) 8 =
      leaf.get (headerSize + (i + j) * itemSize) 8 from hfield 0 8 (by decide)]
  · exact congrArg (· + top) (hfield 17 4 (by decide))

theorem headersMoved_succ {i : ℕ} : HeadersMoved leaf leaf' i i' (n + 1) top top' ↔
      (leaf'.itemKey i' = leaf.itemKey i ∧ leaf'.itemSizeNr i' = leaf.itemSizeNr i ∧
        leaf'.itemOffset i' + top = leaf.itemOffset i + top') ∧
      HeadersMoved leaf leaf' (i + 1) (i' + 1) n top top' := by
  have hshift : ∀ k j, k + 1 + j = k + (j + 1) := by omega
  refine ⟨fun h => ⟨h 0 (Nat.succ_pos n), fun j hj => ?_⟩, fun h j hj => ?_⟩
  · rw [hshift, hshift]
    exact h (j + 1) (Nat.succ_lt_succ hj)
  · cases j with
    | zero => exact h.1
    | succ j =>
      rw [← hshift i, ← hshift i']
      exact h.2 j (Nat.lt_of_succ_lt_succ hj)

theorem ChangedWithin.headersMoved {lo hi i n : ℕ} (h : ChangedWithin leaf leaf' lo hi) (top : ℕ)
    (hout : itemNrOffset (i + n) ≤ lo ∨ hi ≤ itemNrOffset i) :
    HeadersMoved leaf leaf' i i n top top := by
  apply headersMoved_of_read
  apply h.read_eq
  have hend : itemNrOffset (i + n) = itemNrOffset i + n * itemSize := by
    rw [itemNrOffset, itemNrOffset, Nat.add_mul, Nat.add_assoc]
  omega

section

variable {lo hi i : ℕ} (h : ChangedWithin leaf leaf' lo hi)
include h

theorem ChangedWithin.get_eq (hout : start + len ≤ lo ∨ hi ≤ start) :
    leaf'.get start len = leaf.get start len := get_eq_of_read (h.read_eq start len hout)

theorem ChangedWithin.itemKey_eq (hout : itemNrOffset i + 17 ≤ lo ∨ hi ≤ itemNrOffset i) :
    leaf'.itemKey i = leaf.itemKey i := by
  rw [itemNrOffset] at hout
  rw [itemKey, itemKey, diskKey, diskKey, h.get_eq (by omega), h.get_eq (by omega),
    h.get_eq (by omega)]

theorem ChangedWithin.itemOffset_eq (hout : itemNrOffset i + 21 ≤ lo ∨ hi ≤ itemNrOffset i + 17) :
    leaf'.itemOffset i = leaf.itemOffset i := h.get_eq (by rw [itemNrOffset] at hout; omega)

theorem ChangedWithin.itemSizeNr_eq (hout : itemNrOffset i + 25 ≤ lo ∨ hi ≤ itemNrOffset i + 21) :
    leaf'.itemSizeNr i = leaf.itemSizeNr i := h.get_eq (by rw [itemNrOffset] at hout; omega)

end

/-! ## Runs of items -/

def itemAt (leaf : TreeBlock) (i : ℕ) : Item :=
  ⟨leaf.itemKey i, leaf.read (leaf.itemPtrOffset i) (leaf.itemSizeNr i)⟩

/-- The leaf has `items` from slot `i` on, with their data back to back below `top`. -/
def Stored (leaf : TreeBlock) : ℕ → ℕ → List Item → Prop
  | _, _, [] => True
  | i, top, item :: items =>
    leaf.itemAt i = item ∧ leaf.itemSizeNr i = item.data.length ∧
      leaf.itemOffset i + item.data.length = top ∧ Stored leaf (i + 1) (leaf.itemOffset i) items

theorem Stored.dataSize_le {i : ℕ} {items : List Item} (h : leaf.Stored i top items) :
    dataSize items ≤ top := by
  induction items generalizing i top with
  | nil => exact Nat.zero_le _
  | cons item items ih =>
    have ht := ih h.2.2.2
    have htop := h.2.2.1
    rw [dataSize_cons]
    omega

theorem stored_append {i : ℕ} {xs ys : List Item} : leaf.Stored i top (xs ++ ys) ↔
      leaf.Stored i top xs ∧ leaf.Stored (i + xs.length) (top - dataSize xs) ys := by
  induction xs generalizing i top with
  | nil => simp [Stored]
  | cons item xs ih =>
    rw [List.cons_append, Stored, Stored, ih, dataSize_cons, List.length_cons, and_assoc,
      and_assoc, and_assoc]
    refine and_congr_right fun _ => and_congr_right fun _ => and_congr_right fun htop => ?_
    rw [show top - (item.data.length + dataSize xs) = leaf.itemOffset i - dataSize xs by omega,
      show i + (xs.length + 1) = i + 1 + xs.length by omega]

theorem Stored.itemOffset_last {i : ℕ} {items : List Item} (h : leaf.Stored i top items)
    (hne : items ≠ []) :
    leaf.itemOffset (i + items.length - 1) = top - dataSize items := by
  induction items generalizing i top with
  | nil => exact absurd rfl hne
  | cons item items ih =>
    obtain ⟨-, -, htop, ht⟩ := h
    rcases List.eq_nil_or_concat items with rfl | ⟨_, _, hconcat⟩
    · simp only [dataSize_cons, dataSize_nil, List.length_singleton, Nat.add_sub_cancel]
      omega
    · have hl := ih ht (by simp [hconcat])
      rw [List.length_cons, dataSize_cons, show i + (items.length + 1) - 1 =
        i + 1 + items.length - 1 by omega]
      omega

theorem Stored.itemOffset_mem {i : ℕ} {items : List Item} (h : leaf.Stored i top items) {j : ℕ}
    (hj : j < items.length) :
    top - dataSize items ≤ leaf.itemOffset (i + j) ∧ leaf.itemOffset (i + j) ≤ top := by
  induction items generalizing i top j with
  | nil => exact absurd hj (Nat.not_lt_zero j)
  | cons item items ih =>
    obtain ⟨-, -, htop, ht⟩ := h
    rw [dataSize_cons]
    cases j with
    | zero =>
      rw [Nat.add_zero]
      omega
    | succ j =>
      have hmem := ih ht (Nat.lt_of_succ_lt_succ hj)
      rw [show i + (j + 1) = i + 1 + j by omega]
      omega

theorem Stored.itemEnd_first {i : ℕ} {items : List Item} (h : leaf.Stored i top items)
    (hne : items ≠ []) (htop : top < 2 ^ 32) : leaf.itemEnd i = top := by
  cases items with
  | nil => exact absurd rfl hne
  | cons item items =>
    rw [itemEnd, h.2.1, h.2.2.1]
    exact Nat.mod_eq_of_lt htop

theorem Stored.map_itemAt {i : ℕ} {items : List Item} (h : leaf.Stored i top items) :
    (List.range' i items.length).map leaf.itemAt = items := by
  induction items generalizing i top with
  | nil => rfl
  | cons item items ih => rw [List.length_cons, List.range'_succ, List.map_cons, ih h.2.2.2, h.1]

/-- Items whose headers and data have been moved are stored at the new place. -/
theorem Stored.moved {i : ℕ} {items : List Item} (h : leaf.Stored i top items)
    (htop : dataSize items ≤ top') (hheaders : HeadersMoved leaf leaf' i i' items.length top top')
    (hd : leaf'.read (headerSize + (top' - dataSize items)) (dataSize items) =
      leaf.read (headerSize + (top - dataSize items)) (dataSize items)) :
    leaf'.Stored i' top' items := by
  induction items generalizing i i' top top' with
  | nil => trivial
  | cons item items ih =>
    obtain ⟨hit, hs, hend, ht⟩ := h
    obtain ⟨⟨hkey', hs', hoff'⟩, hheaders⟩ := headersMoved_succ.mp hheaders
    rw [dataSize_cons] at htop hd
    have hle := ht.dataSize_le
    have hoff : leaf'.itemOffset i' + item.data.length = top' := by omega
    -- the data of the head lie above those of the tail
    have hh : leaf'.read (leaf'.itemPtrOffset i') item.data.length =
        leaf.read (leaf.itemPtrOffset i) item.data.length := by
      have hsub := @read_sub _ _ _ _ _ hd (dataSize items) item.data.length (by omega)
      rwa [show headerSize + (top' - (item.data.length + dataSize items)) + dataSize items =
        headerSize + leaf'.itemOffset i' by omega,
        show headerSize + (top - (item.data.length + dataSize items)) + dataSize items =
        headerSize + leaf.itemOffset i by omega] at hsub
    refine ⟨?_, hs'.trans hs, hoff, ih ht (by omega) ?_ ?_⟩
    · rw [← hit, itemAt, itemAt, hkey', hs', hs, hh]
    · intro j hj
      have hn := hheaders j hj
      exact ⟨hn.1, hn.2.1, by omega⟩
    · have hsub := @read_sub _ _ _ _ _ hd 0 (dataSize items) (by omega)
      rwa [show top' - (item.data.length + dataSize items) = leaf'.itemOffset i' - dataSize items by
          omega,
        show top - (item.data.length + dataSize items) = leaf.itemOffset i - dataSize items by
          omega] at hsub

theorem Stored.frame {i lo hi : ℕ} {items : List Item} (h : leaf.Stored i top items)
    (hchanged : ChangedWithin leaf leaf' lo hi)
    (hheaders : itemNrOffset (i + items.length) ≤ lo ∨ hi ≤ itemNrOffset i)
    (hd : headerSize + top ≤ lo ∨ hi ≤ headerSize + (top - dataSize items)) :
    leaf'.Stored i top items := by
  have hle := h.dataSize_le
  apply h.moved hle (hchanged.headersMoved top hheaders)
  apply hchanged.read_eq
  omega

/-! ## Whole leaves -/

def view (leaf : TreeBlock) : List Item := (List.range leaf.nritems).map leaf.itemAt

/-- The layout of a leaf: item 0 ends at the end of the block, each further item ends where the
one before it starts, and the headers stay below the data. -/
structure Layout (nodesize : ℕ) (leaf : TreeBlock) : Prop where
  length_data : leaf.data.length = nodesize
  headerSize_le : headerSize ≤ nodesize
  first : leaf.nritems ≠ 0 → leaf.itemOffset 0 + leaf.itemSizeNr 0 = leafDataSize nodesize
  tiled : ∀ i, i + 1 < leaf.nritems →
    leaf.itemOffset (i + 1) + leaf.itemSizeNr (i + 1) = leaf.itemOffset i
  room : leaf.nritems * itemSize ≤ leaf.leafDataEnd nodesize

structure Represents (nodesize : ℕ) (leaf : TreeBlock) (items : List Item) : Prop where
  length_data : leaf.data.length = nodesize
  headerSize_le : headerSize ≤ nodesize
  nritems_eq : leaf.nritems = items.length
  stored : leaf.Stored 0 (leafDataSize nodesize) items
  room : Ctree.leafSpaceUsed items ≤ leafDataSize nodesize

theorem Stored.tiled {i : ℕ} {items : List Item} (h : leaf.Stored i top items) {j : ℕ}
    (hj : j + 1 < items.length) :
    leaf.itemOffset (i + j + 1) + leaf.itemSizeNr (i + j + 1) = leaf.itemOffset (i + j) := by
  induction items generalizing i top j with
  | nil => simp at hj
  | cons item items ih =>
    have ht := h.2.2.2
    cases j with
    | zero =>
      cases items with
      | nil => simp at hj
      | cons next items =>
        rw [ht.2.1]
        exact ht.2.2.1
    | succ j =>
      rw [show i + (j + 1) = i + 1 + j by omega]
      exact ih ht (Nat.lt_of_succ_lt_succ hj)

namespace Represents

variable {items : List Item}

section

variable (h : Represents nodesize leaf items)

include h

theorem headerSize_add : headerSize + leafDataSize nodesize = leaf.data.length := by
  rw [h.length_data, leafDataSize, Nat.add_sub_cancel' h.headerSize_le]

theorem view_eq : leaf.view = items := by
  rw [view, h.nritems_eq, List.range_eq_range']
  exact h.stored.map_itemAt

theorem leafDataEnd_eq : leaf.leafDataEnd nodesize = leafDataSize nodesize - dataSize items := by
  rw [leafDataEnd, h.nritems_eq]
  by_cases hnil : items = []
  · rw [hnil]
    rfl
  · simp [← h.stored.itemOffset_last hnil, if_neg (by simpa using hnil)]

theorem layout : Layout nodesize leaf where
  length_data := h.length_data
  headerSize_le := h.headerSize_le
  first := by
    intro hne
    rw [h.nritems_eq] at hne
    cases items with
    | nil => exact absurd rfl hne
    | cons item items => rw [h.stored.2.1, h.stored.2.2.1]
  tiled := by
    intro i hi
    rw [h.nritems_eq] at hi
    have htiled := h.stored.tiled hi
    rwa [Nat.zero_add] at htiled
  room := by
    have hr := h.room
    rw [leafSpaceUsed_eq] at hr
    rw [h.leafDataEnd_eq, h.nritems_eq]
    omega

end

end Represents

theorem stored_map_itemAt {i : ℕ}
    (hlength : ∀ j, i ≤ j → j < i + n → (leaf.itemAt j).data.length = leaf.itemSizeNr j)
    (hfirst : n ≠ 0 → leaf.itemOffset i + leaf.itemSizeNr i = top)
    (htiled : ∀ j, i ≤ j → j + 1 < i + n →
      leaf.itemOffset (j + 1) + leaf.itemSizeNr (j + 1) = leaf.itemOffset j) :
    leaf.Stored i top ((List.range' i n).map leaf.itemAt) := by
  induction n generalizing i top with
  | zero => trivial
  | succ n ih =>
    have hlen := hlength i (Nat.le_refl _) (by omega)
    refine ⟨rfl, hlen.symm, ?_, ih ?_ ?_ ?_⟩
    · rw [hlen]
      exact hfirst (Nat.succ_ne_zero n)
    · exact fun j hlo hhi => hlength j (by omega) (by omega)
    · exact fun hn => htiled i (Nat.le_refl _) (by omega)
    · exact fun j hlo hhi => htiled j (by omega) (by omega)

namespace Layout

theorem end_le (h : Layout nodesize leaf) {i : ℕ} (hi : i < leaf.nritems) :
    leaf.itemOffset i + leaf.itemSizeNr i ≤ leafDataSize nodesize := by
  induction i with
  | zero => exact (h.first (by omega)).le
  | succ i ih =>
    rw [h.tiled i hi]
    omega

theorem represents (h : Layout nodesize leaf) : Represents nodesize leaf leaf.view := by
  have hlen : ∀ i < leaf.nritems, (leaf.itemAt i).data.length = leaf.itemSizeNr i := by
    intro i hi
    apply length_read
    have hend := h.end_le hi
    have hheader := h.headerSize_le
    rw [h.length_data, itemPtrOffset]
    rw [leafDataSize] at hend
    omega
  have hview : leaf.view = (List.range' 0 leaf.nritems).map leaf.itemAt := by
    rw [view, List.range_eq_range']
  have hnr : leaf.nritems = leaf.view.length := by simp [view]
  have hstored : leaf.Stored 0 (leafDataSize nodesize) leaf.view := by
    rw [hview]
    apply stored_map_itemAt
    · exact fun j _ hj => hlen j (by omega)
    · exact h.first
    · exact fun j _ hj => h.tiled j (by omega)
  refine ⟨h.length_data, h.headerSize_le, hnr, hstored, ?_⟩
  have hr := h.room
  have hle := hstored.dataSize_le
  have hend : leaf.leafDataEnd nodesize = leafDataSize nodesize - dataSize leaf.view := by
    rw [leafDataEnd]
    by_cases hnil : leaf.view = []
    · rw [hnr, hnil]
      rfl
    · rw [if_neg (by rwa [hnr, List.length_eq_zero_iff]), ← hstored.itemOffset_last hnil,
        Nat.zero_add, ← hnr]
  rw [leafSpaceUsed_eq, ← hnr]
  omega

end Layout

namespace Represents

variable {items : List Item}

theorem btrfsLeafFreeSpace_eq (h : Represents nodesize leaf items) (hs : nodesize < 2 ^ 31) :
    leaf.btrfsLeafFreeSpace nodesize = leafDataSize nodesize - Ctree.leafSpaceUsed items := by
  have hr := h.room
  have hle : leafDataSize nodesize ≤ nodesize := Nat.sub_le _ _
  have hu : leaf.leafSpaceUsed 0 leaf.nritems = Ctree.leafSpaceUsed items := by
    rw [leafSpaceUsed_eq] at hr ⊢
    rw [TreeBlock.leafSpaceUsed, h.nritems_eq]
    cases items with
    | nil => rfl
    | cons item items =>
      have hl := h.stored.itemOffset_last (by simp)
      have htop := h.stored.itemEnd_first (by simp) (by omega)
      have hd := h.stored.dataSize_le
      have hfirst : toInt32 (leafDataSize nodesize) = leafDataSize nodesize :=
        toInt32_of_range (by omega) (by omega)
      have hdataLen : toInt32 (leafDataSize nodesize -
          (leafDataSize nodesize - dataSize (item :: items) : ℕ)) = dataSize (item :: items) := by
        rw [toInt32_of_range (by omega) (by omega)]
        omega
      have hheaders : (itemSize : ℤ) * (item :: items).length =
          ((item :: items).length * itemSize : ℕ) := by
        rw [Int.mul_comm]
        rfl
      simp only [Nat.zero_add, Nat.min_self] at hl ⊢
      rw [if_neg (by simp), htop, hfirst, hl, toInt32_of_range (by omega) (by omega)]
      omega
  rw [TreeBlock.btrfsLeafFreeSpace, hu]
  exact toInt32_of_range (by omega) (by omega)

theorem bugOn_free (h : Represents nodesize leaf items) (hs : nodesize < 2 ^ 31) :
    bugOn (decide (leaf.btrfsLeafFreeSpace nodesize < 0)) = .ok () := by
  have hr := h.room
  rw [h.btrfsLeafFreeSpace_eq hs, decide_eq_false (by omega)]
  rfl

end Represents

end TreeBlock

/-! ## Setters of a leaf and the loops over them -/

theorem u32OfInt_of_range {n : ℤ} (hlo : 0 ≤ n) (hhi : n < 2 ^ 32) : (u32OfInt n : ℤ) = n := by
  rw [u32OfInt, Int.emod_eq_of_lt hlo hhi, Int.toNat_of_nonneg hlo]

theorem u64OfInt_natCast {n : ℕ} (h : n < 2 ^ 64) : u64OfInt n = n := by
  rw [u64OfInt, Int.emod_eq_of_lt (by omega) (by omega), Int.toNat_natCast]

theorem sub32_of_le {a b : ℕ} (h : b ≤ a) (ha : a < 2 ^ 32) : sub32 a b = a - b := by
  have hcast : (sub32 a b : ℤ) = a - b := u32OfInt_of_range (by omega) (by omega)
  omega

/-- The key is one of a `struct btrfs_key`: its fields fit in `u64`, `u8` and `u64`. -/
structure Key.InRange (key : Key) : Prop where
  objectid_lt : key.objectid < 2 ^ 64
  type_lt : key.type < 2 ^ 8
  offset_lt : key.offset < 2 ^ 64

namespace TreeBlock

variable {nodesize : ℕ} {leaf leaf' : TreeBlock}

/-! ## Setters -/

theorem changedWithin_setNritems (nritems : ℕ) (h : headerSize ≤ leaf.data.length) :
    ChangedWithin leaf (leaf.setNritems nritems) 96 100 :=
  changedWithin_write (by exact (by decide : 100 ≤ headerSize).trans h)

theorem nritems_setNritems {nritems : ℕ} (h : headerSize ≤ leaf.data.length)
    (hlt : nritems < 2 ^ 32) : (leaf.setNritems nritems).nritems = nritems :=
  get_write_self ((by decide : 96 + 4 ≤ headerSize).trans h) hlt

section

variable {i : ℕ} (h : itemNrOffset (i + 1) ≤ leaf.data.length)
include h

theorem itemNrOffset_add_le : itemNrOffset i + 25 ≤ leaf.data.length := by
  rw [itemNrOffset, Nat.add_mul] at h
  exact h

theorem changedWithin_setItemKey (key : Key) :
    ChangedWithin leaf (leaf.setItemKey i key) (itemNrOffset i) (itemNrOffset i + 17) := by
  have hin := itemNrOffset_add_le h
  have hlen : (Volumes.keyBytes key).length = 17 := rfl
  have hwrite := @changedWithin_write leaf (Volumes.keyBytes key) (itemNrOffset i) (by omega)
  rwa [hlen] at hwrite

theorem itemKey_setItemKey {key : Key} (hkey : key.InRange) :
    (leaf.setItemKey i key).itemKey i = key := by
  have hin := itemNrOffset_add_le h
  have hlen : (Volumes.keyBytes key).length = 17 := rfl
  -- each field is a slice of the key that was written
  have hfield : ∀ k len, k + len ≤ 17 → (leaf.setItemKey i key).get (itemNrOffset i + k) len =
        leNat (((Volumes.keyBytes key).drop k).take len) := by
    intro k len hk
    exact congrArg leNat (read_write_inside (by omega) (by omega))
  have hoid := hfield 0 8 (by decide)
  have ht := hfield 8 1 (by decide)
  have hoff := hfield 9 8 (by decide)
  rw [show ((Volumes.keyBytes key).drop 0).take 8 = leBytes 8 key.objectid from rfl,
    leNat_leBytes hkey.objectid_lt] at hoid
  rw [show ((Volumes.keyBytes key).drop 8).take 1 = leBytes 1 key.type from rfl,
    leNat_leBytes hkey.type_lt] at ht
  rw [show ((Volumes.keyBytes key).drop 9).take 8 = leBytes 8 key.offset from rfl,
    leNat_leBytes hkey.offset_lt] at hoff
  calc (leaf.setItemKey i key).itemKey i
      = ⟨(leaf.setItemKey i key).get (itemNrOffset i + 0) 8,
          (leaf.setItemKey i key).get (itemNrOffset i + 8) 1,
          (leaf.setItemKey i key).get (itemNrOffset i + 9) 8⟩ := rfl
    _ = key := by rw [hoid, ht, hoff]

theorem changedWithin_setItemOffset (offset : ℕ) :
    ChangedWithin leaf (leaf.setItemOffset i offset) (itemNrOffset i + 17) (itemNrOffset i + 21) :=
  changedWithin_write (by
    have hin := itemNrOffset_add_le h
    rw [length_leBytes]
    omega)

theorem itemOffset_setItemOffset {offset : ℕ} (hlt : offset < 2 ^ 32) :
    (leaf.setItemOffset i offset).itemOffset i = offset := by
  have hin := itemNrOffset_add_le h
  exact @get_write_self leaf (itemNrOffset i + 17) 4 offset (by omega) hlt

theorem changedWithin_setItemSize (size : ℕ) :
    ChangedWithin leaf (leaf.setItemSize i size) (itemNrOffset i + 21) (itemNrOffset i + 25) :=
  changedWithin_write (by
    have hin := itemNrOffset_add_le h
    rw [length_leBytes]
    omega)

theorem itemSizeNr_setItemSize {size : ℕ} (hlt : size < 2 ^ 32) :
    (leaf.setItemSize i size).itemSizeNr i = size := by
  have hin := itemNrOffset_add_le h
  exact @get_write_self leaf (itemNrOffset i + 21) 4 size (by omega) hlt

end

/-! ## The loops -/

theorem itemNrOffset_succ (i : ℕ) : itemNrOffset (i + 1) = itemNrOffset i + 25 := by
  rw [itemNrOffset, Nat.add_mul]
  rfl

theorem itemNrOffset_add (i n : ℕ) : itemNrOffset (i + n) = itemNrOffset i + n * 25 := by
  rw [itemNrOffset, itemNrOffset, Nat.add_mul, Nat.add_assoc]
  rfl

theorem changedWithin_correctOffsets (f : ℕ → ℕ) {n i : ℕ}
    (h : itemNrOffset (i + n) ≤ leaf.data.length) :
    ChangedWithin leaf (correctOffsets f n i leaf) (itemNrOffset i) (itemNrOffset (i + n)) := by
  induction n generalizing i leaf with
  | zero => exact .refl _ _ _
  | succ n ih =>
    rw [itemNrOffset_add] at h ⊢
    have hset := @changedWithin_setItemOffset leaf i (by rw [itemNrOffset_succ]; omega)
      (f (leaf.itemOffset i))
    have hr := @ih (leaf.setItemOffset i (f (leaf.itemOffset i))) (i + 1)
      (by rw [hset.length_data, itemNrOffset_add, itemNrOffset_succ]; omega)
    rw [itemNrOffset_add (i + 1), itemNrOffset_succ] at hr
    exact (hset.mono (by omega) (by omega)).trans (hr.mono (by omega) (by omega))

theorem headersMoved_correctOffsets {f : ℕ → ℕ} {n i top top' : ℕ}
    (h : itemNrOffset (i + n) ≤ leaf.data.length)
    (hf : ∀ j < n, f (leaf.itemOffset (i + j)) < 2 ^ 32 ∧
      f (leaf.itemOffset (i + j)) + top = leaf.itemOffset (i + j) + top') :
    HeadersMoved leaf (correctOffsets f n i leaf) i i n top top' := by
  induction n generalizing i leaf with
  | zero => exact fun j hj => absurd hj (Nat.not_lt_zero j)
  | succ n ih =>
    rw [itemNrOffset_add] at h
    have hn := itemNrOffset_succ i
    have hin : itemNrOffset (i + 1) ≤ leaf.data.length := by omega
    have hset := changedWithin_setItemOffset hin (f (leaf.itemOffset i))
    have hend : itemNrOffset (i + 1 + n) ≤
        (leaf.setItemOffset i (f (leaf.itemOffset i))).data.length := by
      rw [hset.length_data, itemNrOffset_add]
      omega
    have hchanged := changedWithin_correctOffsets f hend
    have hbehind := @ChangedWithin.headersMoved _ _ _ _ (i + 1) n hset top (by omega)
    obtain ⟨hlt, hshift⟩ := hf 0 (Nat.succ_pos n)
    rw [Nat.add_zero] at hlt hshift
    apply headersMoved_succ.mpr
    refine ⟨⟨?_, ?_, ?_⟩, ?_⟩
    · exact (hchanged.itemKey_eq (by omega)).trans (hset.itemKey_eq (by omega))
    · exact (hchanged.itemSizeNr_eq (by omega)).trans (hset.itemSizeNr_eq (by omega))
    · rw [correctOffsets, hchanged.itemOffset_eq (by omega), itemOffset_setItemOffset hin hlt]
      exact hshift
    · apply hbehind.trans
      apply ih hend
      intro j hj
      have hs := (hbehind j hj).2.2
      rw [show leaf.itemOffset (i + 1 + j) = leaf.itemOffset (i + (j + 1)) by
        rw [Nat.add_assoc, Nat.add_comm 1 j]] at hs
      rw [show (leaf.setItemOffset i (f (leaf.itemOffset i))).itemOffset (i + 1 + j) =
        leaf.itemOffset (i + (j + 1)) by omega]
      exact hf (j + 1) (Nat.succ_lt_succ hj)

theorem setupItem_spec {i size offset : ℕ} {key : Key}
    (h : itemNrOffset (i + 1) ≤ leaf.data.length) (hkey : key.InRange) (hoff : offset < 2 ^ 32)
    (hsi : size < 2 ^ 32) (hl : leaf' = ((leaf.setItemKey i key).setItemOffset i offset).setItemSize i size) :
    ChangedWithin leaf leaf' (itemNrOffset i) (itemNrOffset (i + 1)) ∧ leaf'.itemKey i = key ∧
      leaf'.itemOffset i = offset ∧ leaf'.itemSizeNr i = size := by
  subst hl
  have hend := itemNrOffset_succ i
  have hk := changedWithin_setItemKey h key
  have hin : itemNrOffset (i + 1) ≤ (leaf.setItemKey i key).data.length := by rwa [hk.length_data]
  have ho := changedWithin_setItemOffset hin offset
  have hin' : itemNrOffset (i + 1) ≤ ((leaf.setItemKey i key).setItemOffset i offset).data.length := by
    rwa [ho.length_data]
  have hs := changedWithin_setItemSize hin' size
  refine ⟨?_, ?_, ?_, itemSizeNr_setItemSize hin' hsi⟩
  · exact (hk.mono (by omega) (by omega)).trans
      ((ho.mono (by omega) (by omega)).trans (hs.mono (by omega) (by omega)))
  · rw [hs.itemKey_eq (by omega), ho.itemKey_eq (by omega), itemKey_setItemKey h hkey]
  · rw [hs.itemOffset_eq (by omega), itemOffset_setItemOffset hin hoff]

theorem setupItems_spec {new : List (Key × ℕ)} {slot dataEnd : ℕ}
    (hin : itemNrOffset (slot + new.length) ≤ leaf.data.length)
    (hk : ∀ entry ∈ new, entry.1.InRange) (hd : (new.map Prod.snd).sum ≤ dataEnd)
    (hend : dataEnd < 2 ^ 32) (hblock : headerSize + dataEnd ≤ leaf.data.length) :
    ChangedWithin leaf (setupItems new slot dataEnd leaf) (itemNrOffset slot)
        (itemNrOffset (slot + new.length)) ∧
      ∃ fresh : List Item, (fresh.map fun item => (item.key, item.data.length)) = new ∧
        (setupItems new slot dataEnd leaf).Stored slot dataEnd fresh := by
  induction new generalizing slot dataEnd leaf with
  | nil => exact ⟨.refl _ _ _, [], rfl, trivial⟩
  | cons entry new ih =>
    obtain ⟨key, size⟩ := entry
    rw [List.map_cons, List.sum_cons] at hd
    rw [List.length_cons] at hin ⊢
    have hn := itemNrOffset_succ slot
    have hl := itemNrOffset_add slot (new.length + 1)
    have hre := itemNrOffset_add (slot + 1) new.length
    have hsl : itemNrOffset (slot + 1) ≤ leaf.data.length := by omega
    have hoffset : sub32 dataEnd size = dataEnd - size := sub32_of_le (by omega) hend
    obtain ⟨hchanged, hkey, hoff, hs⟩ := setupItem_spec hsl
      (hk _ List.mem_cons_self) (show dataEnd - size < 2 ^ 32 by omega)
      (show size < 2 ^ 32 by omega) rfl
    rw [setupItems, hoffset]
    generalize hl' : ((leaf.setItemKey slot key).setItemOffset slot
      (dataEnd - size)).setItemSize slot size = leaf' at hchanged hkey hoff hs ⊢
    have hlen := hchanged.length_data
    obtain ⟨hbehind, fresh, hfresh, hstored⟩ := @ih leaf' (slot + 1) (dataEnd - size) (by omega)
      (List.forall_mem_cons.mp hk).2 (by omega) (by omega)
      (by omega)
    refine ⟨(hchanged.mono (by omega) (by omega)).trans (hbehind.mono (by omega) (by omega)), ?_⟩
    generalize setupItems new (slot + 1) (dataEnd - size) leaf' = leaf'' at hbehind hstored ⊢
    have hkey' : leaf''.itemKey slot = key := (hbehind.itemKey_eq (by omega)).trans hkey
    have hoff' : leaf''.itemOffset slot = dataEnd - size :=
      (hbehind.itemOffset_eq (by omega)).trans hoff
    have hs' : leaf''.itemSizeNr slot = size := (hbehind.itemSizeNr_eq (by omega)).trans hs
    have hr : (leaf''.itemAt slot).data.length = size := by
      rw [itemAt, hs']
      apply length_read
      rw [hbehind.length_data, itemPtrOffset, hoff']
      omega
    refine ⟨leaf''.itemAt slot :: fresh, ?_, rfl, ?_, ?_, ?_⟩
    · rw [List.map_cons, hfresh, hr, itemAt, hkey']
    · rw [hr, hs']
    · omega
    · rwa [hoff']

theorem addSizes_eq {i top : ℕ} {items : List Item} (h : leaf.Stored i top items) {dsize : ℕ}
    (hlt : dsize + dataSize items < 2 ^ 31) :
    leaf.addSizes items.length i dsize = (dsize + dataSize items : ℕ) := by
  induction items generalizing i top dsize with
  | nil => rfl
  | cons item items ih =>
    obtain ⟨-, hs, -, ht⟩ := h
    rw [dataSize_cons] at hlt
    have hsum : toInt32 (dsize + leaf.itemSizeNr i) = (dsize + item.data.length : ℕ) := by
      rw [hs, toInt32_of_range (by omega) (by omega)]
      rfl
    rw [List.length_cons, addSizes, hsum, ih ht (by omega), dataSize_cons, Nat.add_assoc]

theorem represents_setNritems {items : List Item} (hlen : leaf.data.length = nodesize)
    (hheader : headerSize ≤ nodesize) (hs : nodesize < 2 ^ 31)
    (hstored : leaf.Stored 0 (leafDataSize nodesize) items)
    (hr : Ctree.leafSpaceUsed items ≤ leafDataSize nodesize) :
    Represents nodesize (leaf.setNritems items.length) items := by
  have hin : headerSize ≤ leaf.data.length := by omega
  have hchanged := changedWithin_setNritems items.length hin
  refine ⟨hchanged.length_data.trans hlen, hheader, nritems_setNritems hin ?_, ?_, hr⟩
  · have hle : leafDataSize nodesize ≤ nodesize := Nat.sub_le _ _
    rw [leafSpaceUsed_eq] at hr
    have hmul := Nat.le_mul_of_pos_right items.length (show 0 < itemSize by decide)
    omega
  · apply hstored.frame hchanged
    · exact Or.inr (by decide : 100 ≤ itemNrOffset 0)
    · exact Or.inr ((by decide : 100 ≤ headerSize).trans (Nat.le_add_right _ _))

end TreeBlock

end Btrfs.Ctree
