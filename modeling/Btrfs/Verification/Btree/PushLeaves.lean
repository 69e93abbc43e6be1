import Btrfs.Verification.Btree.Nodes

/-! # Pushing items between sibling leaves -/

namespace Btrfs.Btree

open Ctree

/-! ## Space -/

@[simp] theorem leafSpaceUsed_nil : leafSpaceUsed [] = 0 := rfl

@[simp] theorem leafSpaceUsed_cons (item : Item) (items : List Item) :
    leafSpaceUsed (item :: items) = itemSize + item.data.length + leafSpaceUsed items := rfl

@[simp] theorem leafSpaceUsed_append (items items' : List Item) :
    leafSpaceUsed (items ++ items') = leafSpaceUsed items + leafSpaceUsed items' := by
  simp [leafSpaceUsed]

theorem leafSpaceUsed_take_add_drop (items : List Item) (n : ℕ) :
    leafSpaceUsed (items.take n) + leafSpaceUsed (items.drop n) = leafSpaceUsed items := by
  rw [← leafSpaceUsed_append, List.take_append_drop]

theorem leafFreeSpace_eq (nodesize : ℕ) (leaf : List Item) :
    leafFreeSpace nodesize leaf = leafDataSize nodesize - leafSpaceUsed leaf := rfl

/-! ## Rows -/

/-- The first key of a leaf, or that of an item about to go into it. -/
def lowOr (leaf : List Item) (insKey : Key) : Key := (leaf.head?.map Item.key).getD insKey

@[simp] theorem lowOr_nil (insKey : Key) : lowOr [] insKey = insKey := rfl

theorem lowOr_eq_itemKey {leaf : List Item} (h : leaf ≠ []) (insKey : Key) :
    lowOr leaf insKey = itemKey leaf 0 := by
  obtain ⟨item, items, rfl⟩ := List.exists_cons_of_ne_nil h
  rfl

theorem lowOr_append {leaf : List Item} (h : leaf ≠ []) (leaf' : List Item) (insKey : Key) :
    lowOr (leaf ++ leaf') insKey = lowOr leaf insKey := by
  obtain ⟨item, items, rfl⟩ := List.exists_cons_of_ne_nil h
  rfl

/-- A path stands between the items `before` and `after`. A leaf without items goes by the key
`insKey` of the item that is to come. -/
structure Stands (nodesize : ℕ) (insKey : Key) (path : Cursor) (before after : List Item) :
    Prop where
  before_eq : path.before = before
  after_eq : path.after = after
  slot_le : path.slot ≤ path.leaf.length
  space_le : leafSpaceUsed path.leaf ≤ leafDataSize nodesize
  up_valid : path.up.Valid nodesize (lowOr path.leaf insKey)

/-- The place `p` of a row of items that lies between the leaves `lefts` and `rights` of a
parent. -/
structure LeafRow (nodesize : ℕ) (insKey : Key) (lefts : List (Ptr (Block 0))) (key : Key)
    (row : List Item) (rights : List (Ptr (Block 0))) (up : Spine 1) (p : ℕ)
    (before after : List Item) : Prop where
  lefts_valid : ∀ ptr ∈ lefts, ptr.Valid nodesize
  rights_valid : ∀ ptr ∈ rights, ptr.Valid nodesize
  key_eq : key = lowOr row insKey
  up_valid : up.Valid nodesize (nodeLow lefts key)
  place_le : p ≤ row.length
  before_eq : up.before ++ flat lefts.reverse ++ row.take p = before
  after_eq : row.drop p ++ (flat rights ++ up.after) = after

variable {nodesize : ℕ}

theorem leafPtr_valid {a : List Item} (ha : a ≠ [])
    (hspace : leafSpaceUsed a ≤ leafDataSize nodesize) (insKey : Key) :
    (⟨lowOr a insKey, a⟩ : Ptr (Block 0)).Valid nodesize :=
  ⟨⟨ha, hspace⟩, lowOr_eq_itemKey ha insKey⟩

namespace LeafRow

variable {insKey : Key} {lefts rights : List (Ptr (Block 0))} {key : Key} {row a b : List Item}
  {up : Spine 1} {p : ℕ} {before after : List Item}

theorem ofStands (h : Stands nodesize insKey ⟨row, p, .node lefts key rights up⟩ before after) :
    LeafRow nodesize insKey lefts key row rights up p before after where
  lefts_valid := h.up_valid.2.1
  rights_valid := h.up_valid.2.2.1
  key_eq := h.up_valid.1
  up_valid := h.up_valid.2.2.2.2
  place_le := h.slot_le
  before_eq := by simpa [Cursor.before] using h.before_eq
  after_eq := by simpa [Cursor.after] using h.after_eq

theorem stands (h : LeafRow nodesize insKey lefts key row rights up p before after)
    (hspace : leafSpaceUsed row ≤ leafDataSize nodesize)
    (hfan : lefts.length + 1 + rights.length ≤ nodeptrsPerBlock nodesize) :
    Stands nodesize insKey ⟨row, p, .node lefts key rights up⟩ before after where
  before_eq := by simpa [Cursor.before] using h.before_eq
  after_eq := by simpa [Cursor.after] using h.after_eq
  slot_le := h.place_le
  space_le := hspace
  up_valid := ⟨h.key_eq, h.lefts_valid, h.rights_valid, hfan, h.up_valid⟩

theorem pullLeft {left : Ptr (Block 0)}
    (h : LeafRow nodesize insKey (left :: lefts) key row rights up p before after) :
    LeafRow nodesize insKey lefts left.key (left.child ++ row) rights up
      (p + left.child.length) before after := by
  have hl : left.Valid nodesize := h.lefts_valid left (by simp)
  refine ⟨(List.forall_mem_cons.mp h.lefts_valid).2, h.rights_valid, ?_, ?_, ?_, ?_, ?_⟩
  · rw [lowOr_append hl.1.1, lowOr_eq_itemKey hl.1.1]
    exact hl.2
  · rw [← nodeLow_cons]
    exact h.up_valid
  · have := h.place_le
    rw [List.length_append]
    omega
  · rw [← h.before_eq, List.take_append, List.take_of_length_le (by omega)]
    simp [flat]
  · rw [← h.after_eq, List.drop_append, List.drop_of_length_le (by omega), List.nil_append,
      Nat.add_sub_cancel]

theorem pullRight {right : Ptr (Block 0)} (hrow : row ≠ [])
    (h : LeafRow nodesize insKey lefts key row (right :: rights) up p before after) :
    LeafRow nodesize insKey lefts key (row ++ right.child) rights up p before after := by
  refine ⟨h.lefts_valid, (List.forall_mem_cons.mp h.rights_valid).2, ?_, h.up_valid, ?_, ?_, ?_⟩
  · rw [lowOr_append hrow]
    exact h.key_eq
  · have := h.place_le
    rw [List.length_append]
    omega
  · rw [List.take_append_of_le_length h.place_le]
    exact h.before_eq
  · rw [← h.after_eq, List.drop_append_of_le_length h.place_le]
    simp [flat]

theorem pushRight (h : LeafRow nodesize insKey lefts key (a ++ b) rights up p before after)
    (hp : p ≤ a.length) (ha : a ≠ []) (hb : b ≠ [])
    (hspace : leafSpaceUsed b ≤ leafDataSize nodesize) :
    LeafRow nodesize insKey lefts key a (⟨itemKey b 0, b⟩ :: rights) up p before after := by
  refine ⟨h.lefts_valid, List.forall_mem_cons.mpr ⟨⟨⟨hb, hspace⟩, rfl⟩, h.rights_valid⟩, ?_,
    h.up_valid, hp, ?_, ?_⟩
  · rw [← lowOr_append ha b]
    exact h.key_eq
  · rw [← List.take_append_of_le_length hp]
    exact h.before_eq
  · rw [← h.after_eq, List.drop_append_of_le_length hp]
    simp [flat]

theorem pushLeft (h : LeafRow nodesize insKey lefts key (a ++ b) rights up p before after)
    (hp : a.length ≤ p) (ha : a ≠ []) (hspace : leafSpaceUsed a ≤ leafDataSize nodesize) :
    LeafRow nodesize insKey (⟨key, a⟩ :: lefts) (lowOr b insKey) b rights up (p - a.length)
      before after := by
  have hkey : key = lowOr a insKey := by rw [h.key_eq, lowOr_append ha]
  refine ⟨List.forall_mem_cons.mpr ⟨hkey ▸ leafPtr_valid ha hspace insKey, h.lefts_valid⟩,
    h.rights_valid, rfl, ?_, ?_, ?_, ?_⟩
  · rw [nodeLow_cons]
    exact h.up_valid
  · have := h.place_le
    rw [List.length_append] at this
    omega
  · rw [← h.before_eq, List.take_append, List.take_of_length_le hp]
    simp [flat]
  · rw [← h.after_eq, List.drop_append, List.drop_of_length_le hp, List.nil_append]

end LeafRow

/-! ## Pushing items between leaves keeps the place of the path -/

variable {nodesize slot dataSize : ℕ} {insKey : Key} {path : Cursor} {before after : List Item}

/-! ## How many items move -/

theorem pushRightLoop_spec {left : List Item} {freeSpace : ℤ} {nr : ℕ} :
    ∀ (n pushSpace pushItems : ℕ), n ≤ left.length →
      ∃ m, pushRightLoop left slot dataSize freeSpace nr n pushSpace pushItems = pushItems + m ∧
        m ≤ n ∧ (m ≠ 0 → m + nr ≤ n ∧
          (leafSpaceUsed ((left.take n).drop (n - m)) : ℤ) + pushSpace ≤ freeSpace) := by
  intro n
  induction n with
  | zero =>
    intro pushSpace pushItems _
    exact ⟨0, rfl, le_rfl, fun h => absurd rfl h⟩
  | succ i ih =>
    intro pushSpace pushItems hn
    have hi : left[i]? = some (left.get ⟨i, hn⟩) := List.getElem?_eq_getElem hn
    obtain ⟨item, hget⟩ : ∃ item, left[i]? = some item := ⟨_, hi⟩
    rw [pushRightLoop, hget]
    simp only [Option.map_some, Option.getD_some]
    by_cases hnr : i < nr
    · rw [if_pos hnr]
      exact ⟨0, rfl, by omega, fun h => absurd rfl h⟩
    rw [if_neg hnr]
    obtain ⟨space, hspace, hge⟩ : ∃ space, space =
        (if slot = i then pushSpace + dataSize + itemSize else pushSpace) ∧ pushSpace ≤ space :=
      ⟨_, rfl, by split_ifs <;> omega⟩
    rw [← hspace]
    by_cases hf : freeSpace < (item.data.length : ℤ) + itemSize + space
    · rw [if_pos hf]
      exact ⟨0, rfl, by omega, fun h => absurd rfl h⟩
    rw [if_neg hf]
    obtain ⟨m, heq, hle, hm⟩ := ih (space + item.data.length + itemSize) (pushItems + 1) (by omega)
    refine ⟨m + 1, by omega, by omega, fun _ => ⟨?_, ?_⟩⟩
    · by_cases hz : m = 0
      · omega
      · omega
    · have hsplit : (left.take (i + 1)).drop (i + 1 - (m + 1)) =
          (left.take i).drop (i - m) ++ [item] := by
        rw [List.take_add_one, hget, Nat.add_sub_add_right, List.drop_append_of_le_length]
        · rfl
        · rw [List.length_take_of_le (by omega)]
          omega
      rw [hsplit, leafSpaceUsed_append, leafSpaceUsed_cons, leafSpaceUsed_nil]
      by_cases hz : m = 0
      · subst hz
        rw [Nat.sub_zero, List.drop_of_length_le (List.length_take_le _ _), leafSpaceUsed_nil]
        omega
      · omega

variable {empty : Bool} {left right : List Item} {k : ℕ}

theorem pushRightCount_spec (hk : pushRightCount nodesize slot dataSize empty left right = k)
    (hne : k ≠ 0) :
    k ≤ left.length ∧ (empty = false → k < left.length) ∧
      leafSpaceUsed (left.drop (left.length - k)) + leafSpaceUsed right ≤
        leafDataSize nodesize := by
  unfold pushRightCount at hk
  by_cases hf : leafFreeSpace nodesize right < dataSize
  · rw [if_pos hf] at hk
    omega
  rw [if_neg hf] at hk
  obtain ⟨m, heq, hle, hm⟩ := @pushRightLoop_spec slot dataSize left (leafFreeSpace nodesize right)
    (if empty = true then 0 else 1) left.length 0 0 le_rfl
  obtain rfl : m = k := by omega
  obtain ⟨hnr, hspace⟩ := hm hne
  rw [List.take_length, leafFreeSpace_eq] at hspace
  refine ⟨hle, ?_, by omega⟩
  rintro rfl
  simp only [Bool.false_eq_true, if_false] at hnr
  omega

theorem pushLeftLoop_spec {freeSpace : ℤ} : ∀ (items : List Item) (i pushSpace : ℕ),
      ∃ m, pushLeftLoop slot dataSize freeSpace items i pushSpace = i + m ∧ m ≤ items.length ∧
        (m ≠ 0 → (leafSpaceUsed (items.take m) : ℤ) + pushSpace ≤ freeSpace) := by
  intro items
  induction items with
  | nil =>
    intro i pushSpace
    exact ⟨0, rfl, le_rfl, fun h => absurd rfl h⟩
  | cons item items ih =>
    intro i pushSpace
    rw [pushLeftLoop]
    obtain ⟨space, hspace, hge⟩ : ∃ space, space =
        (if slot = i then pushSpace + dataSize + itemSize else pushSpace) ∧ pushSpace ≤ space :=
      ⟨_, rfl, by split_ifs <;> omega⟩
    simp only [← hspace]
    by_cases hf : freeSpace < (item.data.length : ℤ) + itemSize + space
    · rw [if_pos hf]
      exact ⟨0, rfl, by omega, fun h => absurd rfl h⟩
    rw [if_neg hf]
    obtain ⟨m, heq, hle, hm⟩ := ih (i + 1) (space + item.data.length + itemSize)
    refine ⟨m + 1, by omega, by simpa using hle, fun _ => ?_⟩
    rw [List.take_succ_cons, leafSpaceUsed_cons]
    by_cases hz : m = 0
    · subst hz
      rw [List.take_zero, leafSpaceUsed_nil]
      omega
    · omega

theorem pushLeftCount_spec (hk : pushLeftCount nodesize slot dataSize empty left right = k)
    (hne : k ≠ 0) :
    k ≤ right.length ∧ (empty = false → k < right.length) ∧
      leafSpaceUsed left + leafSpaceUsed (right.take k) ≤ leafDataSize nodesize := by
  unfold pushLeftCount at hk
  by_cases hf : leafFreeSpace nodesize left < dataSize
  · rw [if_pos hf] at hk
    omega
  rw [if_neg hf] at hk
  obtain ⟨m, heq, hle, hm⟩ := @pushLeftLoop_spec slot dataSize (leafFreeSpace nodesize left)
    (right.take (if empty = true then right.length else right.length - 1)) 0 0
  obtain rfl : m = k := by omega
  have hspace := hm hne
  rw [List.length_take] at hle
  rw [List.take_take, min_eq_left (by omega), leafFreeSpace_eq] at hspace
  refine ⟨by omega, ?_, by omega⟩
  rintro rfl
  simp only [Bool.false_eq_true, if_false] at hle
  omega

/-! ## The pushes of `split_leaf` -/

/-- Another leaf of the same row: the path stands at the same place, on an item if it did. -/
structure Moves (nodesize : ℕ) (insKey : Key) (path path' : Cursor) (before after : List Item) :
    Prop where
  stands : Stands nodesize insKey path' before after
  leaf_ne : path'.leaf ≠ []
  fanout_eq : path'.up.fanout = path.up.fanout
  slot_lt : path.slot < path.leaf.length → path'.slot < path'.leaf.length

theorem pushLeafRight_spec {path' : Cursor} (hstands : Stands nodesize insKey path before after)
    (h : pushLeafRight nodesize dataSize false path = some path') :
    Moves nodesize insKey path path' before after := by
  obtain ⟨leaf, slot, up⟩ := path
  match up with
  | .root => simp [pushLeafRight] at h
  | .node _ _ [] _ => simp [pushLeafRight] at h
  | .node lefts key (right :: rights) up =>
    have hfan := hstands.up_valid.2.2.2.1
    simp only [List.length_cons] at hfan
    obtain ⟨k, hk⟩ : ∃ k, pushRightCount nodesize slot dataSize false leaf right.child = k :=
      ⟨_, rfl⟩
    simp only [pushLeafRight, hk] at h
    by_cases hz : k = 0
    · rw [if_pos hz] at h
      cases h
    rw [if_neg hz] at h
    obtain ⟨hle, hlt, hspace⟩ := pushRightCount_spec hk hz
    have hlt := hlt rfl
    have hne : leaf ≠ [] := List.ne_nil_of_length_pos (by omega)
    have hrow := (LeafRow.ofStands hstands).pullRight hne
    have hu := leafSpaceUsed_take_add_drop leaf (leaf.length - k)
    have hspaceLeaf := hstands.space_le
    have ht : (leaf.take (leaf.length - k)).length = leaf.length - k :=
      List.length_take_of_le (by omega)
    have hd : (leaf.drop (leaf.length - k) ++ right.child).length = k + right.child.length := by
      rw [List.length_append, List.length_drop]
      omega
    have hright : leafSpaceUsed (leaf.drop (leaf.length - k) ++ right.child) ≤
        leafDataSize nodesize := by
      rwa [leafSpaceUsed_append]
    have htakeNe : leaf.take (leaf.length - k) ≠ [] := List.ne_nil_of_length_pos (by omega)
    have hdropNe : leaf.drop (leaf.length - k) ++ right.child ≠ [] :=
      List.ne_nil_of_length_pos (by omega)
    rw [← List.take_append_drop (leaf.length - k) leaf, List.append_assoc] at hrow
    by_cases hp : leaf.length - k ≤ slot
    · rw [if_pos hp] at h
      cases h
      have hrow' := hrow.pushLeft (by omega) htakeNe (by simp only at hspaceLeaf; omega)
      rw [ht, lowOr_eq_itemKey hdropNe] at hrow'
      refine ⟨hrow'.stands hright ?_, hdropNe, ?_, ?_⟩
      · simp only [List.length_cons]
        omega
      · simp only [Spine.fanout, List.length_cons]
        omega
      · simp only
        omega
    · rw [if_neg hp] at h
      cases h
      have hrow' := hrow.pushRight (by omega) htakeNe hdropNe hright
      refine ⟨hrow'.stands (by simp only at hspaceLeaf; omega) ?_, htakeNe, ?_, ?_⟩
      · omega
      · simp [Spine.fanout]
      · simp only
        omega

theorem pushLeafLeft_spec (dataSize : ℕ) (hstands : Stands nodesize insKey path before after) :
    ∃ path?, pushLeafLeft nodesize dataSize false path = .ok path? ∧
      ∀ path' ∈ path?, Moves nodesize insKey path path' before after := by
  obtain ⟨leaf, slot, up⟩ := path
  match up with
  | .root => exact ⟨none, rfl, by simp⟩
  | .node [] _ _ _ => exact ⟨none, rfl, by simp⟩
  | .node (left :: lefts) key rights up =>
    have hfan := hstands.up_valid.2.2.2.1
    simp only [List.length_cons] at hfan
    obtain ⟨k, hk⟩ : ∃ k, pushLeftCount nodesize slot dataSize false left.child leaf = k := ⟨_, rfl⟩
    simp only [pushLeafLeft, hk]
    by_cases hz : k = 0
    · rw [if_pos hz]
      exact ⟨none, rfl, by simp⟩
    rw [if_neg hz]
    obtain ⟨hle, hlt, hspace⟩ := pushLeftCount_spec hk hz
    have hlt := hlt rfl
    have hleftNe : left.child ≠ [] := (hstands.up_valid.2.1 left (by simp)).1.1
    have hleftPos : 0 < left.child.length := List.length_pos_iff.mpr hleftNe
    rw [if_neg (by omega)]
    have hrow := (LeafRow.ofStands hstands).pullLeft
    have hu := leafSpaceUsed_take_add_drop leaf k
    have hspaceLeaf := hstands.space_le
    simp only at hspaceLeaf
    have ht : (left.child ++ leaf.take k).length = left.child.length + k := by
      simp [List.length_take_of_le hle]
    have hd : (leaf.drop k).length = leaf.length - k := List.length_drop
    have hdropNe : leaf.drop k ≠ [] := List.ne_nil_of_length_pos (by omega)
    have htakeNe : left.child ++ leaf.take k ≠ [] := List.ne_nil_of_length_pos (by omega)
    have hl : leafSpaceUsed (left.child ++ leaf.take k) ≤ leafDataSize nodesize := by
      rwa [leafSpaceUsed_append]
    have hkey : itemKey (leaf.drop k ++ leaf) 0 = itemKey (leaf.drop k) 0 := by
      rw [← lowOr_eq_itemKey (by simp [hdropNe]) insKey, lowOr_append hdropNe,
        lowOr_eq_itemKey hdropNe]
    rw [← List.take_append_drop k leaf, ← List.append_assoc] at hrow
    by_cases hp : slot < k
    · rw [if_pos hp]
      refine ⟨_, rfl, ?_⟩
      rintro path' ⟨⟩
      have hrow' := hrow.pushRight (by omega) htakeNe hdropNe (by omega)
      rw [← hkey] at hrow'
      refine ⟨hrow'.stands hl ?_, htakeNe, ?_, ?_⟩
      · simp only [List.length_cons]
        omega
      · simp only [Spine.fanout, List.length_cons]
        omega
      · simp only
        omega
    · rw [if_neg hp]
      refine ⟨_, rfl, ?_⟩
      rintro path' ⟨⟩
      have hrow' := hrow.pushLeft (by omega) htakeNe hl
      rw [ht, lowOr_eq_itemKey hdropNe, ← hkey,
        show slot + left.child.length - (left.child.length + k) = slot - k by omega] at hrow'
      refine ⟨hrow'.stands (by omega) ?_, hdropNe, ?_, ?_⟩
      · omega
      · simp [Spine.fanout]
      · simp only
        omega

end Btrfs.Btree
