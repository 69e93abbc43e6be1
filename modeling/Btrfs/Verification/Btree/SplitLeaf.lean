import Btrfs.Verification.Btree.PushLeaves

/-! # Splitting a leaf makes room at the place of the path -/

namespace Btrfs.Btree

open Ctree

variable {nodesize dataSize : ℕ} {extend : Bool} {insKey : Key} {path : Cursor}
  {before after : List Item}

/-! ## One split -/

/-- A new leaf in the row: the path stands at the same place, on an item if it did, under a node
with one pointer more. -/
structure Splits (nodesize : ℕ) (insKey : Key) (path path' : Cursor) (before after : List Item) :
    Prop where
  stands : Stands nodesize insKey path' before after
  fanout_eq : path'.up.fanout = path.up.fanout + 1
  slot_lt : path.slot < path.leaf.length → path'.slot < path'.leaf.length

section

variable (hstands : Stands nodesize insKey path before after)

include hstands

theorem copyForSplit_spec {mid : ℕ}
    (hmid : 0 < mid) (hlt : mid < path.leaf.length) (hro : 0 < path.up.fanout)
    (hr : path.up.fanout < nodeptrsPerBlock nodesize) :
    ∃ path', copyForSplit nodesize path mid = .ok path' ∧
      Splits nodesize insKey path path' before after ∧
      path'.leaf = (if mid ≤ path.slot then path.leaf.drop mid else path.leaf.take mid) ∧
      path'.slot = (if mid ≤ path.slot then path.slot - mid else path.slot) := by
  obtain ⟨leaf, slot, up⟩ := path
  match up with
  | .root => simp [Spine.fanout] at hro
  | .node left key right up =>
    have hspace := hstands.space_le
    have hrow := LeafRow.ofStands hstands
    have hu := leafSpaceUsed_take_add_drop leaf mid
    simp only [Spine.fanout] at hr hspace hlt
    have ht : (leaf.take mid).length = mid := List.length_take_of_le hlt.le
    have hd : (leaf.drop mid).length = leaf.length - mid := List.length_drop
    have htakeNe : leaf.take mid ≠ [] := List.ne_nil_of_length_pos (by omega)
    have hdropNe : leaf.drop mid ≠ [] := List.ne_nil_of_length_pos (by omega)
    have hkey : itemKey leaf mid = itemKey (leaf.drop mid) 0 := by simp [itemKey]
    rw [← List.take_append_drop mid leaf] at hrow
    simp only [copyForSplit, insertPtrAfter, if_neg hr.ne, hkey]
    by_cases hp : mid ≤ slot
    · simp only [Spine.moveRight, if_pos hp]
      have hrow' := hrow.pushLeft (by omega) htakeNe (by omega)
      rw [ht, lowOr_eq_itemKey hdropNe] at hrow'
      refine ⟨_, rfl, ⟨hrow'.stands (by omega) ?_, ?_, ?_⟩, rfl, rfl⟩
      · simp only [List.length_cons]
        omega
      · simp only [Spine.fanout, List.length_cons]
        omega
      · simp only
        omega
    · simp only [if_neg hp]
      have hrow' := hrow.pushRight (by omega) htakeNe hdropNe (by omega)
      refine ⟨_, rfl, ⟨hrow'.stands (by omega) ?_, ?_, ?_⟩, rfl, rfl⟩
      · simp only [List.length_cons]
        omega
      · simp only [Spine.fanout, List.length_cons]
        omega
      · simp only
        omega

theorem addEmptyLeaf_after
    (hne : path.leaf ≠ []) (hs : path.slot = path.leaf.length) (hro : 0 < path.up.fanout)
    (hr : path.up.fanout < nodeptrsPerBlock nodesize) :
    ∃ path', addEmptyLeaf nodesize insKey path true = .ok path' ∧
      Splits nodesize insKey path path' before after ∧ path'.leaf = [] := by
  obtain ⟨leaf, slot, up⟩ := path
  match up with
  | .root => simp [Spine.fanout] at hro
  | .node left key right up =>
    have hrow := LeafRow.ofStands hstands
    simp only [Spine.fanout] at hr hs
    subst hs
    rw [← List.append_nil leaf] at hrow
    have hrow' := hrow.pushLeft (by simp) hne hstands.space_le
    simp only [addEmptyLeaf, insertPtrAfter, if_neg hr.ne, Spine.moveRight]
    rw [List.append_nil, Nat.sub_self] at hrow'
    refine ⟨_, rfl, ⟨hrow'.stands (by simp) ?_, ?_, ?_⟩, rfl⟩
    · simp only [List.length_cons]
      omega
    · simp only [Spine.fanout, List.length_cons]
      omega
    · simp

theorem addEmptyLeaf_before (hne : path.leaf ≠ []) (hs : path.slot = 0) (hro : 0 < path.up.fanout)
    (hr : path.up.fanout < nodeptrsPerBlock nodesize) :
    ∃ path', addEmptyLeaf nodesize insKey path false = .ok path' ∧
      Stands nodesize insKey path' before after ∧ path'.leaf = [] ∧
      path'.up.fanout = path.up.fanout + 1 := by
  obtain ⟨leaf, slot, up⟩ := path
  match up with
  | .root => simp [Spine.fanout] at hro
  | .node left key right up =>
    obtain ⟨hkey, hl, hright, hfan, hup⟩ := hstands.up_valid
    simp only [Spine.fanout] at hr hs
    subst hs
    simp only [addEmptyLeaf, if_neg hr.ne]
    have hrights : ∀ ptr ∈ (⟨key, leaf⟩ :: right : List (Ptr (Block 0))), ptr.Valid nodesize := by
      intro ptr hptr
      rcases List.mem_cons.mp hptr with rfl | hptr
      · rw [hkey]
        exact leafPtr_valid hne hstands.space_le insKey
      · exact hright ptr hptr
    have hlen : left.length + 1 + (⟨key, leaf⟩ :: right : List (Ptr (Block 0))).length ≤
        nodeptrsPerBlock nodesize := by
      rw [List.length_cons]
      omega
    have hbefore := hstands.before_eq
    have hafter := hstands.after_eq
    refine ⟨_, rfl, ⟨?_, ?_, le_rfl, by simp, ?_⟩, rfl, ?_⟩
    · split_ifs <;> simpa [Cursor.before] using hbefore
    · split_ifs <;> simpa [Cursor.after, flat] using hafter
    · cases left with
      | nil => exact ⟨rfl, hl, hrights, hlen, hup.fixupLowKeys insKey⟩
      | cons ptr left => exact ⟨rfl, hl, hrights, hlen, by rwa [nodeLow_cons] at hup ⊢⟩
    · have hsa : (if left = [] then
          (Spine.node left insKey (⟨key, leaf⟩ :: right) up).fixupLowKeys insKey
          else .node left insKey (⟨key, leaf⟩ :: right) up).fanout =
          (Spine.node left insKey (⟨key, leaf⟩ :: right) up).fanout := by
        split_ifs
        · rw [Spine.fanout_fixupLowKeys]
        · rfl
      refine hsa.trans ?_
      simp only [Spine.fanout, List.length_cons]
      omega

end

/-! ## The rounds of `split_leaf` -/

/-- What `split_leaf` may rely on when it extends an item: it stands in the slot and would fit
into a leaf of its own. -/
def Extends (nodesize dataSize : ℕ) (extend : Bool) (path : Cursor) : Prop :=
  extend = true → ∃ item, path.leaf[path.slot]? = some item ∧
    dataSize + item.data.length + itemSize ≤ leafDataSize nodesize

theorem Stands.head?_after (h : Stands nodesize insKey path before after)
    (hlt : path.slot < path.leaf.length) : path.leaf[path.slot]? = after.head? := by
  rw [← h.after_eq, Cursor.after, List.head?_append, List.head?_drop, List.getElem?_eq_getElem hlt]
  rfl

theorem Extends.of_stands {path' : Cursor} (h : Extends nodesize dataSize extend path)
    (hstands : Stands nodesize insKey path before after)
    (hstands' : Stands nodesize insKey path' before after)
    (hlt : path.slot < path.leaf.length → path'.slot < path'.leaf.length) :
    Extends nodesize dataSize extend path' := by
  intro hextent
  obtain ⟨item, hi, hsi⟩ := h hextent
  have hs : path.slot < path.leaf.length := (List.getElem?_eq_some_iff.mp hi).1
  refine ⟨item, ?_, hsi⟩
  rw [hstands'.head?_after (hlt hs), ← hstands.head?_after hs]
  exact hi

/-- What a round of `split_leaf` needs: the leaf has too little room, its parent has some. -/
structure Tight (nodesize : ℕ) (insKey : Key) (dataSize : ℕ) (extend : Bool) (path : Cursor)
    (before after : List Item) : Prop where
  stands : Stands nodesize insKey path before after
  leaf_ne : path.leaf ≠ []
  tight : leafDataSize nodesize < leafSpaceUsed path.leaf + dataSize
  extends_item : Extends nodesize dataSize extend path
  root : 0 < path.up.fanout
  room : path.up.fanout < nodeptrsPerBlock nodesize

/-- The choice of `split_leaf`: an empty leaf after or before the old one, one split that makes
room, or one at the slot to be followed by another. -/
inductive Chosen (nodesize dataSize : ℕ) (extend : Bool) (l : List Item) (slot : ℕ) : ℕ → ℕ → Prop
  | emptyAfter {mid : ℕ} (hmid : mid ≤ slot) (hslot : slot = l.length) :
      Chosen nodesize dataSize extend l slot 0 mid
  | emptyBefore {mid : ℕ} (hmid : ¬ mid ≤ slot) (hslot : slot = 0) (hextend : extend = false) :
      Chosen nodesize dataSize extend l slot 0 mid
  | once {mid : ℕ} (hpos : 0 < mid) (hlt : mid < l.length)
      (hroom : leafSpaceUsed (if mid ≤ slot then l.drop mid else l.take mid) + dataSize ≤
        leafDataSize nodesize) :
      Chosen nodesize dataSize extend l slot 1 mid
  | twice (hpos : 0 < slot) (hlt : slot < l.length)
      (htight : leafDataSize nodesize < leafSpaceUsed (l.drop slot) + dataSize) :
      Chosen nodesize dataSize extend l slot 2 slot

theorem splitChoice_spec (htarget : Tight nodesize insKey dataSize extend path before after)
    (hsi : 0 < dataSize) :
    ∃ split mid, splitChoice nodesize dataSize extend path.leaf path.slot = (split, mid) ∧
      Chosen nodesize dataSize extend path.leaf path.slot split mid := by
  obtain ⟨leaf, slot, up⟩ := path
  obtain ⟨hstands, hne, htarget, hextent, -, -⟩ := htarget
  have hle := hstands.slot_le
  have hpos : 0 < leaf.length := List.length_pos_iff.mpr hne
  simp only at hle htarget
  -- a split at the slot leaves the path at the start of the right leaf
  have hatSlot : 0 < slot → slot < leaf.length → ∃ split mid, (if slot ≠ leaf.length ∧
          decide (leafDataSize nodesize < leafSpaceUsed (leaf.drop slot) + dataSize) = true then
        (2, slot) else (1, slot)) = (split, mid) ∧
      Chosen nodesize dataSize extend leaf slot split mid := by
    intro hs hlt
    by_cases hfit : leafDataSize nodesize < leafSpaceUsed (leaf.drop slot) + dataSize
    · exact ⟨2, slot, if_pos ⟨hlt.ne, decide_eq_true hfit⟩, .twice hs hlt hfit⟩
    · refine ⟨1, slot, if_neg (by simp [hfit]), .once hs hlt ?_⟩
      rw [if_pos le_rfl]
      exact not_lt.mp hfit
  simp only [splitChoice]
  generalize (if slot ≠ leaf.length ∧
    decide (leafDataSize nodesize < leafSpaceUsed (leaf.drop slot) + dataSize) = true then
      (2, slot) else (1, slot)) = atSlot at hatSlot ⊢
  by_cases hmid : (leaf.length + 1) / 2 ≤ slot
  · split_ifs with hright hend
    · exact ⟨_, _, rfl, .emptyAfter hmid (by omega)⟩
    · exact hatSlot (by omega) (by omega)
    · simp only [not_or, decide_eq_true_eq, not_lt] at hright
      refine ⟨_, _, rfl, .once (by omega) (by omega) ?_⟩
      rw [if_pos hmid]
      exact hright.2
  · split_ifs with hl hbefore hfirst
    · exact ⟨_, _, rfl, .emptyBefore hmid hbefore.2.2 (by simpa using hbefore.1)⟩
    · obtain ⟨hor, rfl⟩ := hfirst
      have hextend : extend = true := hor.resolve_right (by omega)
      obtain ⟨item, hi, hfit⟩ := hextent hextend
      match leaf with
      | [] => simp at hi
      | [item'] =>
        obtain rfl : item' = item := by simpa using hi
        simp only [leafSpaceUsed_cons, leafSpaceUsed_nil] at htarget
        omega
      | item' :: item'' :: items =>
        obtain rfl : item' = item := by simpa using hi
        refine ⟨_, _, rfl, .once Nat.one_pos (by simp) ?_⟩
        rw [if_neg (by omega), List.take_succ_cons, List.take_zero, leafSpaceUsed_cons,
          leafSpaceUsed_nil]
        omega
    · refine hatSlot ?_ (by omega)
      rcases Nat.eq_zero_or_pos slot with rfl | hs
      · cases extend with
        | true => simp at hfirst
        | false => simp [hsi.ne'] at hbefore
      · exact hs
    · simp only [decide_eq_true_eq, not_lt] at hl
      have hlt : (leaf.length + 1) / 2 < leaf.length := by
        by_contra hge
        rw [List.take_of_length_le (not_lt.mp hge)] at hl
        omega
      refine ⟨_, _, rfl, .once (by omega) hlt ?_⟩
      rw [if_neg hmid]
      exact hl

/-- What a round leaves: a leaf with room, or one that the path is at the start of and that has
to be split again. -/
structure RoundSpec (nodesize : ℕ) (insKey : Key) (dataSize : ℕ) (extend : Bool) (path : Cursor)
    (before after : List Item) (split : ℕ) (path' : Cursor) : Prop where
  stands : Stands nodesize insKey path' before after
  fanout_eq : path'.up.fanout = path.up.fanout + 1
  slot_lt : extend = true → path.slot < path.leaf.length → path'.slot < path'.leaf.length
  done : split ≠ 2 → leafSpaceUsed path'.leaf + dataSize ≤ leafDataSize nodesize
  again : split = 2 → path.slot ≠ 0 ∧ path'.slot = 0 ∧ path'.leaf ≠ [] ∧
    leafDataSize nodesize < leafSpaceUsed path'.leaf + dataSize

theorem splitRound_spec (htgt : Tight nodesize insKey dataSize extend path before after)
    (hsi : 0 < dataSize) (hfit : dataSize ≤ leafDataSize nodesize) :
    ∃ split path', splitRound nodesize insKey dataSize extend path = .ok (split, path') ∧
      RoundSpec nodesize insKey dataSize extend path before after split path' := by
  obtain ⟨split, mid, hchoice, hchosen⟩ := splitChoice_spec htgt hsi
  simp only [splitRound, hchoice]
  cases hchosen with
  | emptyAfter hmid hs =>
    obtain ⟨path', heq, hspls, hl⟩ := addEmptyLeaf_after htgt.stands htgt.leaf_ne hs
      htgt.root htgt.room
    simp only [decide_eq_true hmid, heq]
    exact ⟨_, _, rfl, hspls.stands, hspls.fanout_eq, fun _ => hspls.slot_lt,
      by simpa [hl] using hfit, by simp⟩
  | emptyBefore hmid hs hextent =>
    obtain ⟨path', heq, hstands, hl, hfan⟩ := addEmptyLeaf_before htgt.stands htgt.leaf_ne
      hs htgt.root htgt.room
    simp only [decide_eq_false hmid, heq]
    exact ⟨_, _, rfl, hstands, hfan, by simp [hextent], by simpa [hl] using hfit, by simp⟩
  | once hpos hlt hr =>
    obtain ⟨path', heq, hspls, hl, -⟩ := copyForSplit_spec htgt.stands hpos hlt htgt.root htgt.room
    simp only [heq]
    exact ⟨_, _, rfl, hspls.stands, hspls.fanout_eq, fun _ => hspls.slot_lt,
      by rwa [hl, imp_iff_right (by omega)], by simp⟩
  | twice hpos hlt htarget' =>
    obtain ⟨path', heq, hspls, hl, hs⟩ := copyForSplit_spec htgt.stands hpos hlt htgt.root htgt.room
    rw [if_pos le_rfl] at hl hs
    simp only [heq]
    refine ⟨_, _, rfl, hspls.stands, hspls.fanout_eq, fun _ => hspls.slot_lt,
      fun h => absurd rfl h, fun _ => ⟨hpos.ne', by omega, ?_, by rwa [hl]⟩⟩
    rw [hl]
    exact List.ne_nil_of_length_pos (by rw [List.length_drop]; omega)

/-! ## `split_leaf` -/

/-- A path at the same place with room for `dataSize` bytes, on an item if it is to be
extended. -/
structure HasRoom (nodesize : ℕ) (insKey : Key) (dataSize : ℕ) (extend : Bool) (path : Cursor)
    (before after : List Item) : Prop where
  stands : Stands nodesize insKey path before after
  room : leafSpaceUsed path.leaf + dataSize ≤ leafDataSize nodesize
  slot_lt : extend = true → path.slot < path.leaf.length

theorem Extends.slot_lt (h : Extends nodesize dataSize extend path) (hextent : extend = true) :
    path.slot < path.leaf.length := by
  obtain ⟨item, hi, -⟩ := h hextent
  exact (List.getElem?_eq_some_iff.mp hi).1

theorem Stands.newRoot (hns : 4096 ≤ nodesize) {leaf : List Item} {slot : ℕ}
    (h : Stands nodesize insKey ⟨leaf, slot, .root⟩ before after) (hne : leaf ≠ []) :
    Stands nodesize insKey ⟨leaf, slot, .node [] (itemKey leaf 0) [] .root⟩ before after := by
  have hN := nodeptrsPerBlock_ge hns
  refine ⟨by simpa [Cursor.before] using h.before_eq, by simpa [Cursor.after] using h.after_eq,
    h.slot_le, h.space_le, (lowOr_eq_itemKey hne insKey).symm, by simp, by simp, ?_, ?_⟩
  · simp only [List.length_nil]
    omega
  · simp [Spine.Valid, BTRFS_MAX_LEVEL]

theorem splitPushed_spec (hns : 4096 ≤ nodesize)
    (hstands : Stands nodesize insKey path before after) (hne : path.leaf ≠ [])
    (htarget : leafDataSize nodesize < leafSpaceUsed path.leaf + dataSize)
    (hextent : Extends nodesize dataSize extend path)
    (hr : path.up.fanout + 3 < nodeptrsPerBlock nodesize) (hsi : 0 < dataSize)
    (hfit : dataSize ≤ leafDataSize nodesize) :
    ∃ path', splitPushed nodesize insKey dataSize extend path = .ok path' ∧
      HasRoom nodesize insKey dataSize extend path' before after := by
  -- the parent, a new root if there was none
  obtain ⟨up, hup, hfan, htarget⟩ : ∃ up, leafParent path = .ok up ∧
      up.fanout + 2 < nodeptrsPerBlock nodesize ∧
      Tight nodesize insKey dataSize extend { path with up := up } before after := by
    obtain ⟨leaf, slot, up⟩ := path
    match up with
    | .root =>
      refine ⟨.node [] (itemKey leaf 0) [] .root, rfl, ?_, hstands.newRoot hns hne, hne,
        htarget, hextent, ?_, ?_⟩
      all_goals
        simp only [Spine.fanout, List.length_nil]
        omega
    | .node left key right up =>
      refine ⟨_, rfl, by omega, hstands, hne, htarget, hextent, ?_, ?_⟩
      all_goals
        simp only [Spine.fanout] at hr ⊢
        omega
  simp only [splitPushed, hup, bind, Except.bind]
  obtain ⟨split, path₁, hround₁, hs₁⟩ := splitRound_spec htarget hsi hfit
  simp only [hround₁]
  have hs : extend = true → path₁.slot < path₁.leaf.length :=
    fun h => hs₁.slot_lt h (htarget.extends_item.slot_lt h)
  by_cases htwice : split = 2
  · rw [if_pos htwice]
    obtain ⟨-, hz, hne₁, htarget₁⟩ := hs₁.again htwice
    have hfan₁ := hs₁.fanout_eq
    simp only at hfan₁
    have htarget' : Tight nodesize insKey dataSize extend path₁ before after := by
      refine ⟨hs₁.stands, hne₁, htarget₁, ?_, by omega, by omega⟩
      intro hextend
      exact htarget.extends_item.of_stands htarget.stands hs₁.stands (fun _ => hs hextend) hextend
    obtain ⟨split₂, path₂, hround₂, hs₂⟩ := splitRound_spec htarget' hsi hfit
    simp only [hround₂]
    have hd : split₂ ≠ 2 := fun h => (hs₂.again h).1 hz
    rw [if_neg hd]
    exact ⟨_, rfl, hs₂.stands, hs₂.done hd, fun h => hs₂.slot_lt h (hs h)⟩
  · rw [if_neg htwice]
    exact ⟨_, rfl, hs₁.stands, hs₁.done htwice, hs⟩

theorem pushForSplit_spec (dataSize : ℕ) (hstands : Stands nodesize insKey path before after)
    (hne : path.leaf ≠ []) :
    ∃ path', pushForSplit nodesize dataSize path = .ok path' ∧
      Moves nodesize insKey path path' before after := by
  unfold pushForSplit
  cases hright : pushLeafRight nodesize dataSize false path with
  | some path' => exact ⟨_, rfl, pushLeafRight_spec hstands hright⟩
  | none =>
    obtain ⟨path?, hl, hmov⟩ := pushLeafLeft_spec dataSize hstands
    simp only [hl]
    cases path? with
    | none => exact ⟨_, rfl, hstands, hne, rfl, id⟩
    | some path' => exact ⟨_, rfl, hmov path' rfl⟩

/-- `split_leaf` makes room for `dataSize` bytes where the path stands. It only refuses to extend
an item that would outgrow a leaf, and then leaves the tree alone. -/
theorem splitLeaf_spec (hns : 4096 ≤ nodesize)
    (hstands : Stands nodesize insKey path before after) (hne : path.leaf ≠ [])
    (htarget : insKey.type = BTRFS_DIR_ITEM_KEY →
      leafDataSize nodesize < leafSpaceUsed path.leaf + dataSize)
    (hs : extend = true → path.slot < path.leaf.length)
    (hr : path.up.fanout + 3 < nodeptrsPerBlock nodesize) (hsi : 0 < dataSize)
    (hfit : extend = false → dataSize ≤ leafDataSize nodesize) :
    (∃ item, extend = true ∧ path.leaf[path.slot]? = some item ∧
        leafDataSize nodesize < dataSize + item.data.length + itemSize ∧
        splitLeaf nodesize insKey dataSize extend path = .error (.ret (-eoverflow) path.tree)) ∨
      ∃ path', splitLeaf nodesize insKey dataSize extend path = .ok path' ∧
        HasRoom nodesize insKey dataSize extend path' before after := by
  by_cases ho : extend = true ∧ leafDataSize nodesize <
      dataSize + (path.leaf[path.slot]?.map fun item => item.data.length).getD 0 + itemSize
  · refine .inl ⟨path.leaf.get ⟨path.slot, hs ho.1⟩, ho.1, List.getElem?_eq_getElem _, ?_, ?_⟩
    · simpa [List.getElem?_eq_getElem (hs ho.1)] using ho.2
    · simp [splitLeaf, if_pos ho]
  · refine .inr ?_
    have hextends : Extends nodesize dataSize extend path := by
      intro hextent
      have hget := List.getElem?_eq_getElem (hs hextent)
      simp only [hextent, true_and, hget, not_lt] at ho
      exact ⟨_, hget, ho⟩
    have hfit : dataSize ≤ leafDataSize nodesize := by
      cases hextent : extend with
      | false => exact hfit hextent
      | true =>
        obtain ⟨item, -, hle⟩ := hextends hextent
        omega
    simp only [splitLeaf]
    split_ifs with hpush
    · obtain ⟨path', heq, hmov⟩ := pushForSplit_spec dataSize hstands hne
      simp only [heq, bind, Except.bind]
      have hextent' := hextends.of_stands hstands hmov.stands hmov.slot_lt
      split_ifs with hf
      · rw [leafFreeSpace_eq] at hf
        exact ⟨_, rfl, hmov.stands, by omega, hextent'.slot_lt⟩
      · rw [leafFreeSpace_eq] at hf
        exact splitPushed_spec hns hmov.stands hmov.leaf_ne (by omega) hextent'
          (hmov.fanout_eq ▸ hr) hsi hfit
    · have hdir : insKey.type = BTRFS_DIR_ITEM_KEY := by
        by_contra hne'
        exact hpush ⟨hsi.ne', hne'⟩
      exact splitPushed_spec hns hstands hne (htarget hdir) hextends hr hsi hfit

end Btrfs.Btree
