import Btrfs.Verification.Btree.SplitLeaf
import Btrfs.Verification.Ctree.Search

/-! # Searching a tree to change it, and what the changes leave behind -/

namespace Btrfs.Btree

open Ctree

variable {nodesize : ℕ} {key : Key} {ret : ℤ} {items : List Item} {path : Cursor}

/-! ## Valid trees -/

/-- A valid tree: only a root may be an empty leaf, and the items are in the order of their
keys. -/
structure Tree.Valid (nodesize : ℕ) (tree : Tree) : Prop where
  shape : tree = ⟨0, []⟩ ∨ tree.root.Valid nodesize
  level_lt : tree.level < BTRFS_MAX_LEVEL
  sorted : SortedItems tree.items

/-! ## The keys of a node -/

theorem sorted_ptrs {level : ℕ} {ptrs : List (Ptr (Block level))}
    (hval : ∀ ptr ∈ ptrs, ptr.Valid nodesize) (hsorted : SortedItems (flat ptrs)) :
    (ptrs.map Ptr.key).Pairwise (· < ·) := by
  induction ptrs with
  | nil => exact List.Pairwise.nil
  | cons ptr ptrs ih =>
    rw [SortedItems, flat, List.flatMap_cons, List.pairwise_append] at hsorted
    obtain ⟨-, ht, hacross⟩ := hsorted
    have hptr := hval ptr (by simp)
    rw [List.map_cons, List.pairwise_cons]
    refine ⟨?_, ih (fun ptr' hptr' => hval ptr' (by simp [hptr'])) ht⟩
    intro key' hkey'
    obtain ⟨ptr', hmem, rfl⟩ := List.mem_map.mp hkey'
    have hptr' := hval ptr' (by simp [hmem])
    have hfirst := hptr.1.lowKey_eq
    have hfirst' := hptr'.1.lowKey_eq
    obtain ⟨item, hi, hkey⟩ := Option.map_eq_some_iff.mp hfirst
    obtain ⟨item', hi', hkey'⟩ := Option.map_eq_some_iff.mp hfirst'
    rw [hptr.2, hptr'.2, ← hkey, ← hkey']
    exact hacross item (List.mem_of_mem_head? hi) item'
      (List.mem_flatMap.mpr ⟨ptr', hmem, List.mem_of_mem_head? hi'⟩)

theorem Ptr.Valid.key_le {level : ℕ} {ptr : Ptr (Block level)} (h : ptr.Valid nodesize)
    (hsorted : SortedItems ptr.child.items) : ∀ item ∈ ptr.child.items, ptr.key ≤ item.key := by
  obtain ⟨first, hfirst, hkey⟩ := Option.map_eq_some_iff.mp h.1.lowKey_eq
  obtain ⟨items, hitems⟩ := List.head?_eq_some_iff.mp hfirst
  rw [hitems] at hsorted ⊢
  rw [h.2, ← hkey]
  exact List.forall_mem_cons.mpr ⟨le_rfl,
    fun item hi => ((List.pairwise_cons.mp hsorted).1 item hi).le⟩

theorem nodeSlot_above {keys : List Key} (hsorted : keys.Pairwise (· < ·)) {slot : ℕ}
    (h : SlotSpec keys key ret slot) :
    ∀ k ∈ keys.drop ((if ret ≠ 0 ∧ 0 < slot then slot - 1 else slot) + 1), key < k := by
  intro k hk
  by_cases hret : ret = 0
  · rw [if_neg (by simp [hret])] at hk
    have habove := h.above
    have hsub : (keys.drop slot).Pairwise (· < ·) := hsorted.drop
    cases hd : keys.drop slot with
    | nil =>
      rw [← List.drop_drop, hd] at hk
      cases hk
    | cons first rest =>
      rw [hd] at habove hsub
      rw [← List.drop_drop, hd] at hk
      exact (habove first (by simp)).trans_lt ((List.pairwise_cons.mp hsub).1 k hk)
  · refine h.lt_of_not_found hsorted hret k ?_
    by_cases hs : 0 < slot
    · rwa [if_pos ⟨hret, hs⟩, Nat.sub_add_cancel hs] at hk
    · rw [if_neg (by simp [hs])] at hk
      exact List.drop_subset_drop_left keys (Nat.le_succ slot) hk

/-! ## Going down from a node -/

variable {level : ℕ} {ptrs : Block (level + 1)} {slot : ℕ} {up : Spine (level + 1)}
  {child : Block level} {before after : List Item}

theorem leads_of_valid (hn : @Block.Valid nodesize (level + 1) ptrs)
    (hup : up.Valid nodesize (nodeKey ptrs 0)) {ptr : Ptr (Block level)}
    (hptr : ptrs[slot]? = some ptr) :
    Leads nodesize ptrs slot up ptr.child (up.before ++ flat (ptrs.take slot))
      (flat (ptrs.drop (slot + 1)) ++ up.after) :=
  ⟨by rw [hptr]; rfl, rfl, rfl, hn, hup⟩

theorem Leads.down (h : Leads nodesize ptrs slot up child before after) :
    ∃ ptr, ptrs[slot]? = some ptr ∧ ptr.child = child ∧ child.Valid nodesize ∧
      (Spine.node (ptrs.take slot).reverse ptr.key (ptrs.drop (slot + 1)) up).Valid nodesize
        child.lowKey ∧
      (Spine.node (ptrs.take slot).reverse ptr.key (ptrs.drop (slot + 1)) up).before = before ∧
      (Spine.node (ptrs.take slot).reverse ptr.key (ptrs.drop (slot + 1)) up).after = after ∧
      (Spine.node (ptrs.take slot).reverse ptr.key (ptrs.drop (slot + 1)) up).fanout =
        ptrs.length := by
  obtain ⟨ptr, hptr, rfl⟩ := Option.map_eq_some_iff.mp h.child_eq
  have hs := h.lt_length
  have hval := h.node_valid.2.2
  have hp : ptrs = (ptrs.take slot).reverse.reverse ++ ptr :: ptrs.drop (slot + 1) := by
    obtain ⟨_, rfl⟩ := List.getElem?_eq_some_iff.mp hptr
    simp
  have hmem : ptr ∈ ptrs := List.mem_of_getElem? hptr
  have hfan : (ptrs.take slot).reverse.length + 1 + (ptrs.drop (slot + 1)).length =
      ptrs.length := by
    rw [List.length_reverse, List.length_take_of_le hs.le, List.length_drop]
    omega
  refine ⟨ptr, hptr, rfl, (hval ptr hmem).1, ⟨(hval ptr hmem).2, ?_, ?_, ?_, ?_⟩, ?_, ?_, hfan⟩
  · intro ptr' hptr'
    exact hval ptr' (List.mem_of_mem_take (List.mem_reverse.mp hptr'))
  · intro ptr' hptr'
    exact hval ptr' (List.mem_of_mem_drop hptr')
  · rw [hfan]
    exact h.node_valid.2.1
  · have hlow := Spine.lowKey_node (ptrs.take slot).reverse ptr (ptrs.drop (slot + 1))
    rw [← hp] at hlow
    rw [← hlow]
    exact h.up_valid
  · rw [Spine.before_node, List.reverse_reverse]
    exact h.before_eq
  · exact h.after_eq

variable {insLen : ℤ} {searchForSplit : Bool}

/-- Before an insertion a node is left with room for new pointers. -/
def HasSpare (nodesize fanout : ℕ) : Prop := fanout + 3 < nodeptrsPerBlock nodesize

theorem prepareNode_spec (hns : 4096 ≤ nodesize) (hinside : 0 < insLen) (searchForSplit : Bool)
    (hl : Leads nodesize ptrs slot up child before after)
    (hspare : HasSpare nodesize up.fanout) :
    prepareNode nodesize insLen searchForSplit ptrs slot up = .error .tooDeep ∧ up = .root ∧
        level + 2 = BTRFS_MAX_LEVEL ∨
      ∃ ptrs' slot' up', prepareNode nodesize insLen searchForSplit ptrs slot up =
          .ok (.node ptrs' slot' up') ∧
        Leads nodesize ptrs' slot' up' child before after ∧ HasSpare nodesize ptrs'.length := by
  unfold prepareNode
  unfold HasSpare at hspare
  by_cases hmany : nodeptrsPerBlock nodesize - 3 ≤ ptrs.length
  · rw [if_pos ⟨.inr hinside, hmany⟩]
    rcases splitNode_spec hns hl hmany (by omega) with
      ⟨heq, hr, hlevel⟩ | ⟨ptrs', slot', up', heq, hl', hfew⟩
    · simp only [heq, bind, Except.bind]
      exact .inl ⟨trivial, hr, hlevel⟩
    · simp only [heq]
      exact .inr ⟨_, _, _, rfl, hl', hfew⟩
  · rw [if_neg (fun h => hmany h.2), if_neg (by omega)]
    refine .inr ⟨_, _, _, rfl, hl, ?_⟩
    unfold HasSpare
    omega

/-! ## The search -/

/-- A path to the place of `key`, whose leaf may still lack the room that is asked for. -/
structure Reached (nodesize : ℕ) (key : Key) (items : List Item) (ret : ℤ) (path : Cursor) :
    Prop where
  items_eq : path.before ++ path.after = items
  below : ∀ item ∈ path.before, item.key < key
  above : ∀ item ∈ path.after, key ≤ item.key
  stands : Stands nodesize key path path.before path.after
  ret_eq : ret = 0 ∧ (∃ item, path.leaf[path.slot]? = some item ∧ item.key = key) ∨
    ret = 1 ∧ ∀ item ∈ path.after, key < item.key
  spare : HasSpare nodesize path.up.fanout
  first : ret = 1 → path.slot = 0 → path.before = []
  leaf_ne : path.leaf = [] → path.up = .root

/-- The results the loop may have below `up`: a path, or the arrays of the path overrun by a new
root. -/
def Descended (nodesize : ℕ) (key : Key) {level : ℕ} (up : Spine level) (items : List Item) :
    Except Stop (ℤ × Cursor) → Prop
  | .ok (ret, path) => Reached nodesize key items ret path
  | .error .tooDeep => up = .root ∧ level + 1 = BTRFS_MAX_LEVEL
  | .error _ => False

theorem keys_buffer_leaf (leaf : List Item) : (@Block.buffer 0 leaf).keys = leaf.map Item.key := rfl

theorem keys_buffer_node {level : ℕ} (ptrs : List (Ptr (Block level))) :
    (@Block.buffer (level + 1) ptrs).keys = ptrs.map Ptr.key := by
  simp [Block.buffer, ExtentBuffer.keys]

theorem checkBlock_leaf {leaf : List Item} {up : Spine 0} (hsorted : SortedItems leaf)
    (hspace : leafSpaceUsed leaf ≤ leafDataSize nodesize)
    (hup : up.Valid nodesize (lowOr leaf key)) :
    @checkBlock nodesize 0 leaf up.parentKey = true := by
  have hcount := length_mul_itemSize_le leaf
  have hns : leafDataSize nodesize ≤ nodesize := Nat.sub_le _ _
  have hf : 0 ≤ btrfsLeafFreeSpace nodesize (@Block.buffer 0 leaf) := by
    rw [show btrfsLeafFreeSpace nodesize (@Block.buffer 0 leaf) = leafFreeSpace nodesize leaf
      from rfl, leafFreeSpace_eq]
    omega
  have hk : (leaf.map Item.key).Pairwise (· < ·) := List.pairwise_map.mpr hsorted
  simp only [checkBlock, btrfsCheckLeaf, ExtentBuffer.nritems, keys_buffer_leaf, List.length_map,
    keysInOrder_of_sorted hk, hf, decide_true, Bool.and_true, Bool.and_eq_true,
    Bool.or_eq_true, decide_eq_true_eq]
  refine ⟨⟨by omega, rfl⟩, ?_⟩
  cases leaf with
  | nil => exact .inl rfl
  | cons item items =>
    cases up with
    | root => exact .inr rfl
    | node left key' right up =>
      obtain rfl : key' = item.key := hup.1
      exact .inr (parentKeyOk_head ((item :: items).map Item.key))

theorem checkBlock_node (hn : @Block.Valid nodesize (level + 1) ptrs)
    (hsorted : SortedItems (flat ptrs)) (hup : up.Valid nodesize (nodeKey ptrs 0)) :
    @checkBlock nodesize (level + 1) ptrs up.parentKey = true := by
  obtain ⟨hne, hlen, hp⟩ := hn
  have hk := sorted_ptrs hp hsorted
  have hpos : ptrs.length ≠ 0 := fun h => hne (List.length_eq_zero_iff.mp h)
  simp only [checkBlock, btrfsCheckNode, ExtentBuffer.nritems, keys_buffer_node, List.length_map,
    keysInOrder_of_sorted hk, Bool.and_true, Bool.and_eq_true, decide_eq_true_eq]
  refine ⟨⟨hpos, hlen⟩, ?_⟩
  cases ptrs with
  | nil => exact absurd rfl hne
  | cons ptr ptrs =>
    cases up with
    | root => rfl
    | node left key' right up =>
      obtain rfl : key' = ptr.key := hup.1
      exact parentKeyOk_head ((ptr :: ptrs).map Ptr.key)

theorem reached_in_leaf {leaf : List Item} {up : Spine 0} {slot : ℕ}
    (hs : SlotSpec (leaf.map Item.key) key ret slot) (hsorted : SortedItems leaf)
    (hspace : leafSpaceUsed leaf ≤ leafDataSize nodesize) (hup : up.Valid nodesize (lowOr leaf key))
    (hbelow : ∀ item ∈ up.before, item.key < key) (habove : ∀ item ∈ up.after, key < item.key)
    (hspare : HasSpare nodesize up.fanout) (hfirst : up.before = [] ∨ itemKey leaf 0 ≤ key)
    (hl : leaf = [] → up = .root) :
    Reached nodesize key (up.before ++ (leaf ++ up.after)) ret ⟨leaf, slot, up⟩ := by
  have hk : (leaf.map Item.key).Pairwise (· < ·) := List.pairwise_map.mpr hsorted
  have hstrict : ret ≠ 0 → ∀ item ∈ leaf.drop slot, key < item.key := by
    intro hret item hi
    refine hs.lt_of_not_found hk hret item.key ?_
    rw [← List.map_drop]
    exact List.mem_map_of_mem hi
  refine ⟨?_, ?_, ?_, ⟨rfl, rfl, by simpa using hs.bound, hspace, hup⟩, ?_, hspare, ?_, hl⟩
  · rw [Cursor.before, Cursor.after, List.append_assoc, ← List.append_assoc (leaf.take slot),
      List.take_append_drop]
  · refine List.forall_mem_append.mpr ⟨hbelow, fun item hi => ?_⟩
    refine hs.below item.key ?_
    rw [← List.map_take]
    exact List.mem_map_of_mem hi
  · intro item hi
    rcases List.mem_append.mp hi with hi | hi
    · refine hs.above item.key ?_
      rw [← List.map_drop]
      exact List.mem_map_of_mem hi
    · exact (habove item hi).le
  · have hret := hs.found
    rw [List.head?_drop, List.getElem?_map] at hret
    by_cases hh : leaf[slot]?.map Item.key = some key
    · rw [if_pos hh] at hret
      exact .inl ⟨hret, Option.map_eq_some_iff.mp hh⟩
    · rw [if_neg hh] at hret
      refine .inr ⟨hret, ?_⟩
      exact List.forall_mem_append.mpr ⟨hstrict (by rw [hret]; decide), habove⟩
  · intro hret hz
    subst hz
    rw [Cursor.before, List.take_zero, List.append_nil]
    by_cases hemp : leaf = []
    · rw [hl hemp]
      rfl
    · refine hfirst.resolve_right ?_
      obtain ⟨item, items, rfl⟩ := List.exists_cons_of_ne_nil hemp
      exact not_le.mpr (hstrict (by rw [hret]; decide) item (by simp))

theorem Reached.slot_lt (h : Reached nodesize key items ret path) (hret : decide (ret = 0) = true) :
    path.slot < path.leaf.length := by
  rcases h.ret_eq with ⟨-, item, hi, -⟩ | ⟨hone, -⟩
  · exact (List.getElem?_eq_some_iff.mp hi).1
  · rw [hone] at hret
    simp at hret

theorem searchSlotLoop_leaf {leaf : List Item} {up : Spine 0}
    (hsorted : SortedItems (up.before ++ (leaf ++ up.after)))
    (hspace : leafSpaceUsed leaf ≤ leafDataSize nodesize)
    (hup : up.Valid nodesize (lowOr leaf key)) (hbelow : ∀ item ∈ up.before, item.key < key)
    (habove : ∀ item ∈ up.after, key < item.key)
    (hspare : HasSpare nodesize up.fanout)
    (hfirst : up.before = [] ∨ itemKey leaf 0 ≤ key) (hl : leaf = [] → up = .root) :
    Descended nodesize key up (up.before ++ (leaf ++ up.after))
      (@searchSlotLoop nodesize key insLen searchForSplit 0 leaf up) := by
  have hsortedLeaf : SortedItems leaf :=
    (List.pairwise_append.mp (List.pairwise_append.mp hsorted).2.1).1
  have hk : (leaf.map Item.key).Pairwise (· < ·) := List.pairwise_map.mpr hsortedLeaf
  have hs := @binSearch_spec (@Block.buffer 0 leaf) hk key
  obtain ⟨ret, slot, hbin⟩ : ∃ ret slot, binSearch (@Block.buffer 0 leaf) key = (ret, slot) :=
    ⟨_, _, rfl⟩
  rw [hbin] at hs
  rw [searchSlotLoop, if_pos (checkBlock_leaf hsortedLeaf hspace hup), hbin]
  exact reached_in_leaf hs hsortedLeaf hspace hup hbelow habove hspare hfirst hl

/-- The result of a search further down, where no new root can be needed any more. -/
theorem Descended.of_below {level level' : ℕ} {up : Spine level} {up' : Spine level'}
    {result : Except Stop (ℤ × Cursor)} (h : Descended nodesize key up' items result)
    (hr : up' ≠ .root) :
    Descended nodesize key up items result := by
  match result with
  | .ok (ret, path) => exact h
  | .error .tooDeep => exact absurd h.1 hr
  | .error (.ret ret tree) => exact h
  | .error .bug => exact h

theorem nodeSlot_items (hn : @Block.Valid nodesize (level + 1) ptrs)
    (hsorted : SortedItems (flat ptrs)) (hs : SlotSpec (ptrs.map Ptr.key) key ret slot) :
    ∃ ptr, ptrs[if ret ≠ 0 ∧ 0 < slot then slot - 1 else slot]? = some ptr ∧ ptr.Valid nodesize ∧
      (∀ item ∈ flat (ptrs.take (if ret ≠ 0 ∧ 0 < slot then slot - 1 else slot)), item.key < key) ∧
      (∀ item ∈ flat (ptrs.drop ((if ret ≠ 0 ∧ 0 < slot then slot - 1 else slot) + 1)),
        key < item.key) ∧
      (ptr.key ≤ key ∨ (if ret ≠ 0 ∧ 0 < slot then slot - 1 else slot) = 0) := by
  obtain ⟨hne, -, hp⟩ := hn
  have hk := sorted_ptrs hp hsorted
  obtain ⟨hlt, hle, -⟩ := nodeSlot_spec (by simpa using hne) hs
  have habove := nodeSlot_above hk hs
  obtain ⟨slot', hs'⟩ : ∃ slot', slot' = if ret ≠ 0 ∧ 0 < slot then slot - 1 else slot := ⟨_, rfl⟩
  simp only [← hs', List.length_map, List.getElem_map] at hlt hle habove ⊢
  have hget := List.getElem?_eq_getElem hlt
  have hsplit : ptrs = ptrs.take slot' ++ ptrs[slot'] :: ptrs.drop (slot' + 1) := by simp
  have hptr := hp _ (List.getElem_mem hlt)
  obtain ⟨first, hfirst, hkey⟩ := Option.map_eq_some_iff.mp hptr.1.lowKey_eq
  have hfirstMem := List.mem_of_mem_head? hfirst
  rw [hsplit, SortedItems, flat, List.flatMap_append, List.flatMap_cons, List.pairwise_append,
    List.pairwise_append] at hsorted
  obtain ⟨-, ⟨-, ht, -⟩, hacross⟩ := hsorted
  refine ⟨_, hget, hptr, ?_, ?_, (hle hlt).symm⟩
  · intro item hi
    rcases hle hlt with hz | hle
    · rw [hz] at hi
      cases hi
    · refine lt_of_lt_of_le ?_ hle
      rw [hptr.2, ← hkey]
      exact hacross item hi first (by simp [hfirstMem])
  · intro item hi
    obtain ⟨ptr, hmem, hch⟩ := List.mem_flatMap.mp hi
    have hval : ptr.Valid nodesize := hp ptr (List.mem_of_mem_drop hmem)
    have hbelow : key < ptr.key := by
      refine habove ptr.key ?_
      rw [← List.map_drop]
      exact List.mem_map_of_mem hmem
    refine hbelow.trans_le (hval.key_le ?_ item hch)
    obtain ⟨left, right, hmid⟩ := List.append_of_mem hmem
    rw [hmid, List.flatMap_append, List.flatMap_cons, List.pairwise_append,
      List.pairwise_append] at ht
    exact ht.2.1.1

theorem searchSlotLoop_spec (hns : 4096 ≤ nodesize) (key : Key) (hinside : 0 < insLen)
    (searchForSplit : Bool) :
    ∀ {level : ℕ} {block : Block level} {up : Spine level}, block.Valid nodesize →
      up.Valid nodesize block.lowKey →
      SortedItems (up.before ++ (block.items ++ up.after)) →
      (∀ item ∈ up.before, item.key < key) → (∀ item ∈ up.after, key < item.key) →
      HasSpare nodesize up.fanout →
      (up.before = [] ∨ block.lowKey ≤ key) →
      Descended nodesize key up (up.before ++ (block.items ++ up.after))
        (searchSlotLoop nodesize key insLen searchForSplit block up) := by
  intro level
  induction level with
  | zero =>
    intro leaf up hval hup hsrt hbelow habove hspare hfirst
    refine searchSlotLoop_leaf hsrt hval.2 ?_ hbelow habove hspare hfirst (fun h => absurd h hval.1)
    rw [items_leaf, lowOr_eq_itemKey hval.1]
    exact hup
  | succ level ih =>
    intro ptrs up hval hup hsrt hbelow habove hspare hfirst
    have hsortedNode : SortedItems (flat ptrs) :=
      (List.pairwise_append.mp (List.pairwise_append.mp hsrt).2.1).1
    have hk := sorted_ptrs hval.2.2 hsortedNode
    obtain ⟨ret, slot, hbin⟩ : ∃ ret slot,
      binSearch (@Block.buffer (level + 1) ptrs) key = (ret, slot) := ⟨_, _, rfl⟩
    have hs := @binSearch_spec (@Block.buffer (level + 1) ptrs) (by rwa [keys_buffer_node]) key
    rw [hbin, keys_buffer_node] at hs
    obtain ⟨ptr, hptr, hptrValid, hl, hright, hle⟩ := nodeSlot_items hval hsortedNode hs
    rw [searchSlotLoop, if_pos (checkBlock_node hval hsortedNode hup), hbin]
    obtain ⟨slot', hs'⟩ : ∃ slot', slot' = if ret ≠ 0 ∧ 0 < slot then slot - 1 else slot := ⟨_, rfl⟩
    simp only [← hs'] at hptr hl hright hle ⊢
    have hlead := leads_of_valid hval hup hptr
    have hsides : up.before ++ (flat ptrs ++ up.after) = up.before ++ flat (ptrs.take slot') ++
          (ptr.child.items ++ (flat (ptrs.drop (slot' + 1)) ++ up.after)) := by
      obtain ⟨hlt, rfl⟩ := List.getElem?_eq_some_iff.mp hptr
      have hcut : ptrs = ptrs.take slot' ++ ptrs[slot'] :: ptrs.drop (slot' + 1) := by simp
      have hflat := congrArg flat hcut
      rw [flat, flat, List.flatMap_append, List.flatMap_cons] at hflat
      simp [hflat]
    have hbelow' : ∀ item ∈ up.before ++ flat (ptrs.take slot'), item.key < key := by
      exact List.forall_mem_append.mpr ⟨hbelow, hl⟩
    have habove' : ∀ item ∈ flat (ptrs.drop (slot' + 1)) ++ up.after, key < item.key := by
      exact List.forall_mem_append.mpr ⟨hright, habove⟩
    have hfirst' : up.before ++ flat (ptrs.take slot') = [] ∨ ptr.child.lowKey ≤ key := by
      rw [← hptrValid.2]
      rcases hle with hle | hz
      · exact .inr hle
      · rw [hz, List.take_zero, flat, List.flatMap_nil, List.append_nil]
        rw [hz] at hptr
        rw [show @Block.lowKey (level + 1) ptrs = ptr.key by
          simp [Block.lowKey, nodeKey, hptr]] at hfirst
        exact hfirst
    rw [items_node, hsides] at hsrt
    rw [items_node, hsides]
    rcases prepareNode_spec hns hinside searchForSplit hlead hspare with
      ⟨heq, hr, hlevel⟩ | ⟨ptrs', slot'', up', heq, hl', hspare'⟩
    · simp only [heq]
      exact ⟨hr, hlevel⟩
    · simp only [heq, bind, Except.bind]
      obtain ⟨ptr', hptr', hch, -, hspine, hbefore, hafter, hfan⟩ := hl'.down
      rw [hptr']
      simp only [hch]
      have hbelow'' := hbelow'
      rw [← hbefore] at hsrt hbelow'' hfirst' ⊢
      rw [← hafter] at hsrt habove' ⊢
      exact Descended.of_below (ih hptrValid.1 hspine hsrt hbelow'' habove' (hfan ▸ hspare')
        hfirst') (fun h => by cases h)

theorem hasSpare_root (hns : 4096 ≤ nodesize) : HasSpare nodesize (.root : Spine level).fanout := by
  have := nodeptrsPerBlock_ge hns
  simp only [HasSpare, Spine.fanout]
  omega

theorem searchSlotLoop_tree (hns : 4096 ≤ nodesize) {tree : Tree}
    (ht : tree.Valid nodesize) (key : Key) (hinside : 0 < insLen) (searchForSplit : Bool) :
    Descended nodesize key (.root : Spine tree.level) tree.items
      (searchSlotLoop nodesize key insLen searchForSplit tree.root .root) := by
  have hsorted := ht.sorted
  rcases ht.shape with rfl | hval
  · exact @searchSlotLoop_leaf nodesize key insLen searchForSplit [] .root List.Pairwise.nil
      (by simp) ht.level_lt (by simp) (by simp) (hasSpare_root hns) (.inl rfl)
      (fun _ => rfl)
  · have hs := searchSlotLoop_spec hns key hinside searchForSplit hval
      (show Spine.Valid nodesize .root _ from ht.level_lt)
      (by simpa [Tree.items] using hsorted) (by simp) (by simp) (hasSpare_root hns)
      (.inl rfl)
    simpa [Tree.items] using hs

theorem splitLeaf_nil (hnil : path.leaf = []) (hr : path.up = .root) {dataSize : ℕ}
    (hs : 0 < dataSize) (hfit : dataSize ≤ leafDataSize nodesize)
    (ht : key.type ≠ BTRFS_DIR_ITEM_KEY) :
    splitLeaf nodesize key dataSize false path = .ok path := by
  have hf : (dataSize : ℤ) ≤ leafFreeSpace nodesize path.leaf := by
    rw [leafFreeSpace_eq, hnil, leafSpaceUsed_nil]
    omega
  rw [splitLeaf, if_neg (by simp), if_pos ⟨hs.ne', ht⟩]
  simp only [pushForSplit, pushLeafRight, pushLeafLeft, hr, bind, Except.bind,
    Option.getD_none, if_pos hf]

theorem Reached.splitLeaf (hns : 4096 ≤ nodesize) (h : Reached nodesize key items ret path)
    (dataSize : ℕ) (hs : 0 < dataSize) (htarget : key.type = BTRFS_DIR_ITEM_KEY →
      leafDataSize nodesize < leafSpaceUsed path.leaf + dataSize)
    (hfit : decide (ret = 0) = false → dataSize ≤ leafDataSize nodesize) :
    (∃ item, ret = 0 ∧ path.leaf[path.slot]? = some item ∧ item.key = key ∧
        leafDataSize nodesize < dataSize + item.data.length + itemSize ∧
        splitLeaf nodesize key dataSize (decide (ret = 0)) path =
          .error (.ret (-eoverflow) path.tree)) ∨
      ∃ path', splitLeaf nodesize key dataSize (decide (ret = 0)) path = .ok path' ∧
        HasRoom nodesize key dataSize (decide (ret = 0)) path' path.before path.after := by
  by_cases hnil : path.leaf = []
  · have hret : decide (ret = 0) = false := by
      by_contra hfound
      have := h.slot_lt (by simpa using hfound)
      simp [hnil] at this
    have hle := hfit hret
    rw [hnil, leafSpaceUsed_nil] at htarget
    rw [hret]
    refine .inr ⟨path, splitLeaf_nil hnil (h.leaf_ne hnil) hs hle ?_, h.stands, ?_, by simp⟩
    · omega
    · rw [hnil, leafSpaceUsed_nil]
      omega
  · rcases splitLeaf_spec hns h.stands hnil htarget h.slot_lt
        h.spare hs hfit with ⟨item, hextent, hi, ho, heq⟩ | hr
    · have hret : ret = 0 := by simpa using hextent
      refine .inl ⟨item, hret, hi, ?_, ho, heq⟩
      rcases h.ret_eq with ⟨-, item', hi', hkey⟩ | ⟨hone, -⟩
      · obtain rfl : item' = item := Option.some.inj (hi'.symm.trans hi)
        exact hkey
      · rw [hret] at hone
        cases hone
    · exact .inr hr

/-! ## What the changes of a tree leave behind -/

variable {nodesize : ℕ} {key : Key} {dataSize : ℕ}

/-! ## Room in a leaf -/

/-- The path `path'` that `split_leaf` leaves for a `path` found for `key`. -/
structure MadeRoom (nodesize : ℕ) (key : Key) (dataSize : ℕ) (extend : Bool)
    (path path' : Cursor) : Prop where
  room : (dataSize : ℤ) ≤ leafFreeSpace nodesize path'.leaf
  slot_le : path'.slot ≤ path'.leaf.length
  -- every key above is the first key below it; a leaf without items goes by the new key
  keys_valid : path'.up.Valid nodesize (lowOr path'.leaf key)
  items_eq : path'.tree.items = path.tree.items
  insert_place : extend = false → (∀ item ∈ path'.before, item.key < key) ∧
    ∀ item ∈ path'.after, key < item.key
  extend_item : extend = true → ∃ item, path.leaf[path.slot]? = some item ∧
    path'.leaf[path'.slot]? = some item ∧ path'.before = path.before

theorem Reached.madeRoom {items : List Item} {ret : ℤ} {path path' : Cursor}
    (h : Reached nodesize key items ret path)
    (hr : HasRoom nodesize key dataSize (decide (ret = 0)) path' path.before path.after) :
    MadeRoom nodesize key dataSize (decide (ret = 0)) path path' := by
  have hstands := hr.stands
  refine ⟨?_, hstands.slot_le, hstands.up_valid, ?_, ?_, ?_⟩
  · have := hr.room
    rw [leafFreeSpace_eq]
    omega
  · rw [Cursor.items_tree, Cursor.items_tree, hstands.before_eq, hstands.after_eq]
  · intro hinside
    rw [hstands.before_eq, hstands.after_eq]
    refine ⟨h.below, ?_⟩
    rcases h.ret_eq with ⟨hret, -⟩ | ⟨-, habove⟩
    · simp [hret] at hinside
    · exact habove
  · intro hextent
    have hs := h.slot_lt hextent
    refine ⟨path.leaf[path.slot], List.getElem?_eq_getElem hs, ?_, hstands.before_eq⟩
    rw [hstands.head?_after (hr.slot_lt hextent), ← h.stands.head?_after hs]
    exact List.getElem?_eq_getElem hs

/-- `split_leaf` makes room on every path that the loop of `btrfs_search_slot` ends with, and
never runs into one of its `BUG_ON`s. The one failure is that of an item which would outgrow a
leaf; nothing is changed then. Only keys of directory items need a leaf without room to begin
with, as `btrfs_search_slot` sees to: no push is tried for them. -/
theorem splitLeaf_makes_room (hnodesize : 4096 ≤ nodesize) {tree : Tree}
    (htree : tree.Valid nodesize) (hsize : 0 < dataSize) {ret : ℤ} {path : Cursor}
    (hpath : searchSlotLoop nodesize key dataSize false tree.root .root = .ok (ret, path))
    (hfit : ret ≠ 0 → dataSize ≤ leafDataSize nodesize)
    (htight : key.type = BTRFS_DIR_ITEM_KEY → leafFreeSpace nodesize path.leaf < dataSize) :
    path.tree.items = tree.items ∧
      ((∃ path', splitLeaf nodesize key dataSize (decide (ret = 0)) path = .ok path' ∧
          MadeRoom nodesize key dataSize (decide (ret = 0)) path path') ∨
        ∃ item, ret = 0 ∧ path.leaf[path.slot]? = some item ∧
          leafDataSize nodesize < dataSize + item.data.length + itemSize ∧
          splitLeaf nodesize key dataSize (decide (ret = 0)) path =
            .error (.ret (-eoverflow) path.tree)) := by
  have hreach := searchSlotLoop_tree hnodesize htree key (Int.natCast_pos.mpr hsize) false
  rw [hpath] at hreach
  refine ⟨?_, ?_⟩
  · rw [Cursor.items_tree]
    exact hreach.items_eq
  · rcases hreach.splitLeaf hnodesize dataSize hsize
        (fun hdir => by have := htight hdir; rw [leafFreeSpace_eq] at this; omega)
        (fun hret => hfit (by simpa using hret)) with
      ⟨item, hret, hi, -, ho, heq⟩ | ⟨path', heq, hr⟩
    · exact .inr ⟨item, hret, hi, ho, heq⟩
    · exact .inl ⟨path', heq, hreach.madeRoom hr⟩

/-- A leaf of 4096 bytes with one item of one byte, and an insertion that needs nearly all of a
leaf. -/
theorem splitLeaf_makes_room_for_second :
    ∃ path', splitLeaf 4096 ⟨2, 1, 0⟩ 3990 false ⟨[⟨⟨1, 1, 0⟩, [7]⟩], 1, .root⟩ = .ok path' ∧
      MadeRoom 4096 ⟨2, 1, 0⟩ 3990 false ⟨[⟨⟨1, 1, 0⟩, [7]⟩], 1, .root⟩ path' := by
  have hval : Tree.Valid 4096 ⟨0, [⟨⟨1, 1, 0⟩, [7]⟩]⟩ :=
    ⟨.inr ⟨by simp, by decide⟩, by decide, by simp [SortedItems, Tree.items]⟩
  rcases (@splitLeaf_makes_room 4096 ⟨2, 1, 0⟩ 3990 (by decide) _ hval (by decide) 1
      ⟨[⟨⟨1, 1, 0⟩, [7]⟩], 1, .root⟩ rfl (fun _ => by decide) (fun _ => by decide)).2 with
    h | ⟨item, hret, -⟩
  · exact h
  · cases hret

end Btrfs.Btree
