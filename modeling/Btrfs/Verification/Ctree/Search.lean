import Btrfs.Verification.Ctree.Order

/-! # Valid trees and positions in them -/

namespace Btrfs.Ctree

variable {ps : List KeyPtr} {items : List Item}

def firstKey (items : List Item) : Option Key := items.head?.map Item.key

/-- The items below a run of pointers: each pointer carries the first key of its child. -/
inductive Children (child : ℕ → List Item → Prop) : List KeyPtr → List Item → Prop where
  | nil : Children child [] []
  | cons {p : KeyPtr} {ps : List KeyPtr} {items rest : List Item} :
      child p.blockptr items → firstKey items = some p.key → Children child ps rest →
      Children child (p :: ps) (items ++ rest)

/-- The block `bytenr` is the root of a well-formed subtree of the given level that holds
`items`. All leaves below it have the same depth. -/
def Subtree (nodesize : ℕ) (blocks : Blocks) : ℕ → ℕ → List Item → Prop
  | 0, bytenr, items => ∃ eb, blocks bytenr = some eb ∧ eb.level = 0 ∧ eb.items = items ∧
      leafSpaceUsed items ≤ leafDataSize nodesize
  | level + 1, bytenr, items => ∃ eb, blocks bytenr = some eb ∧ eb.level = level + 1 ∧
      eb.ptrs ≠ [] ∧ eb.ptrs.length ≤ nodeptrsPerBlock nodesize ∧
      Children (Subtree nodesize blocks level) eb.ptrs items

def SortedItems (items : List Item) : Prop := items.Pairwise fun a b => a.key < b.key

/-- A valid tree: every block can be read, and the level of the root is below
`BTRFS_MAX_LEVEL`, as `check_tree_block` requires. -/
structure ValidTree (nodesize : ℕ) (blocks : Blocks) (root : ℕ) (items : List Item) : Prop where
  subtree : ∃ level < BTRFS_MAX_LEVEL, Subtree nodesize blocks level root items
  sorted : SortedItems items

/-- Where a path stands in a subtree: the items of the leaves before its leaf, those of its
leaf before and from its slot on, and the items of the leaves behind. -/
inductive Cursor (nodesize : ℕ) (blocks : Blocks) (path : Path) :
    ℕ → ℕ → List Item → List Item → List Item → List Item → Prop where
  | leaf {b : ℕ} {before after : List Item} (node : path.nodes 0 = some b)
      (slot : path.slots 0 = before.length)
      (subtree : Subtree nodesize blocks 0 b (before ++ after)) :
      Cursor nodesize blocks path 0 b [] before after []
  | node {l b : ℕ} {eb : ExtentBuffer} {ps qs : List KeyPtr} {p : KeyPtr}
      {left pre before after post right : List Item} (node : path.nodes (l + 1) = some b)
      (block : blocks b = some eb) (level : eb.level = l + 1) (ptrs : eb.ptrs = ps ++ p :: qs)
      (full : eb.ptrs.length ≤ nodeptrsPerBlock nodesize)
      (slot : path.slots (l + 1) = ps.length)
      (lefts : Children (Subtree nodesize blocks l) ps left)
      (child : Cursor nodesize blocks path l p.blockptr pre before after post)
      (key : firstKey (pre ++ before ++ after ++ post) = some p.key)
      (rights : Children (Subtree nodesize blocks l) qs right) :
      Cursor nodesize blocks path (l + 1) b (left ++ pre) before after (post ++ right)

/-! ## Children -/

section

variable {child : ℕ → List Item → Prop}

theorem Children.append {qs : List KeyPtr} {left right : List Item} (hl : Children child ps left)
    (hright : Children child qs right) :
    Children child (ps ++ qs) (left ++ right) := by
  induction hl with
  | nil => exact hright
  | cons hch hkey _ ih =>
    rw [List.append_assoc]
    exact .cons hch hkey ih

theorem Children.split {qs : List KeyPtr} (h : Children child (ps ++ qs) items) :
    ∃ left right, items = left ++ right ∧ Children child ps left ∧ Children child qs right := by
  induction ps generalizing items with
  | nil => exact ⟨[], items, rfl, .nil, h⟩
  | cons p ps ih =>
    cases h with
    | cons hch hkey hre =>
      obtain ⟨left, right, rfl, hl, hr⟩ := ih hre
      exact ⟨_, right, (List.append_assoc _ _ _).symm, .cons hch hkey hl, hr⟩

section

variable (h : Children child ps items)

include h

theorem Children.eq_nil_iff : items = [] ↔ ps = [] := by
  cases h with
  | nil => simp
  | cons hch hkey _ =>
    constructor
    · intro hnil
      rw [(List.append_eq_nil_iff.mp hnil).1] at hkey
      cases hkey
    · intro hnil
      cases hnil

theorem Children.head_key : firstKey items = ps.head?.map KeyPtr.key := by
  cases h with
  | nil => rfl
  | @cons p ps items rest hch hkey _ =>
    cases items with
    | nil => cases hkey
    | cons x xs => exact hkey

theorem Children.key_le (hsorted : SortedItems items) : ∀ x ∈ items, ∃ p ∈ ps, p.key ≤ x.key := by
  induction h with
  | nil => simp
  | @cons p ps items rest hch hkey hr ih =>
    intro x hx
    rw [SortedItems, List.pairwise_append] at hsorted
    rcases List.mem_append.mp hx with hx | hx
    · refine ⟨p, by simp, ?_⟩
      cases items with
      | nil => cases hx
      | cons y ys =>
        have hy : y.key = p.key := Option.some.inj hkey
        rw [← hy]
        rcases List.mem_cons.mp hx with rfl | hx
        · exact le_rfl
        · exact ((List.pairwise_cons.mp hsorted.1).1 x hx).le
    · obtain ⟨q, hq, hle⟩ := ih hsorted.2.1 x hx
      exact ⟨q, List.mem_cons_of_mem p hq, hle⟩

theorem Children.mem_key : ∀ p ∈ ps, ∃ x ∈ items, x.key = p.key := by
  induction h with
  | nil => simp
  | @cons p ps items rest hch hkey hr ih =>
    intro q hq
    rcases List.mem_cons.mp hq with rfl | hq
    · cases items with
      | nil => cases hkey
      | cons y ys => exact ⟨y, by simp, Option.some.inj hkey⟩
    · obtain ⟨x, hx, hkey⟩ := ih q hq
      exact ⟨x, by simp [hx], hkey⟩

theorem Children.sorted_keys (hsrt : SortedItems items) : (ps.map KeyPtr.key).Pairwise (· < ·) := by
  induction h with
  | nil => exact List.Pairwise.nil
  | @cons p ps items rest hch hkey hr ih =>
    rw [SortedItems, List.pairwise_append] at hsrt
    rw [List.map_cons, List.pairwise_cons]
    refine ⟨?_, ih hsrt.2.1⟩
    intro k hk
    obtain ⟨q, hq, rfl⟩ := List.mem_map.mp hk
    obtain ⟨x, hx, hxkey⟩ := hr.mem_key q hq
    cases items with
    | nil => cases hkey
    | cons y ys =>
      have hy : y.key = p.key := Option.some.inj hkey
      rw [← hy, ← hxkey]
      exact hsrt.2.2 y (by simp) x hx

end

end

/-! ## Where `btrfs_search_slot` leaves its path -/

variable {nodesize : ℕ} {blocks : Blocks} {b l : ℕ} {eb : ExtentBuffer} {items : List Item}
  {path : Path}

/-! ## Blocks of a valid tree -/

theorem buffer_eq (h : blocks b = some eb) : blocks.buffer b = eb := by simp [Blocks.buffer, h]

theorem keys_of_leaf (h : eb.level = 0) : eb.keys = eb.items.map Item.key := by
  simp [ExtentBuffer.keys, h]

theorem keys_of_node (h : eb.level = l + 1) : eb.keys = eb.ptrs.map KeyPtr.key := by
  simp [ExtentBuffer.keys, h]

theorem Subtree.block (h : Subtree nodesize blocks l b items) (hsorted : SortedItems items) :
    ∃ eb, blocks b = some eb ∧ eb.level = l ∧ eb.keys.Pairwise (· < ·) ∧
      eb.keys.head? = firstKey items := by
  cases l with
  | zero =>
    obtain ⟨eb, hblock, hlevel, rfl, -⟩ := h
    refine ⟨eb, hblock, hlevel, ?_, ?_⟩
    · rw [keys_of_leaf hlevel, List.pairwise_map]
      exact hsorted
    · rw [keys_of_leaf hlevel, List.head?_map]
      rfl
  | succ l =>
    obtain ⟨eb, hblock, hlevel, -, -, hchildren⟩ := h
    refine ⟨eb, hblock, hlevel, ?_, ?_⟩
    · rw [keys_of_node hlevel]
      exact hchildren.sorted_keys hsorted
    · rw [keys_of_node hlevel, List.head?_map, hchildren.head_key]

variable {keys : List Key} {ps qs : List KeyPtr} {p : KeyPtr} {path' : Path} {l' : ℕ}

theorem keysInOrder_of_sorted (h : keys.Pairwise (· < ·)) (n : ℕ) : keysInOrder keys n = true := by
  unfold keysInOrder
  rw [List.all_eq_true]
  intro i _
  split
  · rename_i k1 k2 h1 h2
    obtain ⟨hi, rfl⟩ := List.getElem?_eq_some_iff.mp h1
    obtain ⟨hi', rfl⟩ := List.getElem?_eq_some_iff.mp h2
    rw [decide_eq_true_eq, btrfsCompCpuKeys_neg]
    exact List.pairwise_iff_getElem.mp h i (i + 1) hi hi' (Nat.lt_succ_self i)
  · rfl

theorem parentKeyOk_head (keys : List Key) : parentKeyOk keys.head? keys = true := by
  unfold parentKeyOk
  cases keys.head? with
  | none => rfl
  | some key => simp

theorem length_mul_itemSize_le (items : List Item) :
    items.length * itemSize ≤ leafSpaceUsed items := by
  induction items with
  | nil => simp [leafSpaceUsed]
  | cons x xs ih =>
    unfold leafSpaceUsed at ih ⊢
    rw [List.length_cons, List.map_cons, List.sum_cons, Nat.succ_mul]
    omega

/-- The parent of the block in the path, if there is one, carries its first key. -/
def ParentKey (blocks : Blocks) (path : Path) (l : ℕ) (items : List Item) : Prop :=
  ∀ parent, path.nodes (l + 1) = some parent →
    (blocks.buffer parent).keys[path.slots (l + 1)]? = firstKey items

theorem Subtree.checkBlock_ok (h : Subtree nodesize blocks l b items) (hsorted : SortedItems items)
    (path : Path) (hn : path.nodes l = some b) (hparent : ParentKey blocks path l items) :
    checkBlock nodesize blocks path l = true := by
  obtain ⟨eb, hblock, hlevel, hk, hh⟩ := h.block hsorted
  have hkeyOk : parentKeyOk ((path.nodes (l + 1)).bind fun parent =>
      (blocks.buffer parent).keys[path.slots (l + 1)]?) eb.keys = true := by
    cases hparity : path.nodes (l + 1) with
    | none => rfl
    | some parent =>
      rw [Option.bind_some, hparent parent hparity, ← hh]
      exact parentKeyOk_head eb.keys
  have horder := keysInOrder_of_sorted hk
  unfold checkBlock
  simp only [hn, buffer_eq hblock]
  cases l with
  | zero =>
    obtain ⟨eb', hblock', -, hitems, hspace⟩ := h
    rw [hblock] at hblock'
    cases hblock'
    have hcount := length_mul_itemSize_le items
    have hnr : eb.nritems = items.length := by
      rw [ExtentBuffer.nritems, keys_of_leaf hlevel, List.length_map, hitems]
    have hs : eb.nritems * itemSize ≤ nodesize := by
      rw [hnr]
      unfold leafDataSize at hspace
      omega
    have hf : 0 ≤ btrfsLeafFreeSpace nodesize eb := by
      unfold btrfsLeafFreeSpace
      rw [hitems]
      omega
    simp [btrfsCheckLeaf, hs, hlevel, hf, hkeyOk, horder]
  | succ l =>
    obtain ⟨eb', hblock', -, hne, hfu, -⟩ := h
    rw [hblock] at hblock'
    cases hblock'
    have hnr : eb.nritems = eb.ptrs.length := by
      rw [ExtentBuffer.nritems, keys_of_node hlevel, List.length_map]
    simp [btrfsCheckNode, hkeyOk, horder, hnr, hne, hfu]

/-! ## The slot in a node -/

/-- The pointer followed from a node: items to its left lie below the key, items to its right
do not. -/
theorem nodeSlot_spec (hne : keys ≠ []) {key : Key} {ret : ℤ} {slot : ℕ}
    (h : SlotSpec keys key ret slot) :
    let slot' := if ret ≠ 0 ∧ 0 < slot then slot - 1 else slot
    slot' < keys.length ∧ (∀ (hlt : slot' < keys.length), slot' = 0 ∨ keys[slot'] ≤ key) ∧
      (∀ k ∈ keys.drop (slot' + 1), key ≤ k) := by
  have hpos : 0 < keys.length := List.length_pos_iff.mpr hne
  have hbound := h.bound
  intro slot'
  by_cases hback : ret ≠ 0 ∧ 0 < slot
  · have hs : slot' = slot - 1 := if_pos hback
    have hlt : slot' < keys.length := by omega
    refine ⟨hlt, fun _ => Or.inr ?_, ?_⟩
    · apply (h.below _ _).le
      rw [List.mem_take_iff_getElem]
      exact ⟨slot', by omega, rfl⟩
    · have hsucc : slot' + 1 = slot := by omega
      rw [hsucc]
      exact h.above
  · have hs : slot' = slot := if_neg hback
    rw [hs]
    have ht : ∀ k ∈ keys.drop (slot + 1), key ≤ k := fun k hk =>
      h.above k (List.drop_subset_drop_left keys (Nat.le_succ slot) hk)
    by_cases hz : ret = 0
    · have hh : (keys.drop slot).head? = some key := by
        by_contra hnot
        have hret := h.found
        rw [if_neg hnot, hz] at hret
        cases hret
      rw [List.head?_drop] at hh
      obtain ⟨hlt, heq⟩ := List.getElem?_eq_some_iff.mp hh
      exact ⟨hlt, fun _ => Or.inr heq.le, ht⟩
    · have h0 : slot = 0 := by omega
      exact ⟨by omega, fun _ => Or.inl h0, ht⟩

/-! ## The descent -/

theorem readNodeSlot_eq (hblock : blocks b = some eb) (hlevel : eb.level = l + 1)
    (hp : eb.ptrs = ps ++ p :: qs) (hch : Subtree nodesize blocks l p.blockptr items) :
    readNodeSlot blocks b ps.length = some p.blockptr := by
  have hget : eb.ptrs[ps.length]? = some p := by simp [hp]
  have hnr : ¬ eb.nritems ≤ ps.length := by
    rw [ExtentBuffer.nritems, keys_of_node hlevel, hp]
    simp
  obtain ⟨child, hr, hlow⟩ : ∃ child, blocks p.blockptr = some child ∧ child.level = l := by
    cases l with
    | zero =>
      obtain ⟨child, hr, hlow, -⟩ := hch
      exact ⟨child, hr, hlow⟩
    | succ l =>
      obtain ⟨child, hr, hlow, -⟩ := hch
      exact ⟨child, hr, hlow⟩
  unfold readNodeSlot
  simp [buffer_eq hblock, hnr, hlevel, hget, hr, hlow]

def SameAbove (l : ℕ) (path path' : Path) : Prop :=
  ∀ level, l < level → path'.nodes level = path.nodes level ∧ path'.slots level = path.slots level

theorem SameAbove.trans {path'' : Path} (h1 : SameAbove l path path')
    (h2 : SameAbove l path' path'') : SameAbove l path path'' := by
  intro level hlevel
  rw [(h2 level hlevel).1, (h2 level hlevel).2]
  exact h1 level hlevel

theorem SameAbove.mono (hle : l ≤ l') (h : SameAbove l path path') : SameAbove l' path path' :=
  fun level hlevel => h level (by omega)

theorem sameAbove_set (path : Path) (node slot : ℕ) (h : l' ≤ l) :
    SameAbove l path (path.set l' node slot) := by
  intro level hlevel
  have hne : level ≠ l' := by omega
  exact ⟨Function.update_of_ne hne _ _, Function.update_of_ne hne _ _⟩

@[simp] theorem set_nodes_self (path : Path) (l node slot : ℕ) :
    (path.set l node slot).nodes l = some node := Function.update_self _ _ _

@[simp] theorem set_slots_self (path : Path) (l node slot : ℕ) :
    (path.set l node slot).slots l = slot := Function.update_self _ _ _

/-- The path stands at the first item from the key on. It is at the first slot of a leaf only if
this is the first leaf or the key is there. -/
structure Found (nodesize : ℕ) (blocks : Blocks) (key : Key) (l b : ℕ) (items : List Item)
    (path : Path) (ret : ℤ) (path' : Path) : Prop where
  above : SameAbove l path path'
  cursor : ∃ pre before after post, items = pre ++ before ++ after ++ post ∧
    Cursor nodesize blocks path' l b pre before after post ∧
    (∀ x ∈ pre ++ before, x.key < key) ∧ (∀ x ∈ after ++ post, key ≤ x.key) ∧
    (before = [] → pre = [] ∨ firstKey (after ++ post) = some key) ∧
    ret = if firstKey after = some key then 0 else 1

theorem searchSlotLoop_leaf {b : ℕ} {items : List Item} (h : Subtree nodesize blocks 0 b items)
    (hsorted : SortedItems items) (key : Key) {path : Path}
    (hparity : ParentKey blocks path 0 items) :
    ∃ ret path', searchSlotLoop nodesize blocks key 1 path b = (ret, path') ∧
      Found nodesize blocks key 0 b items path ret path' := by
  obtain ⟨eb, hblock, hlevel, hk, -⟩ := h.block hsorted
  obtain ⟨eb', hblock', -, hitems, -⟩ := id h
  rw [hblock] at hblock'
  cases hblock'
  have hcheck := h.checkBlock_ok hsorted (path.set 0 b (path.slots 0)) (by simp) hparity
  have hs := binSearch_spec hk key
  have hkeysEq : eb.keys = items.map Item.key := by rw [keys_of_leaf hlevel, hitems]
  refine ⟨(binSearch eb key).1,
    (path.set 0 b (path.slots 0)).set 0 b (binSearch eb key).2, ?_, ?_, ?_⟩
  · simp only [searchSlotLoop, buffer_eq hblock, hlevel, hcheck]
    rfl
  · exact (sameAbove_set path _ _ le_rfl).trans (sameAbove_set _ _ _ le_rfl)
  · refine ⟨[], items.take (binSearch eb key).2, items.drop (binSearch eb key).2, [], by simp,
      .leaf (by simp) ?_ ?_, ?_, ?_, fun _ => .inl rfl, ?_⟩
    · have hbound := hs.bound
      rw [hkeysEq, List.length_map] at hbound
      simp [hbound]
    · rw [List.take_append_drop]
      exact h
    · intro x hx
      apply hs.below
      rw [hkeysEq, ← List.map_take]
      exact List.mem_map_of_mem hx
    · intro x hx
      rw [List.append_nil] at hx
      apply hs.above
      rw [hkeysEq, ← List.map_drop]
      exact List.mem_map_of_mem hx
    · have hfound := hs.found
      rwa [hkeysEq, ← List.map_drop, List.head?_map] at hfound

theorem Children.around {child : ℕ → List Item → Prop} {left mid right : List Item}
    (hl : Children child ps left) (hright : Children child qs right)
    (hmid : firstKey mid = some p.key) (hsorted : SortedItems (left ++ (mid ++ right))) (key : Key)
    (hbelow : ps = [] ∨ p.key ≤ key) (habove : ∀ q ∈ qs, key ≤ q.key) :
    (∀ x ∈ left, x.key < key) ∧ (∀ x ∈ right, key ≤ x.key) := by
  rw [SortedItems, List.pairwise_append, List.pairwise_append] at hsorted
  constructor
  · intro x hx
    rcases hbelow with rfl | hle
    · rw [hl.eq_nil_iff.mpr rfl] at hx
      cases hx
    · cases mid with
      | nil => cases hmid
      | cons y ys =>
        have hy : y.key = p.key := Option.some.inj hmid
        have hlt := hsorted.2.2 x hx y (by simp)
        exact lt_of_lt_of_le (hy ▸ hlt) hle
  · intro x hx
    obtain ⟨q, hq, hqx⟩ := hright.key_le hsorted.2.1.2.1 x hx
    exact (habove q hq).trans hqx

theorem firstKey_append {items rest : List Item} {key : Key} (h : firstKey items = some key) :
    firstKey (items ++ rest) = some key := by
  cases items with
  | nil => cases h
  | cons x items => exact h

theorem firstKey_of_le {items rest : List Item} {key first : Key} (h : firstKey items = some first)
    (hle : first ≤ key) (hall : ∀ x ∈ items, key ≤ x.key) :
    firstKey (items ++ rest) = some key := by
  apply firstKey_append
  cases items with
  | nil => cases h
  | cons x items =>
    have hx : x.key = first := Option.some.inj h
    rw [h, ← le_antisymm hle (hx ▸ hall x List.mem_cons_self)]

theorem searchSlotLoop_spec (key : Key) (l : ℕ) (h : Subtree nodesize blocks l b items)
    (hsrt : SortedItems items) (hparent : ParentKey blocks path l items) :
    ∃ ret path', searchSlotLoop nodesize blocks key (l + 1) path b = (ret, path') ∧
      Found nodesize blocks key l b items path ret path' := by
  induction l generalizing b items path with
  | zero => exact searchSlotLoop_leaf h hsrt key hparent
  | succ l ih =>
    obtain ⟨eb, hblock, hlevel, hk, -⟩ := h.block hsrt
    obtain ⟨eb', hblock', -, hne, hf, hchildren⟩ := id h
    rw [hblock] at hblock'
    cases hblock'
    have hcheck := h.checkBlock_ok hsrt (path.set (l + 1) b (path.slots (l + 1))) (by simp) (by
        intro parent hparity
        have habove := sameAbove_set path b (path.slots (l + 1)) (le_refl (l + 1)) (l + 1 + 1)
          (by omega)
        rw [habove.1] at hparity
        rw [habove.2]
        exact hparent parent hparity)
    have hkeysEq := keys_of_node hlevel
    have hkeysNe : eb.keys ≠ [] := by
      rw [hkeysEq]
      simpa using hne
    obtain ⟨hlt, hat, hafter⟩ := nodeSlot_spec hkeysNe (binSearch_spec hk key)
    generalize hslotDef : (if (binSearch eb key).1 ≠ 0 ∧ 0 < (binSearch eb key).2 then
      (binSearch eb key).2 - 1 else (binSearch eb key).2) = slot at hlt hat hafter
    have hlt' : slot < eb.ptrs.length := by rwa [hkeysEq, List.length_map] at hlt
    have hp : eb.ptrs = eb.ptrs.take slot ++ eb.ptrs[slot] :: eb.ptrs.drop (slot + 1) := by
      rw [← List.drop_eq_getElem_cons hlt', List.take_append_drop]
    have hlen : (eb.ptrs.take slot).length = slot := by
      rw [List.length_take]
      omega
    rw [hp] at hchildren
    obtain ⟨left, rest, rfl, hl, hre⟩ := hchildren.split
    cases hre with
    | @cons _ _ mid right hch hkey hright =>
      have hmid : SortedItems mid := (List.pairwise_append.mp (List.pairwise_append.mp hsrt).2.1).1
      have hkeyAt : ∀ (h : slot < eb.keys.length), eb.keys[slot] = eb.ptrs[slot].key := by
        simp [hkeysEq]
      let path1 := (path.set (l + 1) b (path.slots (l + 1))).set (l + 1) b slot
      have hparity1 : ParentKey blocks path1 l mid := by
        intro parent hparity
        have hb : parent = b := by simpa [path1] using hparity.symm
        have hs : path1.slots (l + 1) = slot := by simp [path1]
        rw [hb, buffer_eq hblock, hs, List.getElem?_eq_getElem hlt, hkeyAt hlt, hkey]
      obtain ⟨ret, path', hlo, hfound⟩ := ih hch hmid hparity1
      obtain ⟨pre, before, after, post, rfl, hcursor, hlow, hhigh, hslot, hret⟩ := hfound.cursor
      have hr := readNodeSlot_eq hblock hlevel hp hch
      rw [hlen] at hr
      have hsides := hl.around hright hkey hsrt key (by
        rcases hat hlt with h0 | hle
        · left
          rw [h0]
          rfl
        · right
          rwa [hkeyAt] at hle) (by
        intro q hq
        apply hafter
        rw [hkeysEq, ← List.map_drop]
        exact List.mem_map_of_mem hq)
      have habove1 : SameAbove (l + 1) path path1 :=
        (sameAbove_set path _ _ le_rfl).trans (sameAbove_set _ _ _ le_rfl)
      have hse := hfound.above (l + 1) (Nat.lt_succ_self l)
      refine ⟨ret, path', ?_, habove1.trans (hfound.above.mono (Nat.le_succ l)), ?_⟩
      · rw [searchSlotLoop]
        simp only [buffer_eq hblock, hlevel, hcheck, hslotDef, hr]
        exact hlo
      · refine ⟨left ++ pre, before, after, post ++ right, by simp,
          .node (by simpa [path1] using hse.1) hblock hlevel hp hf
            (by simpa [path1, hlen] using hse.2) hl hcursor hkey hright, ?_, ?_, ?_, hret⟩
        · intro x hx
          rw [List.append_assoc] at hx
          rcases List.mem_append.mp hx with hx | hx
          · exact hsides.1 x hx
          · exact hlow x hx
        · intro x hx
          rw [← List.append_assoc] at hx
          rcases List.mem_append.mp hx with hx | hx
          · exact hhigh x hx
          · exact hsides.2 x hx
        · intro hbefore
          rcases hslot hbefore with hpre | hfirst
          · subst hpre hbefore
            rw [List.nil_append, List.nil_append] at hkey
            rcases hat hlt with h0 | hle
            · left
              rw [List.append_nil]
              refine hl.eq_nil_iff.mpr ?_
              rw [h0]
              rfl
            · -- the child begins at or before the key, and none of its items is below the key
              right
              rw [hkeyAt] at hle
              rw [← List.append_assoc]
              exact firstKey_of_le hkey hle hhigh
          · right
            rw [← List.append_assoc]
            exact firstKey_append hfirst

theorem btrfsSearchSlot_spec {root : ℕ} (h : ValidTree nodesize blocks root items) (key : Key) :
    ∃ ret path l, btrfsSearchSlot nodesize blocks root key = (ret, path) ∧
      l < BTRFS_MAX_LEVEL ∧ (∀ level, l < level → path.nodes level = none) ∧
      Found nodesize blocks key l root items btrfsInitPath ret path := by
  obtain ⟨l, hl, hsub⟩ := h.subtree
  obtain ⟨eb, hblock, hlevel, -⟩ := hsub.block h.sorted
  have hparent : ParentKey blocks btrfsInitPath l items := fun parent hparity => by cases hparity
  obtain ⟨ret, path, hlo, hfound⟩ := searchSlotLoop_spec key l hsub h.sorted hparent
  refine ⟨ret, path, l, ?_, hl, ?_, hfound⟩
  · rw [btrfsSearchSlot, buffer_eq hblock, hlevel, hlo]
  · intro level hlevel'
    exact (hfound.above level hlevel').1

end Btrfs.Ctree
