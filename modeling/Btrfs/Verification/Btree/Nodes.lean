import Btrfs.Model.Btree.Leaves
import Btrfs.Verification.Ctree.Order

/-! # The shape of a tree and the items it holds -/

namespace Btrfs.Btree

open Ctree

variable {level : ℕ}

/-! ## Items in order -/

def Block.items : {level : ℕ} → Block level → List Item
  | 0, leaf => leaf
  | _ + 1, ptrs => ptrs.flatMap fun ptr => Block.items ptr.child

abbrev flat {level : ℕ} (ptrs : List (Ptr (Block level))) : List Item :=
  ptrs.flatMap fun ptr => ptr.child.items

@[simp] theorem items_leaf (leaf : List Item) : @Block.items 0 leaf = leaf := rfl

@[simp] theorem items_node (ptrs : List (Ptr (Block level))) :
    @Block.items (level + 1) ptrs = flat ptrs := rfl

def Tree.items (tree : Tree) : List Item := tree.root.items

namespace Spine

def before : {level : ℕ} → Spine level → List Item
  | _, .root => []
  | _, .node left _ _ up => up.before ++ flat left.reverse

def after : {level : ℕ} → Spine level → List Item
  | _, .root => []
  | _, .node _ _ right up => flat right ++ up.after

@[simp] theorem before_root : (.root : Spine level).before = [] := rfl

@[simp] theorem after_root : (.root : Spine level).after = [] := rfl

section

variable (left : List (Ptr (Block level))) (key : Key) (right : List (Ptr (Block level)))
  (up : Spine (level + 1))

include left key right up

@[simp] theorem before_node :
    (Spine.node left key right up).before = up.before ++ flat left.reverse := rfl

@[simp] theorem after_node : (Spine.node left key right up).after = flat right ++ up.after := rfl

end

theorem items_plug (up : Spine level) (block : Block level) :
    (up.plug block).items = up.before ++ (block.items ++ up.after) := by
  induction up with
  | root => simp [plug, Tree.items]
  | node left key right up ih =>
    rw [plug, ih]
    simp

@[simp] theorem sides_fixupLowKeys (key : Key) (up : Spine level) :
    (up.fixupLowKeys key).before = up.before ∧ (up.fixupLowKeys key).after = up.after := by
  induction up with
  | root => exact ⟨rfl, rfl⟩
  | node left key' right up ih =>
    cases left with
    | nil => simp [fixupLowKeys, ih]
    | cons ptr left => simp [fixupLowKeys]

end Spine

def Cursor.before (path : Cursor) : List Item := path.up.before ++ path.leaf.take path.slot

def Cursor.after (path : Cursor) : List Item := path.leaf.drop path.slot ++ path.up.after

theorem Cursor.items_tree (path : Cursor) : path.tree.items = path.before ++ path.after := by
  rw [Cursor.tree, Spine.items_plug, Cursor.before, Cursor.after, List.append_assoc,
    ← List.append_assoc (path.leaf.take _), List.take_append_drop]
  rfl

/-! ## Valid blocks and paths -/

/-- A block that is neither empty nor overfull, with such blocks below it under their keys. -/
def Block.Valid (nodesize : ℕ) : {level : ℕ} → Block level → Prop
  | 0, leaf => leaf ≠ [] ∧ leafSpaceUsed leaf ≤ leafDataSize nodesize
  | _ + 1, ptrs => ptrs ≠ [] ∧ ptrs.length ≤ nodeptrsPerBlock nodesize ∧
      ∀ ptr ∈ ptrs, Block.Valid nodesize ptr.child ∧ ptr.key = ptr.child.lowKey

/-- A pointer to a valid block, under the first key of the block. -/
def Ptr.Valid (nodesize : ℕ) {level : ℕ} (ptr : Ptr (Block level)) : Prop :=
  ptr.child.Valid nodesize ∧ ptr.key = ptr.child.lowKey

/-- The first key of the node that has `left` before the slot and `key` in it. -/
def nodeLow {β : Type} (left : List (Ptr β)) (key : Key) : Key :=
  (left.getLast?.map Ptr.key).getD key

namespace Spine

/-- The nodes of a path whose block has the first key `low` are valid. -/
def Valid (nodesize : ℕ) : {level : ℕ} → Spine level → Key → Prop
  | level, .root, _ => level < BTRFS_MAX_LEVEL
  | _, .node left key right up, low => key = low ∧
      (∀ ptr ∈ left, ptr.Valid nodesize) ∧ (∀ ptr ∈ right, ptr.Valid nodesize) ∧
      left.length + 1 + right.length ≤ nodeptrsPerBlock nodesize ∧
      up.Valid nodesize (nodeLow left key)

def fanout {level : ℕ} : Spine level → ℕ
  | .root => 0
  | .node left _ right _ => left.length + 1 + right.length

@[simp] theorem fanout_fixupLowKeys (key : Key) (up : Spine level) :
    (up.fixupLowKeys key).fanout = up.fanout := by
  match up with
  | .root => rfl
  | .node [] _ _ _ => rfl
  | .node (_ :: _) _ _ _ => rfl

/-- New low keys make a path valid for a block with another first key. -/
theorem Valid.fixupLowKeys {nodesize : ℕ} {up : Spine level} {low : Key}
    (hup : up.Valid nodesize low) (key : Key) :
    (up.fixupLowKeys key).Valid nodesize key := by
  induction up generalizing low with
  | root => exact hup
  | node left key' right up ih =>
    obtain ⟨-, hl, hright, hlen, hup⟩ := hup
    cases left with
    | nil => exact ⟨rfl, hl, hright, hlen, ih hup⟩
    | cons ptr left =>
      refine ⟨rfl, hl, hright, hlen, ?_⟩
      rwa [nodeLow] at hup ⊢

theorem lowKey_node (left : List (Ptr (Block level))) (ptr : Ptr (Block level))
    (right : List (Ptr (Block level))) :
    @Block.lowKey (level + 1) (left.reverse ++ ptr :: right) = nodeLow left ptr.key := by
  rw [Block.lowKey, nodeKey, nodeLow]
  cases left using List.reverseRecOn with
  | nil => simp
  | append_singleton left last => simp

end Spine

/-! ## First keys -/

theorem lowKey_node_cons (ptr : Ptr (Block level)) (ptrs : List (Ptr (Block level))) :
    @Block.lowKey (level + 1) (ptr :: ptrs) = ptr.key := rfl

theorem Block.Valid.ne_nil {nodesize : ℕ} : ∀ {level : ℕ} {block : Block level},
    block.Valid nodesize → block.items ≠ []
  | 0, _, h => h.1
  | level + 1, [], h => absurd rfl h.1
  | level + 1, ptr :: ptrs, h => by
    intro hnil
    exact (h.2.2 ptr (by simp)).1.ne_nil (List.append_eq_nil_iff.mp hnil).1

theorem Block.Valid.lowKey_eq {nodesize : ℕ} : ∀ {level : ℕ} {block : Block level},
    block.Valid nodesize → block.items.head?.map Item.key = some block.lowKey
  | 0, [], h => absurd rfl h.1
  | 0, _ :: _, _ => rfl
  | level + 1, [], h => absurd rfl h.1
  | level + 1, ptr :: ptrs, h => by
    obtain ⟨hch, hkey⟩ := h.2.2 ptr (by simp)
    have hfirst := hch.lowKey_eq
    obtain ⟨item, items, hitems⟩ := List.exists_cons_of_ne_nil hch.ne_nil
    rw [hitems] at hfirst
    rw [items_node, flat, List.flatMap_cons, hitems, lowKey_node_cons, hkey]
    exact hfirst

/-! ## A place in a row of sibling nodes

The operations on nodes only move pointers between neighbours. What they keep is the place of
the path in the row of all pointers of these neighbours. -/

variable {nodesize level : ℕ}

/-- Going down from `slot` of a node leads to `child`, which has the items `before` and `after`
on its sides. -/
structure Leads (nodesize : ℕ) {level : ℕ} (ptrs : Block (level + 1)) (slot : ℕ)
    (up : Spine (level + 1)) (child : Block level) (before after : List Item) : Prop where
  child_eq : ptrs[slot]?.map Ptr.child = some child
  before_eq : up.before ++ flat (ptrs.take slot) = before
  after_eq : flat (ptrs.drop (slot + 1)) ++ up.after = after
  node_valid : @Block.Valid nodesize (level + 1) ptrs
  up_valid : up.Valid nodesize (nodeKey ptrs 0)

/-- The pointer `p` of the row leads to `child`; the row lies between the nodes `lefts` and
`rights` of a parent and starts with `key`. -/
structure Row (nodesize : ℕ) {level : ℕ} (lefts : List (Ptr (Block (level + 1)))) (key : Key)
    (row : List (Ptr (Block level))) (rights : List (Ptr (Block (level + 1))))
    (up : Spine (level + 2)) (p : ℕ) (child : Block level) (before after : List Item) :
    Prop where
  lefts_valid : ∀ ptr ∈ lefts, ptr.Valid nodesize
  rights_valid : ∀ ptr ∈ rights, ptr.Valid nodesize
  row_valid : ∀ ptr ∈ row, ptr.Valid nodesize
  key_eq : key = nodeKey row 0
  up_valid : up.Valid nodesize (nodeLow lefts key)
  child_eq : row[p]?.map Ptr.child = some child
  before_eq : up.before ++ flat lefts.reverse ++ flat (row.take p) = before
  after_eq : flat (row.drop (p + 1)) ++ (flat rights ++ up.after) = after

theorem nodeLow_cons {β : Type} (ptr : Ptr β) (left : List (Ptr β)) (key : Key) :
    nodeLow (ptr :: left) key = nodeLow left ptr.key := by
  cases left with
  | nil => rfl
  | cons ptr' left => simp [nodeLow, List.getLast?_cons]

theorem nodeKey_append {β : Type} {a : List (Ptr β)} (ha : a ≠ []) (b : List (Ptr β)) :
    nodeKey (a ++ b) 0 = nodeKey a 0 := by
  obtain ⟨ptr, ptrs, rfl⟩ := List.exists_cons_of_ne_nil ha
  rfl

theorem ptr_valid {a : Block (level + 1)} (ha : a ≠ [])
    (hlen : a.length ≤ nodeptrsPerBlock nodesize) (hp : ∀ ptr ∈ a, ptr.Valid nodesize) :
    (⟨nodeKey a 0, a⟩ : Ptr (Block (level + 1))).Valid nodesize :=
  ⟨⟨ha, hlen, hp⟩, rfl⟩

namespace Row

variable {lefts rights : List (Ptr (Block (level + 1)))} {key : Key}
  {row a b : List (Ptr (Block level))} {up : Spine (level + 2)} {p : ℕ} {child : Block level}
  {before after : List Item}

theorem lt_length (h : Row nodesize lefts key row rights up p child before after) :
    p < row.length := by
  by_contra hp
  have hch := h.child_eq
  rw [List.getElem?_eq_none (not_lt.mp hp)] at hch
  simp at hch

theorem ofLeads (h : Leads nodesize row p (.node lefts key rights up) child before after) :
    Row nodesize lefts key row rights up p child before after where
  lefts_valid := h.up_valid.2.1
  rights_valid := h.up_valid.2.2.1
  row_valid := h.node_valid.2.2
  key_eq := h.up_valid.1
  up_valid := h.up_valid.2.2.2.2
  child_eq := h.child_eq
  before_eq := by simpa using h.before_eq
  after_eq := by simpa using h.after_eq

theorem leads (h : Row nodesize lefts key row rights up p child before after)
    (hlen : row.length ≤ nodeptrsPerBlock nodesize)
    (hfan : lefts.length + 1 + rights.length ≤ nodeptrsPerBlock nodesize) :
    Leads nodesize row p (.node lefts key rights up) child before after where
  child_eq := h.child_eq
  before_eq := by simpa using h.before_eq
  after_eq := by simpa using h.after_eq
  node_valid := ⟨List.ne_nil_of_length_pos (Nat.zero_lt_of_lt h.lt_length), hlen, h.row_valid⟩
  up_valid := ⟨h.key_eq, h.lefts_valid, h.rights_valid, hfan, h.up_valid⟩

theorem pullLeft {left : Ptr (Block (level + 1))}
    (h : Row nodesize (left :: lefts) key row rights up p child before after) :
    Row nodesize lefts left.key (left.child ++ row) rights up (p + left.child.length) child
      before after := by
  have hl : left.Valid nodesize := h.lefts_valid left (by simp)
  have hne : left.child ≠ [] := hl.1.1
  refine ⟨(List.forall_mem_cons.mp h.lefts_valid).2, h.rights_valid,
    List.forall_mem_append.mpr ⟨hl.1.2.2, h.row_valid⟩, ?_, ?_, ?_, ?_, ?_⟩
  · rw [nodeKey_append hne]
    exact hl.2
  · rw [← nodeLow_cons]
    exact h.up_valid
  · rw [List.getElem?_append_right (by omega), Nat.add_sub_cancel]
    exact h.child_eq
  · rw [← h.before_eq, List.take_append, List.take_of_length_le (by omega)]
    simp [flat]
  · rw [← h.after_eq, List.drop_append, List.drop_of_length_le (by omega), List.nil_append]
    congr 3
    omega

theorem pullRight {right : Ptr (Block (level + 1))}
    (h : Row nodesize lefts key row (right :: rights) up p child before after) :
    Row nodesize lefts key (row ++ right.child) rights up p child before after := by
  have hp := h.lt_length
  have hright : right.Valid nodesize := h.rights_valid right (by simp)
  refine ⟨h.lefts_valid, (List.forall_mem_cons.mp h.rights_valid).2,
    List.forall_mem_append.mpr ⟨h.row_valid, hright.1.2.2⟩, ?_, h.up_valid, ?_, ?_, ?_⟩
  · rw [nodeKey_append (List.ne_nil_of_length_pos (Nat.zero_lt_of_lt hp))]
    exact h.key_eq
  · rw [List.getElem?_append_left hp]
    exact h.child_eq
  · rw [List.take_append_of_le_length hp.le]
    exact h.before_eq
  · rw [← h.after_eq, List.drop_append_of_le_length hp]
    simp [flat]

theorem pushRight (h : Row nodesize lefts key (a ++ b) rights up p child before after)
    (hp : p < a.length) (hb : b ≠ []) (hlen : b.length ≤ nodeptrsPerBlock nodesize) :
    Row nodesize lefts key a (⟨nodeKey b 0, b⟩ :: rights) up p child before after := by
  obtain ⟨ha, hbs⟩ := List.forall_mem_append.mp h.row_valid
  refine ⟨h.lefts_valid, List.forall_mem_cons.mpr ⟨ptr_valid hb hlen hbs, h.rights_valid⟩, ha, ?_,
    h.up_valid, ?_, ?_, ?_⟩
  · rw [← nodeKey_append (List.ne_nil_of_length_pos (Nat.zero_lt_of_lt hp)) b]
    exact h.key_eq
  · rw [← List.getElem?_append_left hp]
    exact h.child_eq
  · rw [← List.take_append_of_le_length hp.le]
    exact h.before_eq
  · rw [← h.after_eq, List.drop_append_of_le_length hp]
    simp [flat]

theorem pushLeft (h : Row nodesize lefts key (a ++ b) rights up p child before after)
    (hp : a.length ≤ p) (ha : a ≠ []) (hlen : a.length ≤ nodeptrsPerBlock nodesize) :
    Row nodesize (⟨key, a⟩ :: lefts) (nodeKey b 0) b rights up (p - a.length) child
      before after := by
  have hkey : key = nodeKey a 0 := by rw [h.key_eq, nodeKey_append ha]
  obtain ⟨has, hb⟩ := List.forall_mem_append.mp h.row_valid
  refine ⟨List.forall_mem_cons.mpr ⟨hkey ▸ ptr_valid ha hlen has, h.lefts_valid⟩, h.rights_valid, hb,
    rfl, ?_, ?_, ?_, ?_⟩
  · rw [nodeLow_cons]
    exact h.up_valid
  · rw [← List.getElem?_append_right hp]
    exact h.child_eq
  · rw [← h.before_eq, List.take_append, List.take_of_length_le hp]
    simp [flat]
  · rw [← h.after_eq, List.drop_append, List.drop_of_length_le (show a.length ≤ p + 1 by omega),
      List.nil_append, Nat.sub_add_comm hp]

end Row

/-! ## Splitting and balancing nodes keep the place of the path -/

variable {slot' : ℕ}

theorem nodeptrsPerBlock_ge {nodesize : ℕ} (h : 4096 ≤ nodesize) :
    121 ≤ nodeptrsPerBlock nodesize := by
  simp only [nodeptrsPerBlock, leafDataSize, headerSize, keyPtrSize]
  omega

/-! ## Moving pointers between two nodes -/

section

variable {β : Type} {nodesize : ℕ} {dst src dst' src' : List (Ptr β)}

theorem pushNodeLeft_spec {empty : Bool}
    (h : pushNodeLeft nodesize dst src empty = some (dst', src')) :
    ∃ k, dst' = dst ++ src.take k ∧ src' = src.drop k ∧ dst.length + k ≤ nodeptrsPerBlock nodesize ∧
      (empty = true ∧ k = src.length ∨ k + 8 ≤ src.length) := by
  unfold pushNodeLeft at h
  cases empty with
  | true =>
    simp only at h
    split_ifs at h with hf hl hfew
    · cases h
      exact ⟨_, rfl, rfl, by omega, by omega⟩
    · cases h
      refine ⟨_, rfl, rfl, by omega, ?_⟩
      simp only [true_and]
      omega
  | false =>
    simp only [Bool.not_false, true_and, Bool.false_eq_true, if_false] at h
    split_ifs at h with hfew hf
    cases h
    exact ⟨_, rfl, rfl, by omega, by omega⟩

theorem balanceNodeRight_spec (h : balanceNodeRight nodesize dst src = some (dst', src')) :
    ∃ j, dst' = src.drop j ++ dst ∧ src' = src.take j ∧ 0 < j ∧ j < src.length ∧
      dst.length + (src.length - j) ≤ nodeptrsPerBlock nodesize := by
  simp only [balanceNodeRight] at h
  split_ifs at h with hf hfew hhalf
  cases h
  exact ⟨_, rfl, rfl, by omega, by omega, by omega⟩

end

/-! ## Growing -/

variable {nodesize level : ℕ} {ptrs : Block (level + 1)} {slot : ℕ} {up : Spine (level + 1)}
  {child : Block level} {before after : List Item}

namespace Leads

theorem lt_length (h : Leads nodesize ptrs slot up child before after) : slot < ptrs.length := by
  by_contra hp
  have hch := h.child_eq
  rw [List.getElem?_eq_none (not_lt.mp hp)] at hch
  simp at hch

end Leads

variable {ptrs' : Block (level + 1)} {up' : Spine (level + 1)}

theorem pushForInsertLeft_spec (hl : Leads nodesize ptrs slot up child before after)
    (h : pushForInsertLeft nodesize ptrs slot up = some (ptrs', slot', up')) :
    Leads nodesize ptrs' slot' up' child before after ∧ up'.fanout = up.fanout := by
  match up with
  | .root => simp [pushForInsertLeft] at h
  | .node [] _ _ _ => simp [pushForInsertLeft] at h
  | .node (left :: lefts) key rights up =>
    have hfan := hl.up_valid.2.2.2.1
    have hrow := (Row.ofLeads hl).pullLeft
    have hmid := hl.node_valid.2.1
    rw [pushForInsertLeft] at h
    split_ifs at h with hf
    split at h
    · cases h
    · rename_i left' mid' hpush
      obtain ⟨k, rfl, rfl, hlen, hk⟩ := pushNodeLeft_spec hpush
      have hk : k + 8 ≤ ptrs.length := by simpa using hk
      have ht : (ptrs.take k).length = k := List.length_take_of_le (by omega)
      have hd : (ptrs.drop k).length = ptrs.length - k := List.length_drop
      have hne : left.child ++ ptrs.take k ≠ [] := by
        simp [(hl.up_valid.2.1 left List.mem_cons_self).1.1]
      rw [← List.take_append_drop k ptrs, ← List.append_assoc] at hrow
      simp only at h
      split_ifs at h with hpos
      · cases h
        refine ⟨(hrow.pushRight hpos (List.ne_nil_of_length_pos (by omega)) (by omega)).leads
          ?_ ?_, ?_⟩
        · simp only [List.length_append, ht]
          exact hlen
        · simp only [List.length_cons] at hfan ⊢
          omega
        · simp only [Spine.fanout, List.length_cons]
          omega
      · cases h
        refine ⟨(hrow.pushLeft (not_lt.mp hpos) hne ?_).leads (by omega) ?_, ?_⟩
        · simp only [List.length_append, ht]
          exact hlen
        · simpa using hfan
        · simp only [Spine.fanout, List.length_cons]

theorem pushForInsertRight_spec (hl : Leads nodesize ptrs slot up child before after)
    (h : pushForInsertRight nodesize ptrs slot up = some (ptrs', slot', up')) :
    Leads nodesize ptrs' slot' up' child before after ∧ up'.fanout = up.fanout := by
  match up with
  | .root => simp [pushForInsertRight] at h
  | .node _ _ [] _ => simp [pushForInsertRight] at h
  | .node lefts key (right :: rights) up =>
    have hfan := hl.up_valid.2.2.2.1
    have hrow := (Row.ofLeads hl).pullRight
    have hmid := hl.node_valid.2.1
    rw [pushForInsertRight] at h
    split_ifs at h with hf
    split at h
    · cases h
    · rename_i right' mid' hpush
      obtain ⟨j, rfl, rfl, hj, hjlt, hlen⟩ := balanceNodeRight_spec hpush
      have ht : (ptrs.take j).length = j := List.length_take_of_le hjlt.le
      have hd : (ptrs.drop j ++ right.child).length = ptrs.length - j + right.child.length := by
        simp
      rw [← List.take_append_drop j ptrs, List.append_assoc] at hrow
      split_ifs at h with hpos
      · cases h
        refine ⟨(hrow.pushLeft hpos (List.ne_nil_of_length_pos (by omega)) (by omega)).leads
          (by omega) ?_, ?_⟩
        · simp only [List.length_cons] at hfan ⊢
          omega
        · simp only [Spine.fanout, List.length_cons]
          omega
      · cases h
        refine ⟨(hrow.pushRight (not_le.mp hpos) (List.ne_nil_of_length_pos (by omega))
          (by omega)).leads (by omega) ?_, ?_⟩
        · simpa using hfan
        · simp only [Spine.fanout, List.length_cons]

theorem splitInTwo_spec (hns : 4096 ≤ nodesize)
    (hl : Leads nodesize ptrs slot up child before after)
    (hmany : nodeptrsPerBlock nodesize - 3 ≤ ptrs.length)
    (hro : 0 < up.fanout) (hr : up.fanout < nodeptrsPerBlock nodesize) :
    ∃ ptrs' slot' up', splitInTwo nodesize ptrs slot up = .ok (ptrs', slot', up') ∧
      Leads nodesize ptrs' slot' up' child before after ∧
      ptrs'.length + 3 < nodeptrsPerBlock nodesize := by
  have hN := nodeptrsPerBlock_ge hns
  match up with
  | .root => simp [Spine.fanout] at hro
  | .node left key right up =>
    have hmid := hl.node_valid.2.1
    have hrow := Row.ofLeads hl
    obtain ⟨mid, hmideq⟩ : ∃ mid, mid = (ptrs.length + 1) / 2 := ⟨_, rfl⟩
    have ht : (ptrs.take mid).length = mid := List.length_take_of_le (by omega)
    have hd : (ptrs.drop mid).length = ptrs.length - mid := List.length_drop
    have hkey : nodeKey ptrs mid = nodeKey (ptrs.drop mid) 0 := by simp [nodeKey]
    have hfan : left.length + 1 + right.length ≠ nodeptrsPerBlock nodesize := by
      simp only [Spine.fanout] at hr
      omega
    rw [← List.take_append_drop mid ptrs] at hrow
    simp only [splitInTwo, insertPtrAfter, if_neg hfan, ← hmideq, hkey]
    simp only [Spine.fanout] at hr
    split_ifs with hpos
    · refine ⟨_, _, _, rfl, ?_, ?_⟩
      · have := hrow.pushLeft (by omega) (List.ne_nil_of_length_pos (by omega)) (by omega)
        rw [ht] at this
        refine this.leads (by omega) ?_
        simp only [List.length_cons]
        omega
      · simp only [Spine.moveRight]
        omega
    · refine ⟨_, _, _, rfl, ?_, by omega⟩
      refine (hrow.pushRight (by omega) (List.ne_nil_of_length_pos (by omega)) (by omega)).leads
        (by omega) ?_
      simp only [List.length_cons]
      omega

theorem pushNodesForInsert_spec (hl : Leads nodesize ptrs slot up child before after)
    (h : pushNodesForInsert nodesize ptrs slot up = some (ptrs', slot', up')) :
    Leads nodesize ptrs' slot' up' child before after ∧ up'.fanout = up.fanout := by
  rcases Option.or_eq_some_iff.mp h with h | ⟨-, h⟩
  · exact pushForInsertLeft_spec hl h
  · exact pushForInsertRight_spec hl h

theorem insertNewRoot_spec (block : Block level) (hlow : level < BTRFS_MAX_LEVEL) :
    insertNewRoot block = .error .tooDeep ∧ level + 1 = BTRFS_MAX_LEVEL ∨
      insertNewRoot block = .ok (.node [] block.lowKey [] .root) ∧ level + 1 < BTRFS_MAX_LEVEL := by
  unfold insertNewRoot
  split_ifs with hlevel
  · exact .inr ⟨rfl, hlevel⟩
  · exact .inl ⟨rfl, by omega⟩

/-- A full node on the way down is split, or the root is at the last level. -/
theorem splitNode_spec (hns : 4096 ≤ nodesize) (hl : Leads nodesize ptrs slot up child before after)
    (hmany : nodeptrsPerBlock nodesize - 3 ≤ ptrs.length)
    (hr : up.fanout < nodeptrsPerBlock nodesize) :
    splitNode nodesize ptrs slot up = .error .tooDeep ∧ up = .root ∧ level + 2 = BTRFS_MAX_LEVEL ∨
      ∃ ptrs' slot' up', splitNode nodesize ptrs slot up = .ok (ptrs', slot', up') ∧
        Leads nodesize ptrs' slot' up' child before after ∧
        ptrs'.length + 3 < nodeptrsPerBlock nodesize := by
  have hN := nodeptrsPerBlock_ge hns
  match up with
  | .root =>
    rcases insertNewRoot_spec ptrs hl.up_valid with ⟨hnew, hlevel⟩ | ⟨hnew, hlevel⟩
    · exact .inl ⟨by simp only [splitNode, hnew, bind, Except.bind], rfl, hlevel⟩
    · refine .inr ?_
      simp only [splitNode, hnew]
      refine splitInTwo_spec hns ?_ hmany (by simp [Spine.fanout]) ?_
      · refine ⟨hl.child_eq, by simpa using hl.before_eq, by simpa using hl.after_eq,
          hl.node_valid, rfl, by simp, by simp, ?_, hlevel⟩
        simp only [List.length_nil]
        omega
      · simp only [Spine.fanout, List.length_nil]
        omega
  | .node left key right up =>
    have hfan : 0 < (Spine.node left key right up).fanout := by
      simp only [Spine.fanout]
      omega
    refine .inr ?_
    rw [splitNode]
    · split
      · rename_i ptrs' slot' up' hpush
        obtain ⟨hl', hfan'⟩ := pushNodesForInsert_spec hl hpush
        split_ifs with hfew
        · exact ⟨_, _, _, rfl, hl', by omega⟩
        · exact splitInTwo_spec hns hl' (not_lt.mp hfew) (hfan' ▸ hfan) (hfan' ▸ hr)
      · exact splitInTwo_spec hns hl hmany hfan hr
    · simp

end Btrfs.Btree
