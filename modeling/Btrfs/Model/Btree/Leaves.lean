import Btrfs.Model.Ctree.Search

/-! # Trees that change (`ctree.c`)

Block allocations succeed and give blocks of their own. A tree is then the value below its root,
and copying a block on write leaves that value as it is. -/

namespace Btrfs.Btree

open Ctree

def eoverflow : ℤ := 75

def BTRFS_DIR_ITEM_KEY : ℕ := 84

/-! ## Blocks -/

/-- A pointer of a node: its key and the block behind it. -/
structure Ptr (β : Type) where
  key : Key
  child : β
deriving DecidableEq

/-- A tree block of a level, with all that hangs below it. -/
@[reducible] def Block : ℕ → Type
  | 0 => List Item
  | level + 1 => List (Ptr (Block level))

instance decEqBlock : (level : ℕ) → DecidableEq (Block level)
  | 0 => inferInstanceAs (DecidableEq (List Item))
  | level + 1 =>
    have : DecidableEq (Block level) := decEqBlock level
    inferInstanceAs (DecidableEq (List (Ptr (Block level))))

/-- The block as a buffer, without the addresses of what hangs below it. -/
def Block.buffer : {level : ℕ} → Block level → ExtentBuffer
  | 0, leaf => ⟨0, 0, leaf, []⟩
  | level + 1, ptrs => ⟨level + 1, 0, [], ptrs.map fun ptr => ⟨ptr.key, 0, 0⟩⟩

def itemKey (leaf : List Item) (slot : ℕ) : Key :=
  (leaf[slot]?.map Item.key).getD ⟨0, 0, 0⟩

def nodeKey {β : Type} (node : List (Ptr β)) (slot : ℕ) : Key :=
  (node[slot]?.map Ptr.key).getD ⟨0, 0, 0⟩

/-- The key in slot 0. -/
def Block.lowKey : {level : ℕ} → Block level → Key
  | 0, leaf => itemKey leaf 0
  | _ + 1, ptrs => nodeKey ptrs 0

def leafFreeSpace (nodesize : ℕ) (leaf : List Item) : ℤ :=
  btrfsLeafFreeSpace nodesize (@Block.buffer 0 leaf)

/-- A root of its level. -/
structure Tree where
  level : ℕ
  root : Block level
deriving DecidableEq

/-! ## Paths -/

/-- The nodes of a path above a block, up to the root. A node of the path has the pointers left
of its slot, nearest first, the key in the slot, and the pointers right of it. -/
inductive Spine : ℕ → Type
  | root {level : ℕ} : Spine level
  | node {level : ℕ} (left : List (Ptr (Block level))) (key : Key)
      (right : List (Ptr (Block level))) (up : Spine (level + 1)) : Spine level

namespace Spine

/-- The tree that has a block below these nodes. -/
def plug : {level : ℕ} → Spine level → Block level → Tree
  | level, .root, block => ⟨level, block⟩
  | _, .node left key right up, block => up.plug (left.reverse ++ ⟨key, block⟩ :: right)

/-- The key of the block in its parent. -/
def parentKey {level : ℕ} : Spine level → Option Key
  | .root => none
  | .node _ key _ _ => some key

/-- `btrfs_fixup_low_keys`, from the level above on. -/
def fixupLowKeys (key : Key) : {level : ℕ} → Spine level → Spine level
  | _, .root => .root
  | _, .node [] _ right up => .node [] key right (up.fixupLowKeys key)
  | _, .node (ptr :: left) _ right up => .node (ptr :: left) key right up

end Spine

/-- A path down to a leaf. -/
structure Cursor where
  leaf : List Item
  slot : ℕ
  up : Spine 0

/-- The tree of a path. -/
def Cursor.tree (path : Cursor) : Tree :=
  path.up.plug path.leaf

/-- Why a function of the tree code comes back before its end: a `BUG_ON` is reached, the arrays
of the path are overrun, or `ret` is returned with the tree as it is then. -/
inductive Stop where
  | bug
  | tooDeep
  | ret (ret : ℤ) (tree : Tree)
deriving DecidableEq

def checkBlock (nodesize : ℕ) : {level : ℕ} → Block level → Option Key → Bool
  | 0, leaf, parentKey => btrfsCheckLeaf nodesize parentKey (@Block.buffer 0 leaf)
  | level + 1, ptrs, parentKey =>
    btrfsCheckNode nodesize parentKey (@Block.buffer (level + 1) ptrs)

/-! # Splitting and balancing nodes (`ctree.c`) -/

/-! ## Moving pointers between two nodes -/

section

variable {β : Type} (nodesize : ℕ)

/-- `push_node_left`; `none` stands for the value 1. -/
def pushNodeLeft (dst src : List (Ptr β)) (empty : Bool) :
    Option (List (Ptr β) × List (Ptr β)) :=
  let moved (pushItems : ℕ) := some (dst ++ src.take pushItems, src.drop pushItems)
  if !empty ∧ src.length ≤ 8 then none
  else if nodeptrsPerBlock nodesize ≤ dst.length then none
  else if empty then
    let pushItems := min src.length (nodeptrsPerBlock nodesize - dst.length)
    if pushItems < src.length ∧ src.length - pushItems < 8 then
      if pushItems ≤ 8 then none else moved (pushItems - 8)
    else moved pushItems
  else moved (min (src.length - 8) (nodeptrsPerBlock nodesize - dst.length))

/-- `balance_node_right`; `none` stands for the value 1. -/
def balanceNodeRight (dst src : List (Ptr β)) : Option (List (Ptr β) × List (Ptr β)) :=
  let maxPush := src.length / 2 + 1
  if nodeptrsPerBlock nodesize ≤ dst.length then none
  else if src.length < 4 then none
  else if src.length ≤ maxPush then none
  else
    let pushItems := min maxPush (nodeptrsPerBlock nodesize - dst.length)
    some (src.drop (src.length - pushItems) ++ dst, src.take (src.length - pushItems))

end

/-! ## Growing -/

/-- `insert_new_root` over the root `lower`. The path has no element for a level of
`BTRFS_MAX_LEVEL`. -/
def insertNewRoot {level : ℕ} (lower : Block level) : Except Stop (Spine level) :=
  if level + 1 < BTRFS_MAX_LEVEL then .ok (.node [] lower.lowKey [] .root) else .error .tooDeep

/-- `insert_ptr` into the slot after that of the path. -/
def insertPtrAfter (nodesize : ℕ) {level : ℕ} (ptr : Ptr (Block level)) :
    Spine level → Except Stop (Spine level)
  | .root => .error .bug
  | .node left key right up =>
    if left.length + 1 + right.length = nodeptrsPerBlock nodesize then .error .bug
    else .ok (.node left key (ptr :: right) up)

/-- The path goes on to the block right of `block`. -/
def Spine.moveRight {level : ℕ} (block : Block level) : Spine level → Block level × Spine level
  | .node left key (ptr :: right) up => (ptr.child, .node (⟨key, block⟩ :: left) ptr.key right up)
  | up => (block, up)

/-- The part of `split_node` after its attempts to get along without a new block. -/
def splitInTwo (nodesize : ℕ) {level : ℕ} (c : Block (level + 1)) (slot : ℕ)
    (up : Spine (level + 1)) : Except Stop (Block (level + 1) × ℕ × Spine (level + 1)) := do
  let mid := (c.length + 1) / 2
  let up ← insertPtrAfter nodesize ⟨nodeKey c mid, c.drop mid⟩ up
  if mid ≤ slot then
    let (split, up) := up.moveRight (c.take mid)
    .ok (split, slot - mid, up)
  else .ok (c.take mid, slot, up)

/-- The first half of `push_nodes_for_insert`: some pointers of `mid` go to its left sibling. -/
def pushForInsertLeft (nodesize : ℕ) {level : ℕ} (mid : Block (level + 1)) (origSlot : ℕ) :
    Spine (level + 1) → Option (Block (level + 1) × ℕ × Spine (level + 1))
  | .node (left :: lefts) _ rights up =>
    if nodeptrsPerBlock nodesize - 1 ≤ left.child.length then none
    else
      match pushNodeLeft nodesize left.child mid false with
      | none => none
      | some (left', mid') =>
        let origSlot := origSlot + left.child.length
        if origSlot < left'.length then
          some (left', origSlot, .node lefts left.key (⟨nodeKey mid' 0, mid'⟩ :: rights) up)
        else
          some (mid', origSlot - left'.length,
            .node (⟨left.key, left'⟩ :: lefts) (nodeKey mid' 0) rights up)
  | _ => none

/-- The second half of `push_nodes_for_insert`: some pointers go to the right sibling. -/
def pushForInsertRight (nodesize : ℕ) {level : ℕ} (mid : Block (level + 1)) (origSlot : ℕ) :
    Spine (level + 1) → Option (Block (level + 1) × ℕ × Spine (level + 1))
  | .node lefts key (right :: rights) up =>
    if nodeptrsPerBlock nodesize - 1 ≤ right.child.length then none
    else
      match balanceNodeRight nodesize right.child mid with
      | none => none
      | some (right', mid') =>
        if mid'.length ≤ origSlot then
          some (right', origSlot - mid'.length,
            .node (⟨key, mid'⟩ :: lefts) (nodeKey right' 0) rights up)
        else
          some (mid', origSlot, .node lefts key (⟨nodeKey right' 0, right'⟩ :: rights) up)
  | _ => none

/-- `push_nodes_for_insert`; `none` stands for the value 1. -/
def pushNodesForInsert (nodesize : ℕ) {level : ℕ} (mid : Block (level + 1)) (origSlot : ℕ)
    (up : Spine (level + 1)) : Option (Block (level + 1) × ℕ × Spine (level + 1)) :=
  (pushForInsertLeft nodesize mid origSlot up).or (pushForInsertRight nodesize mid origSlot up)

def splitNode (nodesize : ℕ) {level : ℕ} (c : Block (level + 1)) (slot : ℕ) :
    Spine (level + 1) → Except Stop (Block (level + 1) × ℕ × Spine (level + 1))
  | .root => do
      let up ← insertNewRoot c
      splitInTwo nodesize c slot up
  | up =>
    match pushNodesForInsert nodesize c slot up with
    | some (c, slot, up) =>
      if c.length < nodeptrsPerBlock nodesize - 3 then .ok (c, slot, up)
      else splitInTwo nodesize c slot up
    | none => splitInTwo nodesize c slot up

/-! ## Shrinking -/

/-- What `balance_level` leaves: a tree whose root is the only child of the old one, or a node
that the path goes on from. -/
inductive Balanced (level : ℕ) where
  | newRoot (child : Block level)
  | node (ptrs : Block (level + 1)) (slot : ℕ) (up : Spine (level + 1))

section

variable {β : Type} (nodesize : ℕ)

/-- A push whose failure is passed over. -/
def pushOrKeep (dst src : List (Ptr β)) : List (Ptr β) × List (Ptr β) :=
  (pushNodeLeft nodesize dst src true).getD (dst, src)

/-- The first move of `balance_level`: the node is emptied into its left sibling. -/
def pushIntoLeft (left : Option (List (Ptr β))) (mid : List (Ptr β)) :
    Option (List (Ptr β)) × List (Ptr β) :=
  match left with
  | none => (none, mid)
  | some left => (pushOrKeep nodesize left mid).map some id

/-- The second move: the right sibling is emptied into the node. -/
def pullFromRight (mid : List (Ptr β)) (right : Option (List (Ptr β))) :
    List (Ptr β) × Option (List (Ptr β)) :=
  match right with
  | none => (mid, none)
  | some right => (pushOrKeep nodesize mid right).map id some

/-- The last move, for a node with one pointer: it gets more from its left sibling. -/
def pullFromLeft (left mid : List (Ptr β)) : Except Stop (List (Ptr β) × List (Ptr β)) :=
  match balanceNodeRight nodesize mid left with
  | some (mid', left') => .ok (left', mid')
  | none =>
    match pushNodeLeft nodesize left mid true with
    | some (left', mid') => .ok (left', mid')
    | none => .error .bug

/-- The moves of `balance_level` between a node and its siblings. -/
def balanceSiblings (left : Option (List (Ptr β))) (mid : List (Ptr β))
    (right : Option (List (Ptr β))) :
    Except Stop (Option (List (Ptr β)) × List (Ptr β) × Option (List (Ptr β))) :=
  let (left, mid) := pushIntoLeft nodesize left mid
  let (mid, right) := pullFromRight nodesize mid right
  if mid.length = 1 then
    match left with
    | none => .error .bug
    | some left =>
      match pullFromLeft nodesize left mid with
      | .error stop => .error stop
      | .ok (left, mid) => .ok (some left, mid, right)
  else .ok (left, mid, right)

/-- The pointers to a sibling after the moves; an emptied one has none. -/
def keptPtr (node : List (Ptr β)) : List (Ptr (List (Ptr β))) :=
  if node = [] then [] else [⟨nodeKey node 0, node⟩]

end

def balanceLevel (nodesize : ℕ) {level : ℕ} (mid : Block (level + 1)) (slot : ℕ) :
    Spine (level + 1) → Except Stop (Balanced level)
  | .root =>
    match mid with
    | [ptr] => .ok (.newRoot ptr.child)
    | _ => .ok (.node mid slot .root)
  | .node lefts key rights up =>
    if nodeptrsPerBlock nodesize / 4 < mid.length then
      .ok (.node mid slot (.node lefts key rights up))
    else do
      let (left', mid', right') ← balanceSiblings nodesize (lefts.head?.map Ptr.child) mid
        (rights.head?.map Ptr.child)
      let rights' := (right'.map keptPtr).getD [] ++ rights.tail
      let (node, slot', up') ←
        match lefts, left' with
        | left :: lefts, some left' =>
          let origSlot := slot + left.child.length
          if origSlot < left'.length then
            .ok (left', origSlot, .node lefts left.key (keptPtr mid' ++ rights') up)
          -- the path would stay on the block just freed
          else if mid' = [] then .error .bug
          else
            .ok (mid', origSlot - left'.length,
              .node (⟨left.key, left'⟩ :: lefts) (nodeKey mid' 0) rights' up)
        | _, _ =>
          if mid' = [] then .error .bug
          else .ok (mid', slot, .node lefts (nodeKey mid' 0) rights' up)
      -- blocks of a tree differ in what they hold, so addresses are compared by contents
      if node[slot']?.map Ptr.child = mid[slot]?.map Ptr.child then .ok (.node node slot' up')
      else .error .bug

/-! # Splitting and merging leaves (`ctree.c`) -/

/-! ## Moving items between two leaves -/

/-- The loop of `push_leaf_right` from the item before `i` on, down to the item `nr`: how many
items go to the right. -/
def pushRightLoop (left : List Item) (slot dataSize : ℕ) (freeSpace : ℤ) (nr : ℕ) :
    ℕ → ℕ → ℕ → ℕ
  | 0, _, pushItems => pushItems
  | i + 1, pushSpace, pushItems =>
    if i < nr then pushItems
    else
      let pushSpace := if slot = i then pushSpace + dataSize + itemSize else pushSpace
      let thisItemSize : ℕ := (left[i]?.map fun item => item.data.length).getD 0
      if freeSpace < thisItemSize + itemSize + pushSpace then pushItems
      else pushRightLoop left slot dataSize freeSpace nr i
        (pushSpace + thisItemSize + itemSize) (pushItems + 1)

/-- How many items `push_leaf_right` moves. -/
def pushRightCount (nodesize slot dataSize : ℕ) (empty : Bool) (left right : List Item) : ℕ :=
  if leafFreeSpace nodesize right < dataSize then 0
  else
    pushRightLoop left slot dataSize (leafFreeSpace nodesize right) (if empty then 0 else 1)
      left.length 0 0

/-- `push_leaf_right`; `none` stands for the value 1. -/
def pushLeafRight (nodesize dataSize : ℕ) (empty : Bool) (path : Cursor) : Option Cursor :=
  match path.up with
  | .node lefts key (right :: rights) up =>
    let pushItems := pushRightCount nodesize path.slot dataSize empty path.leaf right.child
    if pushItems = 0 then none
    else
      let leftNritems := path.leaf.length - pushItems
      let left' := path.leaf.take leftNritems
      let right' := path.leaf.drop leftNritems ++ right.child
      if leftNritems ≤ path.slot then
        some ⟨right', path.slot - leftNritems,
          .node (⟨key, left'⟩ :: lefts) (itemKey right' 0) rights up⟩
      else some ⟨left', path.slot, .node lefts key (⟨itemKey right' 0, right'⟩ :: rights) up⟩
  | _ => none

/-- The loop of `push_leaf_left` over the items from `i` on. -/
def pushLeftLoop (slot dataSize : ℕ) (freeSpace : ℤ) : List Item → ℕ → ℕ → ℕ
  | [], i, _ => i
  | item :: items, i, pushSpace =>
    let pushSpace := if slot = i then pushSpace + dataSize + itemSize else pushSpace
    if freeSpace < item.data.length + itemSize + pushSpace then i
    else pushLeftLoop slot dataSize freeSpace items (i + 1)
      (pushSpace + item.data.length + itemSize)

/-- How many items `push_leaf_left` moves. -/
def pushLeftCount (nodesize slot dataSize : ℕ) (empty : Bool) (left right : List Item) : ℕ :=
  if leafFreeSpace nodesize left < dataSize then 0
  else
    pushLeftLoop slot dataSize (leafFreeSpace nodesize left)
      (right.take (if empty then right.length else right.length - 1)) 0 0

/-- `push_leaf_left`; `none` stands for the value 1. -/
def pushLeafLeft (nodesize dataSize : ℕ) (empty : Bool) (path : Cursor) :
    Except Stop (Option Cursor) :=
  match path.up with
  | .node (left :: lefts) _ rights up =>
    let pushItems := pushLeftCount nodesize path.slot dataSize empty left.child path.leaf
    if pushItems = 0 then .ok none
    else if left.child.length = 0 then .error .bug
    else
      let left' := left.child ++ path.leaf.take pushItems
      let right' := path.leaf.drop pushItems
      -- an emptied leaf still holds the key of its first item
      let diskKey := itemKey (right' ++ path.leaf) 0
      if path.slot < pushItems then
        .ok (some ⟨left', path.slot + left.child.length,
          .node lefts left.key (⟨diskKey, right'⟩ :: rights) up⟩)
      else
        .ok (some ⟨right', path.slot - pushItems,
          .node (⟨left.key, left'⟩ :: lefts) diskKey rights up⟩)
  | _ => .ok none

/-! ## Splitting a leaf -/

/-- The number of splits and the first item of the right leaf, as `split_leaf` chooses them. -/
def splitChoice (nodesize dataSize : ℕ) (extend : Bool) (l : List Item) (slot : ℕ) : ℕ × ℕ :=
  let nritems := l.length
  let mid := (nritems + 1) / 2
  let tight (items : List Item) : Bool := leafDataSize nodesize < leafSpaceUsed items + dataSize
  let atSlot : ℕ × ℕ := if slot ≠ nritems ∧ tight (l.drop slot) then (2, slot) else (1, slot)
  if mid ≤ slot then
    if nritems = 1 ∨ tight (l.drop mid) then
      if nritems ≤ slot then (0, mid) else atSlot
    else (1, mid)
  else if tight (l.take mid) then
    if !extend ∧ dataSize ≠ 0 ∧ slot = 0 then (0, mid)
    else if (extend ∨ dataSize = 0) ∧ slot = 0 then (1, 1)
    else atSlot
  else (1, mid)

def copyForSplit (nodesize : ℕ) (path : Cursor) (mid : ℕ) : Except Stop Cursor := do
  let right := path.leaf.drop mid
  let up ← insertPtrAfter nodesize ⟨itemKey path.leaf mid, right⟩ path.up
  if mid ≤ path.slot then
    let (leaf, up) := up.moveRight (path.leaf.take mid)
    .ok ⟨leaf, path.slot - mid, up⟩
  else .ok ⟨path.leaf.take mid, path.slot, up⟩

/-- The new empty leaf of `split_leaf`, after the leaf of the path or before it. -/
def addEmptyLeaf (nodesize : ℕ) (insKey : Key) (path : Cursor) (after : Bool) :
    Except Stop Cursor :=
  if after then do
    let up ← insertPtrAfter nodesize ⟨insKey, []⟩ path.up
    let (leaf, up) := up.moveRight path.leaf
    .ok ⟨leaf, 0, up⟩
  else
    match path.up with
    | .root => .error .bug
    | .node left key right up =>
      if left.length + 1 + right.length = nodeptrsPerBlock nodesize then .error .bug
      else
        let up : Spine 0 := .node left insKey (⟨key, path.leaf⟩ :: right) up
        .ok ⟨[], 0, if left = [] then up.fixupLowKeys insKey else up⟩

/-- One round of `split_leaf` from `again` on, with the number of splits it chose. -/
def splitRound (nodesize : ℕ) (insKey : Key) (dataSize : ℕ) (extend : Bool) (path : Cursor) :
    Except Stop (ℕ × Cursor) := do
  let (split, mid) := splitChoice nodesize dataSize extend path.leaf path.slot
  let path ← if split = 0 then addEmptyLeaf nodesize insKey path (decide (mid ≤ path.slot))
    else copyForSplit nodesize path mid
  .ok (split, path)

/-- The attempt of `split_leaf` to push items to the right or else to the left. -/
def pushForSplit (nodesize dataSize : ℕ) (path : Cursor) : Except Stop Cursor :=
  match pushLeafRight nodesize dataSize false path with
  | some path => .ok path
  | none => do
      let path' ← pushLeafLeft nodesize dataSize false path
      .ok (path'.getD path)

/-- The nodes above the leaf of a path; a leaf that is the root gets one. -/
def leafParent (path : Cursor) : Except Stop (Spine 0) :=
  match path.up with
  | .root => @insertNewRoot 0 path.leaf
  | up => .ok up

/-- The part of `split_leaf` after the pushes. -/
def splitPushed (nodesize : ℕ) (insKey : Key) (dataSize : ℕ) (extend : Bool) (path : Cursor) :
    Except Stop Cursor := do
  let up ← leafParent path
  let (split, path) ← splitRound nodesize insKey dataSize extend { path with up := up }
  if split = 2 then
    let (split, path) ← splitRound nodesize insKey dataSize extend path
    if split = 2 then .error .bug else .ok path
  else .ok path

def splitLeaf (nodesize : ℕ) (insKey : Key) (dataSize : ℕ) (extend : Bool) (path : Cursor) :
    Except Stop Cursor :=
  let size := (path.leaf[path.slot]?.map fun item => item.data.length).getD 0
  if extend ∧ leafDataSize nodesize < dataSize + size + itemSize then
    .error (.ret (-eoverflow) path.tree)
  else if dataSize ≠ 0 ∧ insKey.type ≠ BTRFS_DIR_ITEM_KEY then do
    let path ← pushForSplit nodesize dataSize path
    if dataSize ≤ leafFreeSpace nodesize path.leaf then .ok path
    else splitPushed nodesize insKey dataSize extend path
  else splitPushed nodesize insKey dataSize extend path

/-! # Searching a tree to change it, and changing its items (`ctree.c`) -/

/-! ## Searching -/

/-- What `btrfs_search_slot` does with a node before it goes down from `slot`. -/
def prepareNode (nodesize : ℕ) (insLen : ℤ) (searchForSplit : Bool) {level : ℕ}
    (ptrs : Block (level + 1)) (slot : ℕ) (up : Spine (level + 1)) :
    Except Stop (Balanced level) :=
  if (searchForSplit ∨ 0 < insLen) ∧ nodeptrsPerBlock nodesize - 3 ≤ ptrs.length then do
    let (ptrs, slot, up) ← splitNode nodesize ptrs slot up
    .ok (.node ptrs slot up)
  else if insLen < 0 then do
    match ← balanceLevel nodesize ptrs slot up with
    | .newRoot child => .ok (.newRoot child)
    | .node ptrs slot up =>
      if ptrs.length = 1 then .error .bug else .ok (.node ptrs slot up)
  else .ok (.node ptrs slot up)

/-- The loop of `btrfs_search_slot` with `cow = 1`, from a block on down to the slot in a leaf. A
new root is searched from the start. -/
def searchSlotLoop (nodesize : ℕ) (key : Key) (insLen : ℤ) (searchForSplit : Bool) :
    {level : ℕ} → Block level → Spine level → Except Stop (ℤ × Cursor)
  | 0, leaf, up =>
    if @checkBlock nodesize 0 leaf up.parentKey then
      let (ret, slot) := binSearch (@Block.buffer 0 leaf) key
      .ok (ret, ⟨leaf, slot, up⟩)
    else .error (.ret (-1) (up.plug leaf))
  | level + 1, ptrs, up =>
    if @checkBlock nodesize (level + 1) ptrs up.parentKey then do
      let (ret, slot) := binSearch (@Block.buffer (level + 1) ptrs) key
      let slot := if ret ≠ 0 ∧ 0 < slot then slot - 1 else slot
      match ← prepareNode nodesize insLen searchForSplit ptrs slot up with
      | .newRoot child => searchSlotLoop nodesize key insLen searchForSplit child .root
      | .node ptrs slot up =>
        match ptrs[slot]? with
        | none => .error (.ret (-eio) (up.plug ptrs))
        | some ptr =>
          searchSlotLoop nodesize key insLen searchForSplit ptr.child
            (.node (ptrs.take slot).reverse ptr.key (ptrs.drop (slot + 1)) up)
    else .error (.ret (-1) (up.plug ptrs))

end Btrfs.Btree
