import Btrfs.Model.Ctree.Basic

/-! # Searching and walking a tree (`ctree.c`) -/

namespace Btrfs.Ctree

/-! ## Block checks -/

/-- The order test between the slots `i` and `i + 1` of a block, for the first `n` of them. -/
def keysInOrder (keys : List Key) (n : ℕ) : Bool :=
  (List.range n).all fun i =>
    match keys[i]?, keys[i + 1]? with
    | some k1, some k2 => decide (btrfsCompCpuKeys k1 k2 < 0)
    | _, _ => true

/-- A parent key of type 0 is not compared. -/
def parentKeyOk (parentKey : Option Key) (keys : List Key) : Bool :=
  match parentKey with
  | none => true
  | some key => decide (key.type = 0 ∨ keys.head? = some key)

/-- `btrfs_check_node` returns `BTRFS_TREE_BLOCK_CLEAN`. -/
def btrfsCheckNode (nodesize : ℕ) (parentKey : Option Key) (buf : ExtentBuffer) : Bool :=
  decide (buf.nritems ≠ 0 ∧ buf.nritems ≤ nodeptrsPerBlock nodesize) &&
    parentKeyOk parentKey buf.keys && keysInOrder buf.keys (buf.nritems - 2)

/-- `btrfs_check_leaf` returns `BTRFS_TREE_BLOCK_CLEAN`. The tests of item offsets hold by
the layout of the items. -/
def btrfsCheckLeaf (nodesize : ℕ) (parentKey : Option Key) (buf : ExtentBuffer) : Bool :=
  decide (buf.nritems * itemSize ≤ nodesize) && decide (buf.level = 0) &&
    decide (0 ≤ btrfsLeafFreeSpace nodesize buf) &&
    (decide (buf.nritems = 0) ||
      (parentKeyOk parentKey buf.keys && keysInOrder buf.keys (buf.nritems - 1)))

def checkBlock (nodesize : ℕ) (blocks : Blocks) (path : Path) (level : ℕ) : Bool :=
  let parentKey := (path.nodes (level + 1)).bind fun parent =>
    (blocks.buffer parent).keys[path.slots (level + 1)]?
  match path.nodes level with
  | none => false
  | some b =>
    if level = 0 then btrfsCheckLeaf nodesize parentKey (blocks.buffer b)
    else btrfsCheckNode nodesize parentKey (blocks.buffer b)

/-! ## Binary search -/

/-- The loop of `generic_bin_search`, with the rounds it can take at most. It returns the
value and the slot. -/
def binSearchLoop (keys : List Key) (key : Key) : ℕ → ℕ → ℕ → ℤ × ℕ
  | 0, low, _ => (1, low)
  | n + 1, low, high =>
    if low < high then
      let mid := (low + high) / 2
      let ret := btrfsCompCpuKeys (keys.getD mid key) key
      if ret < 0 then binSearchLoop keys key n (mid + 1) high
      else if ret > 0 then binSearchLoop keys key n low mid
      else (0, mid)
    else (1, low)

def binSearch (eb : ExtentBuffer) (key : Key) : ℤ × ℕ :=
  binSearchLoop eb.keys key eb.nritems 0 eb.nritems

/-! ## Walking down -/

/-- `read_node_slot`; `none` stands for `NULL` and for an error pointer. -/
def readNodeSlot (blocks : Blocks) (parent slot : ℕ) : Option ℕ :=
  let eb := blocks.buffer parent
  if eb.nritems ≤ slot then none
  else if eb.level = 0 then none
  else
    match eb.ptrs[slot]? with
    | none => none
    | some ptr =>
      match blocks ptr.blockptr with
      | none => none
      | some child => if child.level ≠ eb.level - 1 then none else some ptr.blockptr

/-- The loop of `btrfs_search_slot` with `cow = 0`, from the block `b` on. Each round goes down
one level, so one round for each level suffices. -/
def searchSlotLoop (nodesize : ℕ) (blocks : Blocks) (key : Key) : ℕ → Path → ℕ → ℤ × Path
  | 0, path, _ => (1, path)
  | n + 1, path, b =>
    let eb := blocks.buffer b
    let level := eb.level
    let path := path.set level b (path.slots level)
    if ¬ checkBlock nodesize blocks path level then (-1, path)
    else
      let (ret, slot) := binSearch eb key
      if level ≠ 0 then
        let slot := if ret ≠ 0 ∧ 0 < slot then slot - 1 else slot
        let path := path.set level b slot
        match readNodeSlot blocks b slot with
        | none => (-eio, path)
        | some child => searchSlotLoop nodesize blocks key n path child
      else (ret, path.set level b slot)

/-- `btrfs_search_slot(NULL, root, key, path, 0, 0)` on a fresh path. -/
def btrfsSearchSlot (nodesize : ℕ) (blocks : Blocks) (root : ℕ) (key : Key) : ℤ × Path :=
  searchSlotLoop nodesize blocks key ((blocks.buffer root).level + 1) btrfsInitPath root

/-! ## The next and the previous leaf -/

/-- The first loop of `btrfs_next_leaf`: a level with a next slot, that slot and the block in
it, or the value to return. -/
def nextLeafUp (blocks : Blocks) (path : Path) : ℕ → ℕ → Except ℤ (ℕ × ℕ × ℕ)
  | 0, _ => .error 1
  | n + 1, level =>
    match path.nodes level with
    | none => .error 1
    | some c =>
      let slot := path.slots level + 1
      if (blocks.buffer c).nritems ≤ slot then nextLeafUp blocks path n (level + 1)
      else
        match readNodeSlot blocks c slot with
        | none => .error (-eio)
        | some next => .ok (level, slot, next)

/-- The second loop of `btrfs_next_leaf`, below `level`. -/
def nextLeafDown (blocks : Blocks) : ℕ → ℕ → Path → ℤ × Path
  | 0, _, path => (0, path)
  | level + 1, next, path =>
    let path := path.set level next 0
    if level = 0 then (0, path)
    else
      match readNodeSlot blocks next 0 with
      | none => (-eio, path)
      | some next => nextLeafDown blocks level next path

def btrfsNextLeaf (blocks : Blocks) (path : Path) : ℤ × Path :=
  match nextLeafUp blocks path (BTRFS_MAX_LEVEL - 1) 1 with
  | .error ret => (ret, path)
  | .ok (level, slot, next) =>
    nextLeafDown blocks level next { path with slots := Function.update path.slots level slot }

/-- The buffer at the bottom of the path. -/
def Path.leaf (path : Path) (blocks : Blocks) : ExtentBuffer :=
  match path.nodes 0 with
  | none => ⟨0, 0, [], []⟩
  | some b => blocks.buffer b

def btrfsNextItem (blocks : Blocks) (path : Path) : ℤ × Path :=
  let path := { path with slots := Function.update path.slots 0 (path.slots 0 + 1) }
  if (path.leaf blocks).nritems ≤ path.slots 0 then btrfsNextLeaf blocks path else (0, path)

/-- The first loop of `btrfs_prev_leaf`. -/
def prevLeafUp (blocks : Blocks) (path : Path) : ℕ → ℕ → Except ℤ (ℕ × ℕ × ℕ)
  | 0, _ => .error 1
  | n + 1, level =>
    match path.nodes level with
    | none => .error 1
    | some c =>
      let slot := path.slots level
      if slot = 0 then prevLeafUp blocks path n (level + 1)
      else
        match readNodeSlot blocks c (slot - 1) with
        | none => .error (-eio)
        | some next => .ok (level, slot - 1, next)

/-- The second loop of `btrfs_prev_leaf`, below `level`. -/
def prevLeafDown (blocks : Blocks) : ℕ → ℕ → Path → ℤ × Path
  | 0, _, path => (0, path)
  | level + 1, next, path =>
    let slot := (blocks.buffer next).nritems - 1
    let path := path.set level next slot
    if level = 0 then (0, path)
    else
      match readNodeSlot blocks next slot with
      | none => (-eio, path)
      | some next => prevLeafDown blocks level next path

def btrfsPrevLeaf (blocks : Blocks) (path : Path) : ℤ × Path :=
  match prevLeafUp blocks path (BTRFS_MAX_LEVEL - 1) 1 with
  | .error ret => (ret, path)
  | .ok (level, slot, next) =>
    prevLeafDown blocks level next { path with slots := Function.update path.slots level slot }

/-- The item at the bottom of the path. -/
def Path.item (path : Path) (blocks : Blocks) : Option Item :=
  (path.leaf blocks).items[path.slots 0]?

/-- `btrfs_previous_item`, for a number of rounds of its loop. -/
def btrfsPreviousItem (blocks : Blocks) (minObjectid : ℕ) (type : ℤ) :
    ℕ → Path → Call (ℤ × Path)
  | 0, _ => .error .outOfRounds
  | n + 1, path =>
    let (ret, path) :=
      if path.slots 0 = 0 then btrfsPrevLeaf blocks path
      else (0, { path with slots := Function.update path.slots 0 (path.slots 0 - 1) })
    if ret ≠ 0 then .ok (ret, path)
    else
      let nritems := (path.leaf blocks).nritems
      if nritems = 0 then .ok (1, path)
      else
        let path := if path.slots 0 = nritems then
            { path with slots := Function.update path.slots 0 (path.slots 0 - 1) }
          else path
        match path.item blocks with
        | none => .error .bug
        | some found =>
          if found.key.objectid < minObjectid then .ok (1, path)
          else if (found.key.type : ℤ) = type then .ok (0, path)
          else if found.key.objectid = minObjectid ∧ (found.key.type : ℤ) < type then
            .ok (1, path)
          else btrfsPreviousItem blocks minObjectid type n path

end Btrfs.Ctree
