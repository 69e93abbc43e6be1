import Btrfs.Model.Bytes
import Btrfs.Model.Ctree.Search

/-! # Tree blocks as bytes, and their checks (`ctree.c`) -/

namespace Btrfs.Ctree

/-- An `int` from the low 32 bits of a number. -/
def toInt32 (n : ℤ) : ℤ := (n + 2 ^ 31) % 2 ^ 32 - 2 ^ 31

/-- `enum btrfs_tree_block_status`. -/
inductive TreeBlockStatus where
  | clean
  | invalidNritems
  | invalidParentKey
  | badKeyOrder
  | invalidLevel
  | invalidFreeSpace
  | invalidOffsets
deriving DecidableEq, Repr

/-- The bytes of a tree block. -/
structure TreeBlock where
  data : List (BitVec 8)

namespace TreeBlock

/-- A number of `len` bytes in the block. -/
def get (buf : TreeBlock) (offset len : ℕ) : ℕ := leNat ((buf.data.drop offset).take len)

/-! ## Fields -/

/-- `btrfs_header_nritems`. -/
def nritems (buf : TreeBlock) : ℕ := buf.get 96 4

/-- `btrfs_header_level`. -/
def level (buf : TreeBlock) : ℕ := buf.get 100 1

/-- A `struct btrfs_disk_key`. -/
def diskKey (buf : TreeBlock) (offset : ℕ) : Key :=
  ⟨buf.get offset 8, buf.get (offset + 8) 1, buf.get (offset + 9) 8⟩

def nodeKey (buf : TreeBlock) (nr : ℕ) : Key := buf.diskKey (headerSize + nr * keyPtrSize)

def itemKey (buf : TreeBlock) (nr : ℕ) : Key := buf.diskKey (headerSize + nr * itemSize)

/-- `btrfs_item_offset_nr`. -/
def itemOffset (buf : TreeBlock) (nr : ℕ) : ℕ := buf.get (headerSize + nr * itemSize + 17) 4

def itemSizeNr (buf : TreeBlock) (nr : ℕ) : ℕ := buf.get (headerSize + nr * itemSize + 21) 4

/-- `btrfs_item_end_nr`. -/
def itemEnd (buf : TreeBlock) (nr : ℕ) : ℕ := (buf.itemOffset nr + buf.itemSizeNr nr) % 2 ^ 32

def leafSpaceUsed (l : TreeBlock) (start nr : ℕ) : ℤ :=
  let last := min l.nritems (start + nr) - 1
  if nr = 0 then 0
  else
    let dataLen := toInt32 (l.itemEnd start)
    let dataLen := toInt32 (dataLen - l.itemOffset last)
    toInt32 (dataLen + itemSize * nr)

def btrfsLeafFreeSpace (nodesize : ℕ) (leaf : TreeBlock) : ℤ :=
  toInt32 (leafDataSize nodesize - leaf.leafSpaceUsed 0 leaf.nritems)

/-! ## Checks -/

/-- The first key of a block is not the one its parent has for it. -/
def parentKeyDiffers (parentKey : Option Key) (first : Key) : Bool :=
  match parentKey with
  | none => false
  | some key => decide (key.type ≠ 0 ∧ key ≠ first)

/-- The loop of `btrfs_check_node`, for `n` keys from `i` on. -/
def nodeKeysLoop (buf : TreeBlock) : ℕ → ℕ → TreeBlockStatus
  | 0, _ => .clean
  | n + 1, i =>
    if 0 ≤ btrfsCompCpuKeys (buf.nodeKey i) (buf.nodeKey (i + 1)) then .badKeyOrder
    else nodeKeysLoop buf n (i + 1)

def btrfsCheckNode (nodesize : ℕ) (parentKey : Option Key) (buf : TreeBlock) : TreeBlockStatus :=
  if buf.nritems = 0 ∨ nodeptrsPerBlock nodesize < buf.nritems then .invalidNritems
  else if parentKeyDiffers parentKey (buf.nodeKey 0) then .invalidParentKey
  else nodeKeysLoop buf (buf.nritems - 2) 0

/-- The first loop of `btrfs_check_leaf`, for `n` items from `i` on. -/
def leafItemsLoop (nodesize : ℕ) (buf : TreeBlock) : ℕ → ℕ → TreeBlockStatus
  | 0, _ => .clean
  | n + 1, i =>
    if 0 ≤ btrfsCompCpuKeys (buf.itemKey i) (buf.itemKey (i + 1)) then .badKeyOrder
    else if buf.itemOffset i ≠ buf.itemEnd (i + 1) then .invalidOffsets
    else if i = 0 ∧ buf.itemEnd i ≠ leafDataSize nodesize then .invalidOffsets
    else leafItemsLoop nodesize buf n (i + 1)

/-- The second loop of `btrfs_check_leaf`, for `n` items from `i` on. -/
def leafEndsLoop (nodesize : ℕ) (buf : TreeBlock) : ℕ → ℕ → TreeBlockStatus
  | 0, _ => .clean
  | n + 1, i =>
    if leafDataSize nodesize < buf.itemEnd i then .invalidOffsets
    else leafEndsLoop nodesize buf n (i + 1)

def btrfsCheckLeaf (nodesize : ℕ) (parentKey : Option Key) (buf : TreeBlock) : TreeBlockStatus :=
  if buf.data.length < buf.nritems * itemSize then .invalidNritems
  else if buf.level ≠ 0 then .invalidLevel
  else if buf.btrfsLeafFreeSpace nodesize < 0 then .invalidFreeSpace
  else if buf.nritems = 0 then .clean
  else if parentKeyDiffers parentKey (buf.itemKey 0) then .invalidParentKey
  else
    match leafItemsLoop nodesize buf (buf.nritems - 1) 0 with
    | .clean => leafEndsLoop nodesize buf buf.nritems 0
    | status => status

/-- `check_block` for a block at `level` of a path. -/
def checkBlock (nodesize : ℕ) (parentKey : Option Key) (level : ℕ) (buf : TreeBlock) : ℤ :=
  let ret := if level = 0 then btrfsCheckLeaf nodesize parentKey buf
    else btrfsCheckNode nodesize parentKey buf
  if ret = .clean then 0 else -eio

/-! ## Binary search -/

/-- The keys that `bin_search` compares in a block at `level` of a path. -/
def keys (buf : TreeBlock) (level : ℕ) : List Key :=
  (List.range buf.nritems).map fun nr => if level = 0 then buf.itemKey nr else buf.nodeKey nr

def binSearch (buf : TreeBlock) (key : Key) (level : ℕ) : ℤ × ℕ :=
  binSearchLoop (buf.keys level) key buf.nritems 0 buf.nritems

end TreeBlock

end Btrfs.Ctree
