import Btrfs.Model.Basic

/-! # Tree blocks, keys and paths (`ctree.h`, `ctree.c`) -/

namespace Btrfs.Ctree

def BTRFS_MAX_LEVEL : ℕ := 8

/-- `struct btrfs_key`. -/
structure Key where
  objectid : ℕ
  type : ℕ
  offset : ℕ
deriving DecidableEq, Repr

def btrfsCompCpuKeys (k1 k2 : Key) : ℤ :=
  if k1.objectid > k2.objectid then 1
  else if k1.objectid < k2.objectid then -1
  else if k1.type > k2.type then 1
  else if k1.type < k2.type then -1
  else if k1.offset > k2.offset then 1
  else if k1.offset < k2.offset then -1
  else 0

/-- An item of a leaf with its data. -/
structure Item where
  key : Key
  data : List (BitVec 8)
deriving DecidableEq, Repr

/-- `struct btrfs_key_ptr`. -/
structure KeyPtr where
  key : Key
  blockptr : ℕ
  generation : ℕ
deriving DecidableEq, Repr

/-- A tree block in memory: `items` at level 0, `ptrs` above. The item offsets of a leaf are
those of items whose data are stored back to back from the end of the block. -/
structure ExtentBuffer where
  level : ℕ
  generation : ℕ
  items : List Item
  ptrs : List KeyPtr
deriving DecidableEq, Repr

/-- The keys of a block in slot order. -/
def ExtentBuffer.keys (eb : ExtentBuffer) : List Key :=
  if eb.level = 0 then eb.items.map Item.key else eb.ptrs.map KeyPtr.key

/-- `btrfs_header_nritems`. -/
def ExtentBuffer.nritems (eb : ExtentBuffer) : ℕ := eb.keys.length

/-- The blocks that can be read, by their `bytenr`. -/
abbrev Blocks := ℕ → Option ExtentBuffer

/-- The buffer behind a pointer that a successful read has returned. -/
def Blocks.buffer (blocks : Blocks) (bytenr : ℕ) : ExtentBuffer :=
  (blocks bytenr).getD ⟨0, 0, [], []⟩

/-- `struct btrfs_path`; the options of a path are off. -/
structure Path where
  nodes : ℕ → Option ℕ
  slots : ℕ → ℕ

def btrfsInitPath : Path := ⟨fun _ => none, fun _ => 0⟩

/-- `path->nodes[level] = node; path->slots[level] = slot`. -/
def Path.set (path : Path) (level node slot : ℕ) : Path where
  nodes := Function.update path.nodes level (some node)
  slots := Function.update path.slots level slot

/-! ## Block sizes -/

/-- `sizeof(struct btrfs_header)`. -/
def headerSize : ℕ := 101

/-- `sizeof(struct btrfs_item)`. -/
def itemSize : ℕ := 25

/-- `sizeof(struct btrfs_key_ptr)`. -/
def keyPtrSize : ℕ := 33

def leafDataSize (nodesize : ℕ) : ℕ := nodesize - headerSize

def nodeptrsPerBlock (nodesize : ℕ) : ℕ := leafDataSize nodesize / keyPtrSize

/-- The space a run of items takes in a leaf, headers included. -/
def leafSpaceUsed (items : List Item) : ℕ :=
  (items.map fun item => itemSize + item.data.length).sum

def btrfsLeafFreeSpace (nodesize : ℕ) (leaf : ExtentBuffer) : ℤ :=
  leafDataSize nodesize - leafSpaceUsed leaf.items

end Btrfs.Ctree
