import Btrfs.Model.Ctree.TreeBlock
import Btrfs.Model.SysArray

/-! # Edits inside a leaf (`ctree.c`)

The steps of the item functions on the bytes of the leaf that the path points to. The tree
search before them and the repair of parent keys after them touch other blocks. -/

namespace Btrfs.Ctree

/-- Conversion of an `int` to a `u32`. -/
def u32OfInt (n : ℤ) : ℕ := (n % 2 ^ 32).toNat

/-- Conversion of an `int` to an `unsigned long`. -/
def u64OfInt (n : ℤ) : ℕ := (n % 2 ^ 64).toNat

/-- Subtraction of `u32`. -/
def sub32 (a b : ℕ) : ℕ := u32OfInt (a - b)

namespace TreeBlock

/-! ## Bytes and fields -/

/-- `read_extent_buffer`. -/
def read (leaf : TreeBlock) (offset len : ℕ) : List (BitVec 8) := (leaf.data.drop offset).take len

/-- `write_extent_buffer`. -/
def write (leaf : TreeBlock) (bytes : List (BitVec 8)) (offset : ℕ) : TreeBlock :=
  ⟨memcpy leaf.data offset bytes⟩

/-- `memmove_extent_buffer`. -/
def memmove (leaf : TreeBlock) (dst src len : ℕ) : TreeBlock := leaf.write (leaf.read src len) dst

def itemNrOffset (nr : ℕ) : ℕ := headerSize + nr * itemSize

def itemPtrOffset (leaf : TreeBlock) (slot : ℕ) : ℕ := headerSize + leaf.itemOffset slot

/-- `btrfs_set_header_nritems`. -/
def setNritems (leaf : TreeBlock) (nritems : ℕ) : TreeBlock := leaf.write (leBytes 4 nritems) 96

def setItemKey (leaf : TreeBlock) (nr : ℕ) (key : Key) : TreeBlock :=
  leaf.write (Volumes.keyBytes key) (itemNrOffset nr)

def setItemOffset (leaf : TreeBlock) (nr offset : ℕ) : TreeBlock :=
  leaf.write (leBytes 4 offset) (itemNrOffset nr + 17)

def setItemSize (leaf : TreeBlock) (nr size : ℕ) : TreeBlock :=
  leaf.write (leBytes 4 size) (itemNrOffset nr + 21)

def leafDataEnd (nodesize : ℕ) (leaf : TreeBlock) : ℕ :=
  if leaf.nritems = 0 then leafDataSize nodesize else leaf.itemOffset (leaf.nritems - 1)

/-- The loops that correct the data pointers, for `n` items from `i` on. -/
def correctOffsets (f : ℕ → ℕ) : ℕ → ℕ → TreeBlock → TreeBlock
  | 0, _, leaf => leaf
  | n + 1, i, leaf => correctOffsets f n (i + 1) (leaf.setItemOffset i (f (leaf.itemOffset i)))

/-! ## Insertion -/

/-- The loop of `btrfs_insert_empty_items` that sets up the items. -/
def setupItems : List (Key × ℕ) → ℕ → ℕ → TreeBlock → TreeBlock
  | [], _, _, leaf => leaf
  | (key, size) :: rest, slot, dataEnd, leaf =>
    let leaf := leaf.setItemKey slot key
    let leaf := leaf.setItemOffset slot (sub32 dataEnd size)
    setupItems rest (slot + 1) (sub32 dataEnd size) (leaf.setItemSize slot size)

/-- The part of `btrfs_insert_empty_items` that moves the items from `slot` on; the result is
`data_end` and the leaf. -/
def openGap (nodesize : ℕ) (leaf : TreeBlock) (slot nr totalData : ℕ) : Call (ℕ × TreeBlock) := do
  let nritems := leaf.nritems
  let dataEnd := leaf.leafDataEnd nodesize
  if slot < nritems then
    let oldData := leaf.itemEnd slot
    bugOn (oldData < dataEnd)
    let leaf := correctOffsets (fun ioff => sub32 ioff totalData) (nritems - slot) slot leaf
    let leaf := leaf.memmove (itemNrOffset (slot + nr)) (itemNrOffset slot)
      (sub32 nritems slot * itemSize)
    let leaf := leaf.memmove (sub64 (headerSize + dataEnd) totalData) (headerSize + dataEnd)
      (sub32 oldData dataEnd)
    return (oldData, leaf)
  else
    return (dataEnd, leaf)

/-- `btrfs_insert_empty_items` after its search, for the keys and data sizes `new`. -/
def btrfsInsertEmptyItems (nodesize : ℕ) (leaf : TreeBlock) (slot : ℕ) (new : List (Key × ℕ)) :
    Call TreeBlock := do
  let totalData := (new.map Prod.snd).sum % 2 ^ 32
  let totalSize := (totalData + new.length * itemSize) % 2 ^ 32
  let nritems := leaf.nritems
  bugOn (u32OfInt (leaf.btrfsLeafFreeSpace nodesize) < totalSize)
  let gap ← openGap nodesize leaf slot new.length totalData
  let leaf := (setupItems new slot gap.1 gap.2).setNritems (nritems + new.length)
  bugOn (leaf.btrfsLeafFreeSpace nodesize < 0)
  return leaf

/-! ## Extension and truncation -/

def btrfsExtendItem (nodesize : ℕ) (leaf : TreeBlock) (slot dataSize : ℕ) : Call TreeBlock := do
  let nritems := leaf.nritems
  let dataEnd := leaf.leafDataEnd nodesize
  bugOn (u32OfInt (leaf.btrfsLeafFreeSpace nodesize) < dataSize)
  let oldData := leaf.itemEnd slot
  bugOn (nritems ≤ slot)
  let leaf := correctOffsets (fun ioff => sub32 ioff dataSize) (nritems - slot) slot leaf
  let leaf := leaf.memmove (sub64 (headerSize + dataEnd) dataSize) (headerSize + dataEnd)
    (sub32 oldData dataEnd)
  let leaf := leaf.setItemSize slot (leaf.itemSizeNr slot + dataSize)
  bugOn (leaf.btrfsLeafFreeSpace nodesize < 0)
  return leaf

/-- `btrfs_truncate_item` with `from_end` set. -/
def btrfsTruncateItem (nodesize : ℕ) (leaf : TreeBlock) (slot newSize : ℕ) : Call TreeBlock := do
  let oldSize := leaf.itemSizeNr slot
  if oldSize = newSize then return leaf
  let nritems := leaf.nritems
  let dataEnd := leaf.leafDataEnd nodesize
  let oldDataStart := leaf.itemOffset slot
  let sizeDiff := sub32 oldSize newSize
  bugOn (nritems ≤ slot)
  let leaf := correctOffsets (fun ioff => ioff + sizeDiff) (nritems - slot) slot leaf
  let leaf := leaf.memmove (headerSize + dataEnd + sizeDiff) (headerSize + dataEnd)
    (sub32 (oldDataStart + newSize) dataEnd)
  let leaf := leaf.setItemSize slot newSize
  bugOn (leaf.btrfsLeafFreeSpace nodesize < 0)
  return leaf

/-! ## Splitting -/

/-- The part of `btrfs_split_item` that moves the item headers from `slot` on. -/
def shiftItems (leaf : TreeBlock) (slot : ℕ) : TreeBlock :=
  if slot < leaf.nritems then
    leaf.memmove (itemNrOffset (slot + 1)) (itemNrOffset slot)
      (sub32 leaf.nritems slot * itemSize)
  else leaf

/-- `btrfs_split_item` from its label `split` on, which it reaches at once when the leaf has
room for one more item. -/
def btrfsSplitItem (nodesize : ℕ) (leaf : TreeBlock) (slot : ℕ) (newKey : Key) (splitOffset : ℕ) :
    Call TreeBlock := do
  let origOffset := leaf.itemOffset slot
  let itemSize := leaf.itemSizeNr slot
  let buf := leaf.read (leaf.itemPtrOffset slot) itemSize
  let nritems := leaf.nritems
  let leaf := (leaf.shiftItems (slot + 1)).setItemKey (slot + 1) newKey
  let leaf := leaf.setItemOffset (slot + 1) origOffset
  let leaf := leaf.setItemSize (slot + 1) (sub64 itemSize splitOffset)
  let leaf := leaf.setItemOffset slot (sub64 ((origOffset + itemSize) % 2 ^ 32) splitOffset)
  let leaf := leaf.setItemSize slot splitOffset
  let leaf := leaf.setNritems (nritems + 1)
  let leaf := leaf.write (buf.take splitOffset) (leaf.itemPtrOffset slot)
  let leaf := leaf.write (buf.drop splitOffset) (leaf.itemPtrOffset (slot + 1))
  bugOn (leaf.btrfsLeafFreeSpace nodesize < 0)
  return leaf

/-! ## Deletion -/

/-- The loop of `btrfs_del_items` that adds up the sizes of `n` items from `i` on. -/
def addSizes (leaf : TreeBlock) : ℕ → ℕ → ℤ → ℤ
  | 0, _, dsize => dsize
  | n + 1, i, dsize => addSizes leaf n (i + 1) (toInt32 (dsize + leaf.itemSizeNr i))

/-- The part of `btrfs_del_items` that moves the items behind the deleted ones. -/
def closeGap (nodesize : ℕ) (leaf : TreeBlock) (slot nr : ℕ) (dsize lastOff : ℤ) : TreeBlock :=
  let nritems := leaf.nritems
  if slot + nr ≠ nritems then
    let dataEnd := toInt32 (leaf.leafDataEnd nodesize)
    let leaf := leaf.memmove (u64OfInt (headerSize + dataEnd + dsize))
      (u64OfInt (headerSize + dataEnd)) (u64OfInt (toInt32 (lastOff - dataEnd)))
    let leaf := correctOffsets (fun ioff => u32OfInt (ioff + dsize)) (nritems - (slot + nr))
      (slot + nr) leaf
    leaf.memmove (itemNrOffset slot) (itemNrOffset (slot + nr))
      (itemSize * sub32 (sub32 nritems slot) nr)
  else leaf

/-- `btrfs_del_items` up to the balancing of the leaf, for `0 < nr`. -/
def btrfsDelItems (nodesize : ℕ) (leaf : TreeBlock) (slot nr : ℕ) : TreeBlock :=
  let lastOff := toInt32 (leaf.itemOffset (slot + nr - 1))
  let dsize := leaf.addSizes nr slot 0
  let nritems := leaf.nritems
  (leaf.closeGap nodesize slot nr dsize lastOff).setNritems (sub32 nritems nr)

end TreeBlock

end Btrfs.Ctree
