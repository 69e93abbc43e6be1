import Btrfs.Model.Image.Metadump
import Btrfs.Model.Image.Sanitize
import Btrfs.Model.SysArray

/-! # The chunks of a restore (`image/main.c`) -/

namespace Btrfs.Image

open RbTree Sanitize Volumes

/-- `struct fs_chunk`. -/
structure FsChunk where
  logical : ℕ
  physical : ℕ
  physicalDup : ℕ
  bytes : ℕ
deriving DecidableEq, Repr

/-- `chunk_cmp` with `fuzz`, where `ins` is the logical address of the other chunk. -/
def chunkCmp (entry : FsChunk) (ins : ℕ) : ℤ :=
  if entry.logical ≤ ins ∧ ins < wrap64 (entry.logical + entry.bytes) then 0
  else if ins < entry.logical then -1
  else if entry.logical < ins then 1
  else 0

/-- `logical_to_physical`, with `*size` and `*physical_dup`. -/
def logicalToPhysical (chunkTree : RbNode FsChunk) (logical size physicalDup : ℕ) :
    Call (ℕ × ℕ × ℕ) :=
  if logical = BTRFS_SUPER_INFO_OFFSET then .ok (logical, size, physicalDup)
  else
    match treeSearch (fun entry => chunkCmp entry logical) chunkTree with
    | none => .ok (logical, size, physicalDup)
    | some chunk =>
      if logical < chunk.logical ∨ wrap64 (chunk.logical + chunk.bytes) < logical then .error .bug
      else
        let offset := logical - chunk.logical
        .ok (wrap64 (chunk.physical + offset),
          min size (sub64 (chunk.bytes + chunk.logical) logical),
          if chunk.physicalDup ≠ 0 then wrap64 (chunk.physicalDup + offset) else 0)

/-! ## The system chunks of the restored superblock -/

/-- The device of a superblock: `devid` and `uuid` of its `dev_item`. -/
structure DevItem where
  devid : ℕ
  uuid : List (BitVec 8)
  length_uuid : uuid.length = 16

/-- A `struct btrfs_stripe`. -/
def stripeBytes (dev : DevItem) (offset : ℕ) : List (BitVec 8) :=
  leBytes 8 dev.devid ++ (leBytes 8 offset ++ dev.uuid)

/-- `btrfs_stack_chunk_type`. -/
def chunkType (chunk : List (BitVec 8)) : BitVec 64 := BitVec.ofNat 64 (chunkField chunk 24 8)

def isDup (chunk : List (BitVec 8)) : Bool := hasFlags (chunkType chunk) BTRFS_BLOCK_GROUP_DUP

/-- What `update_super` makes of a chunk with its first stripe. -/
def updateChunk (dev : DevItem) (physical : ℕ) (chunk : List (BitVec 8)) : List (BitVec 8) :=
  let chunk := memcpy chunk 46 (leBytes 2 0)
  let chunk :=
    if isDup chunk then chunk
    else memcpy (memcpy chunk 44 (leBytes 2 1)) 24 (leBytes 8 BTRFS_BLOCK_GROUP_SYSTEM.toNat)
  memcpy chunk 48 (stripeBytes dev physical)

/-- A `memmove` in the array, of bytes that were changed on the way. It does not return when it
goes out of the array. -/
def moveBytes (bytes : List (BitVec 8)) (dst src len : ℕ)
    (change : List (BitVec 8) → List (BitVec 8)) : Call (List (BitVec 8)) :=
  if bytes.length < dst + len ∨ bytes.length < src + len then .error .bug
  else .ok (memcpy bytes dst (change ((bytes.drop src).take len)))

/-- The loop of `update_super` over `sys_chunk_array`, with the offsets of `ptr` and `write_ptr`.
The result has the new size; `none` stands for `-EIO`. -/
def updateSuperLoop (dev : DevItem) (chunkTree : RbNode FsChunk) (arraySize : ℕ) :
    ℕ → ℕ → ℕ → List (BitVec 8) → Call (Option (ℕ × List (BitVec 8)))
  | 0, _, _, _ => .error .outOfRounds
  | rounds + 1, ptr, writePtr, bytes =>
    if arraySize ≤ ptr then .ok (some (writePtr, bytes))
    else do
      let key := bytesKey ((bytes.drop ptr).take diskKeySize)
      let bytes ← moveBytes bytes writePtr ptr diskKeySize id
      let writePtr := writePtr + diskKeySize
      let ptr := ptr + diskKeySize
      if key.type = BTRFS_CHUNK_ITEM_KEY then
        let chunk := (bytes.drop ptr).take (btrfsChunkItemSize 1)
        let oldNumStripes := chunkNumStripes chunk
        let (physical, _, _) ← logicalToPhysical chunkTree key.offset 0 0
        let bytes ← moveBytes bytes writePtr ptr (btrfsChunkItemSize 1) (updateChunk dev physical)
        -- a DUP chunk gets room for its second stripe, which stays as it is
        let writePtr := if isDup chunk then writePtr + 32 else writePtr
        bugOn (oldNumStripes = 0)
        updateSuperLoop dev chunkTree arraySize rounds (ptr + btrfsChunkItemSize oldNumStripes)
          (writePtr + btrfsChunkItemSize 1) bytes
      else return none

/-- `update_super`, as far as `sys_chunk_array` goes: the return value and the new array. -/
def updateSuper (dev : DevItem) (chunkTree : RbNode FsChunk) (super : SysChunkArray) :
    Call (ℤ × ℕ × List (BitVec 8)) := do
  match ← updateSuperLoop dev chunkTree super.size (super.size + 1) 0 0 super.bytes with
  | none => return (-eio, super.size, super.bytes)
  | some (newArraySize, bytes) => return (0, newArraySize, bytes)

/-! ## Reading the chunk tree and remapping -/

/-- What `read_chunk_block` reads of a chunk item: the key offset, and of the chunk its length, its
type and the offsets of its first two stripes. -/
structure LeafChunk where
  logical : ℕ
  length : ℕ
  type : BitVec 64
  stripe0 : ℕ
  stripe1 : ℕ
  length_pos : 0 < length
  range_lt : logical + length < 2 ^ 64
  stripe0_lt : stripe0 < 2 ^ 64
  stripe1_lt : stripe1 < 2 ^ 64

/-- `physical_cmp` with `fuzz`. -/
def physicalCmp (entry ins : FsChunk) : ℤ :=
  if entry.physical ≤ ins.physical ∧ ins.physical < wrap64 (entry.physical + entry.bytes) then 0
  else if ins.physical ≤ entry.physical ∧ entry.physical < wrap64 (ins.physical + ins.bytes) then 0
  else if ins.physical < entry.physical then -1
  else if entry.physical < ins.physical then 1
  else 0

/-- The chunks of a `struct mdrestore_struct`. The two trees and the list hold the same
`struct fs_chunk` objects. -/
structure RestoreChunks where
  chunkTree : RbNode FsChunk := .nil
  physicalTree : RbNode FsChunk := .nil
  overlappingChunks : List FsChunk := []
  lastPhysicalOffset : ℕ := 0
  allocedChunks : ℕ := 0
  clearSpaceCache : Bool := false

/-- The `fs_chunk` of a chunk item. The source sets `physical_dup` after the search in
`physical_tree`, which does not read it. -/
def LeafChunk.fsChunk (item : LeafChunk) : FsChunk where
  logical := item.logical
  physical := item.stripe0
  physicalDup := if hasFlags item.type BTRFS_BLOCK_GROUP_DUP then item.stripe1 else 0
  bytes := item.length

/-- The new `last_physical_offset` behind a chunk. -/
def nextLastPhysicalOffset (last : ℕ) (chunk : FsChunk) : ℕ :=
  if last < wrap64 (chunk.physicalDup + chunk.bytes) then wrap64 (chunk.physicalDup + chunk.bytes)
  else if last < wrap64 (chunk.physical + chunk.bytes) then wrap64 (chunk.physical + chunk.bytes)
  else last

/-- The chunk goes to `physical_tree`, or to `overlapping_chunks`. -/
def placeChunk (st : RestoreChunks) (chunk : FsChunk) : Call (RbNode FsChunk × List FsChunk) :=
  match treeSearch (fun entry => physicalCmp entry chunk) st.physicalTree with
  | some _ => .ok (st.physicalTree, chunk :: st.overlappingChunks)
  | none => do
      let physicalTree ← treeInsert (fun entry => physicalCmp entry chunk) st.physicalTree chunk
      return (physicalTree, st.overlappingChunks)

/-- The loop body of `read_chunk_block` for a chunk item of a leaf. -/
def readChunkItem (st : RestoreChunks) (chunk : FsChunk) : Call RestoreChunks := do
  let (physicalTree, overlappingChunks) ← placeChunk st chunk
  let chunkTree ← treeInsert (fun entry => chunkCmp entry chunk.logical) st.chunkTree chunk
  return { st with
    chunkTree := chunkTree
    physicalTree := physicalTree
    overlappingChunks := overlappingChunks
    lastPhysicalOffset := nextLastPhysicalOffset st.lastPhysicalOffset chunk
    allocedChunks := wrap64 (st.allocedChunks + chunk.bytes +
      if chunk.physicalDup ≠ 0 then chunk.bytes else 0) }

/-- `build_chunk_tree` for the chunk items of an image, in the order of their keys. -/
def readChunkItems : RestoreChunks → List LeafChunk → Call RestoreChunks
  | st, [] => .ok st
  | st, item :: items => do
      let st ← readChunkItem st item.fsChunk
      readChunkItems st items

def BTRFS_SUPER_MIRROR_MAX : ℕ := 3

def btrfsSbOffset (mirror : ℕ) : ℕ :=
  if mirror ≠ 0 then 16384 <<< (12 * mirror) else BTRFS_SUPER_INFO_OFFSET

def rangeContainsSuper (physical bytes : ℕ) : Bool :=
  (List.range BTRFS_SUPER_MIRROR_MAX).any fun i =>
    physical ≤ btrfsSbOffset i ∧ btrfsSbOffset i < wrap64 (physical + bytes)

/-- An assignment to the `physical` of the object with a logical address. -/
def setPhysical (logical physical : ℕ) (chunk : FsChunk) : FsChunk :=
  if chunk.logical = logical then { chunk with physical := physical } else chunk

/-- The loop of `remap_overlapping_chunks` over the chunks that are still in the list. -/
def remapLoop : List FsChunk → RestoreChunks → Call RestoreChunks
  | [], st => .ok { st with overlappingChunks := [] }
  | chunk :: chunks, st => do
      let moved := { chunk with physical := st.lastPhysicalOffset }
      let physicalTree ← treeInsert (fun entry => physicalCmp entry moved) st.physicalTree moved
      remapLoop chunks { st with
        clearSpaceCache := st.clearSpaceCache || rangeContainsSuper chunk.physical chunk.bytes
        chunkTree := mapEntries (setPhysical chunk.logical st.lastPhysicalOffset) st.chunkTree
        physicalTree := physicalTree
        lastPhysicalOffset := wrap64 (st.lastPhysicalOffset + chunk.bytes) }

def remapOverlappingChunks (st : RestoreChunks) : Call RestoreChunks :=
  remapLoop st.overlappingChunks st

/-- The chunks of a restore before its first block is written. -/
def buildChunks (items : List LeafChunk) : Call RestoreChunks := do
  let st ← readChunkItems {} items
  remapOverlappingChunks st

end Btrfs.Image
