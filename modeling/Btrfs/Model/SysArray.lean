import Btrfs.Model.Bytes
import Btrfs.Model.Ctree.Basic
import Btrfs.Model.DataTransfer
import Btrfs.Model.MapBlock

/-! # The system chunks in the superblock (`volumes.c`, `extent-tree.c`) -/

namespace Btrfs.Volumes

open Ctree (Key)

def EFBIG : ℤ := 27

def BTRFS_CHUNK_ITEM_KEY : ℕ := 228

/-- `sizeof(struct btrfs_disk_key)`. -/
def diskKeySize : ℕ := 17

/-- `sys_chunk_array` of a superblock, with `sys_chunk_array_size`. -/
structure SysChunkArray where
  size : ℕ
  bytes : List (BitVec 8)
  length_bytes : bytes.length = BTRFS_SYSTEM_CHUNK_ARRAY_SIZE

/-! ## Fields -/

/-- `btrfs_cpu_key_to_disk`. -/
def keyBytes (key : Key) : List (BitVec 8) :=
  leBytes 8 key.objectid ++ leBytes 1 key.type ++ leBytes 8 key.offset

/-- `btrfs_disk_key_to_cpu`. -/
def bytesKey (bytes : List (BitVec 8)) : Key :=
  ⟨leNat (bytes.take 8), leNat ((bytes.drop 8).take 1), leNat ((bytes.drop 9).take 8)⟩

/-- The number in `len` bytes of a chunk item. -/
def chunkField (chunk : List (BitVec 8)) (offset len : ℕ) : ℕ :=
  leNat ((chunk.drop offset).take len)

/-- `btrfs_stack_chunk_num_stripes`. -/
def chunkNumStripes (chunk : List (BitVec 8)) : ℕ := chunkField chunk 44 2

/-- A read of a field; it does not return when the field is not inside the item. -/
def loadField (chunk : List (BitVec 8)) (offset len : ℕ) : Call ℕ :=
  if chunk.length < offset + len then .error .bug else .ok (chunkField chunk offset len)

/-- The stripe `i` of a chunk item; the uuid of its device is read as well. -/
def loadStripe (chunk : List (BitVec 8)) (i : ℕ) : Call Stripe := do
  let devid ← loadField chunk (48 + 32 * i) 8
  let offset ← loadField chunk (48 + 32 * i + 8) 8
  let _uuid ← loadField chunk (48 + 32 * i + 16) 16
  return ⟨devid, offset⟩

/-- The fields of a chunk item that `read_one_chunk` reads. -/
def decodeChunk (chunk : List (BitVec 8)) : Call Chunk := do
  let numStripes ← loadField chunk 44 2
  return {
    length := ← loadField chunk 0 8
    stripeLen := ← loadField chunk 16 8
    type := BitVec.ofNat 64 (← loadField chunk 24 8)
    sectorSize := ← loadField chunk 40 4
    subStripes := ← loadField chunk 46 2
    stripes := ← (List.range numStripes).mapM (loadStripe chunk) }

namespace SysChunkArray

/-- A read of `len` bytes; it does not return when it goes to `limit` or beyond. -/
def load (super : SysChunkArray) (limit offset len : ℕ) : Call (List (BitVec 8)) :=
  if limit < offset + len then .error .bug else .ok ((super.bytes.drop offset).take len)

end SysChunkArray

/-! ## Adding and freeing -/

def btrfsAddSystemChunk (super : SysChunkArray) (key : Key) (chunk : List (BitVec 8))
    (itemSize : ℕ) : ℤ × SysChunkArray :=
  if h : BTRFS_SYSTEM_CHUNK_ARRAY_SIZE < super.size + itemSize + diskKeySize then (-EFBIG, super)
  else
    let withKey := memcpy super.bytes super.size (keyBytes key)
    (0,
      { size := super.size + (itemSize + diskKeySize)
        bytes := memcpy withKey (super.size + diskKeySize) (chunk.take itemSize)
        length_bytes := by
          have hbytes := super.length_bytes
          have hkey : (keyBytes key).length = diskKeySize := rfl
          have hwith : withKey.length = super.bytes.length :=
            length_memcpy (by rw [hkey]; omega)
          rw [length_memcpy, hwith, hbytes]
          rw [hwith, List.length_take]
          omega })

/-- The `memmove` of `free_system_chunk_item` and the smaller size. It does not return when the
entry ends behind the array. -/
def SysChunkArray.remove (super : SysChunkArray) (cur chunkLen : ℕ) : Call SysChunkArray :=
  if h : cur + chunkLen ≤ super.size ∧ super.size ≤ BTRFS_SYSTEM_CHUNK_ARRAY_SIZE then
    let moved := (super.bytes.drop (cur + chunkLen)).take (super.size - cur - chunkLen)
    .ok
      { size := super.size - chunkLen
        bytes := memcpy super.bytes cur moved
        length_bytes := by
          have hbytes := super.length_bytes
          rw [length_memcpy, hbytes]
          rw [List.length_take, List.length_drop]
          omega }
  else .error .bug

/-- The loop of `free_system_chunk_item`. -/
def freeSystemChunkItemLoop (super : SysChunkArray) (key : Key) : ℕ → ℕ →
    Call (ℤ × SysChunkArray)
  | 0, _ => .error .outOfRounds
  | rounds + 1, cur =>
    if super.size ≤ cur then .ok (-ENOENT, super)
    else do
      let cpuKey := bytesKey (← super.load BTRFS_SYSTEM_CHUNK_ARRAY_SIZE cur diskKeySize)
      if cpuKey.type ≠ BTRFS_CHUNK_ITEM_KEY then .ok (-eio, super)
      else
        let numStripes := leNat
          (← super.load BTRFS_SYSTEM_CHUNK_ARRAY_SIZE (cur + diskKeySize + 44) 2)
        bugOn (numStripes = 0)
        let chunkLen := btrfsChunkItemSize numStripes + diskKeySize
        if key = cpuKey then
          return (0, ← super.remove cur chunkLen)
        else freeSystemChunkItemLoop super key rounds (cur + chunkLen)

def freeSystemChunkItem (super : SysChunkArray) (key : Key) : Call (ℤ × SysChunkArray) :=
  freeSystemChunkItemLoop super key (super.size + 1) 0

/-! ## Reading -/

/-- The loop of `btrfs_read_sys_array`, for any `read_one_chunk`. All reads are limited to the
bytes in use. -/
def readSysArrayLoop {σ : Type} (readOneChunk : σ → Key → List (BitVec 8) → Call (ℤ × σ))
    (super : SysChunkArray) : ℕ → ℕ → σ → Call (ℤ × σ)
  | 0, _, _ => .error .outOfRounds
  | rounds + 1, cur, state =>
    if super.size ≤ cur then .ok (0, state)
    else if super.size < cur + diskKeySize then .ok (-eio, state)
    else do
      let key := bytesKey (← super.load super.size cur diskKeySize)
      let cur := cur + diskKeySize
      if key.type = BTRFS_CHUNK_ITEM_KEY then
        if super.size < cur + btrfsChunkItemSize 1 then .ok (-eio, state)
        else
          let numStripes := leNat (← super.load super.size (cur + 44) 2)
          if numStripes = 0 then .ok (-eio, state)
          else
            let len := btrfsChunkItemSize numStripes
            if super.size < cur + len then .ok (-eio, state)
            else
              let (ret, state) ← readOneChunk state key (← super.load super.size cur len)
              if ret ≠ 0 then .ok (ret, state)
              else readSysArrayLoop readOneChunk super rounds (cur + len) state
      else .ok (-eio, state)

/-- `btrfs_read_sys_array`, for any `read_one_chunk`. -/
def readSysArray {σ : Type} (readOneChunk : σ → Key → List (BitVec 8) → Call (ℤ × σ))
    (nodesize : ℕ) (super : SysChunkArray) (state : σ) : Call (ℤ × σ) :=
  if nodesize < BTRFS_SUPER_INFO_SIZE then .ok (-EINVAL, state)
  else readSysArrayLoop readOneChunk super (super.size + 1) 0 state

/-- `read_one_chunk` for a chunk in the superblock. -/
def readSysChunk (sectorsize : ℕ) (findDevice : ℕ → ℕ) (tree : MapTree) (key : Key)
    (bytes : List (BitVec 8)) : Call (ℤ × MapTree) := do
  let chunk ← decodeChunk bytes
  match ← readOneChunk sectorsize findDevice tree key.offset chunk (-1) 0 with
  | .ok tree => return (0, tree)
  | .error _ => return (-eio, tree)

def btrfsReadSysArray (sectorsize : ℕ) (findDevice : ℕ → ℕ) (nodesize : ℕ) (super : SysChunkArray)
    (tree : MapTree) : Call (ℤ × MapTree) :=
  readSysArray (readSysChunk sectorsize findDevice) nodesize super tree

end Btrfs.Volumes
