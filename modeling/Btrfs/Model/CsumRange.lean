import Btrfs.Model.Ctree.Search

/-! # Counting checksums (`check/mode-common.c`) -/

namespace Btrfs.Check

open Ctree

def BTRFS_EXTENT_CSUM_OBJECTID : ℕ := 2 ^ 64 - 10

def BTRFS_EXTENT_CSUM_KEY : ℕ := 128

/-- The test of `count_csum_range` for a key of a csum item. -/
def isCsumKey (key : Key) : Bool :=
  key.objectid == BTRFS_EXTENT_CSUM_OBJECTID && key.type == BTRFS_EXTENT_CSUM_KEY

/-- `start`, `len` and `*found` of `count_csum_range`. -/
structure CsumCount where
  start : ℕ
  len : ℕ
  found : ℕ
deriving DecidableEq, Repr

/-- What `count_csum_range` reads of `fs_info`. -/
structure CsumInfo where
  csumSize : ℕ
  sectorsize : ℕ
deriving DecidableEq, Repr

/-- Where the bytes end that the checksums of an item are for. -/
def CsumInfo.csumEnd (info : CsumInfo) (item : Item) : ℕ :=
  item.key.offset + item.data.length / info.csumSize * info.sectorsize

/-- What a round does with an item that covers the bytes from `offset` to `csumEnd`. -/
def CsumCount.add (c : CsumCount) (offset csumEnd : ℕ) : CsumCount :=
  let start := if offset > c.start then offset else c.start
  if csumEnd > start then
    let size := min (csumEnd - start) c.len
    ⟨wrap64 (start + size), c.len - size, wrap64 (c.found + size)⟩
  else { c with start := start }

/-- The rest of a round at the item of the path. An item behind the last one of a leaf is never
looked at in a valid tree. -/
def visitCsumItem (info : CsumInfo) (c : CsumCount) (next : CsumCount → Call (ℤ × ℕ)) :
    Option Item → Call (ℤ × ℕ)
  | none => .error .bug
  | some item =>
    if !isCsumKey item.key then .ok (0, c.found)
    else if item.key.offset ≥ wrap64 (c.start + c.len) then .ok (0, c.found)
    else next (c.add item.key.offset (wrap64 (info.csumEnd item)))

/-- The loop of `count_csum_range`: the returned value and `*found`. -/
def countCsumLoop (info : CsumInfo) (blocks : Blocks) : ℕ → Path → CsumCount → Call (ℤ × ℕ)
  | 0, _, _ => .error .outOfRounds
  | n + 1, path, c =>
    if c.len = 0 then .ok (0, c.found)
    else
      let (ret, path) :=
        if (path.leaf blocks).nritems ≤ path.slots 0 then btrfsNextLeaf blocks path else (0, path)
      if 0 < ret then .ok (0, c.found)
      else if ret < 0 then .ok (ret, c.found)
      else
        visitCsumItem info c (countCsumLoop info blocks n
          { path with slots := Function.update path.slots 0 (path.slots 0 + 1) }) (path.item blocks)

/-- The path one slot back, where a csum item may reach into the range. -/
def csumStepBack (blocks : Blocks) (path : Path) : Path :=
  let back : Path := { path with slots := Function.update path.slots 0 (path.slots 0 - 1) }
  match back.item blocks with
  | none => path
  | some item => if isCsumKey item.key then back else path

/-- `count_csum_range`: the returned value and `*found`. -/
def countCsumRange (info : CsumInfo) (nodesize : ℕ) (blocks : Blocks)
    (csumRoot start len rounds : ℕ) : Call (ℤ × ℕ) :=
  let key : Key := ⟨BTRFS_EXTENT_CSUM_OBJECTID, BTRFS_EXTENT_CSUM_KEY, start⟩
  let (ret, path) := btrfsSearchSlot nodesize blocks csumRoot key
  if ret < 0 then .ok (ret, 0)
  else
    let path := if 0 < ret ∧ 0 < path.slots 0 then csumStepBack blocks path else path
    countCsumLoop info blocks rounds path ⟨start, len, 0⟩

end Btrfs.Check
