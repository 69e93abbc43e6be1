import Btrfs.Model.Bytes
import Btrfs.Model.Ctree.Search

/-! # Free space on a device (`volumes.c`) -/

namespace Btrfs.DevExtents

open Ctree

def SZ_1M : ℕ := 1048576

def BTRFS_DEV_EXTENT_KEY : ℕ := 204

def btrfsDevExtentLength (item : Item) : ℕ := leNat ((item.data.drop 24).take 8)

/-- The variables of `find_free_dev_extent_start` that its loop changes. -/
structure HoleSearch where
  searchStart : ℕ
  maxHoleStart : ℕ
  maxHoleSize : ℕ
deriving DecidableEq, Repr

/-- A hole of the given size at `search_start` is kept if it is the largest so far. -/
def HoleSearch.record (s : HoleSearch) (holeSize : ℕ) : HoleSearch :=
  if s.maxHoleSize < holeSize then
    { s with maxHoleStart := s.searchStart, maxHoleSize := holeSize }
  else s

/-- The hole before an extent at `offset`, and whether it is large enough. -/
def HoleSearch.holeBefore (s : HoleSearch) (numBytes offset : ℕ) : Bool × HoleSearch :=
  if s.searchStart < offset then
    (decide (numBytes ≤ offset - s.searchStart), s.record (offset - s.searchStart))
  else (false, s)

/-- The search goes on behind an extent. -/
def HoleSearch.skip (s : HoleSearch) (offset length : ℕ) : HoleSearch :=
  let extentEnd := wrap64 (offset + length)
  if s.searchStart < extentEnd then { s with searchStart := extentEnd } else s

/-- What follows the loop: the hole up to `search_end`. -/
def HoleSearch.finish (s : HoleSearch) (numBytes searchEnd : ℕ) : ℤ × HoleSearch :=
  let s := if s.searchStart < searchEnd then s.record (searchEnd - s.searchStart) else s
  (if s.maxHoleSize < numBytes then -ENOSPC else 0, s)

/-- The loop of `find_free_dev_extent_start`. -/
def findHoleLoop (blocks : Blocks) (devid numBytes searchEnd : ℕ) :
    ℕ → Path → HoleSearch → Call (ℤ × HoleSearch)
  | 0, _, _ => .error .outOfRounds
  | n + 1, path, s =>
    let next : Path := { path with slots := Function.update path.slots 0 (path.slots 0 + 1) }
    if (path.leaf blocks).nritems ≤ path.slots 0 then
      let (ret, path) := btrfsNextLeaf blocks path
      if ret = 0 then findHoleLoop blocks devid numBytes searchEnd n path s
      else if ret < 0 then .ok (ret, s)
      else .ok (s.finish numBytes searchEnd)
    else
      match path.item blocks with
      | none => .error .bug
      | some item =>
        if item.key.objectid < devid then
          findHoleLoop blocks devid numBytes searchEnd n next s
        else if devid < item.key.objectid then .ok (s.finish numBytes searchEnd)
        else if item.key.type ≠ BTRFS_DEV_EXTENT_KEY then
          findHoleLoop blocks devid numBytes searchEnd n next s
        else
          let (enough, s) := s.holeBefore numBytes item.key.offset
          if enough then .ok (0, s)
          else findHoleLoop blocks devid numBytes searchEnd n next
            (s.skip item.key.offset (btrfsDevExtentLength item))

/-- The lower end of the search. -/
def searchFrom (allocStart searchStart : ℕ) : ℕ := max searchStart (max allocStart SZ_1M)

/-- `find_free_dev_extent_start`: the returned value, `*start` and `*len`. -/
def findFreeDevExtentStart (nodesize : ℕ) (blocks : Blocks) (root devid totalBytes allocStart
    numBytes searchStart rounds : ℕ) : Call (ℤ × ℕ × ℕ) :=
  let searchStart := searchFrom allocStart searchStart
  let s : HoleSearch := ⟨searchStart, searchStart, 0⟩
  let out (result : ℤ × HoleSearch) := (result.1, result.2.maxHoleStart, result.2.maxHoleSize)
  if totalBytes ≤ searchStart then .ok (out (-ENOSPC, s))
  else
    let key : Key := ⟨devid, BTRFS_DEV_EXTENT_KEY, searchStart⟩
    let (ret, path) := btrfsSearchSlot nodesize blocks root key
    if ret < 0 then .ok (out (ret, s))
    else if 0 < ret then do
      let (ret, path) ← btrfsPreviousItem blocks devid BTRFS_DEV_EXTENT_KEY rounds path
      if ret < 0 then return out (ret, s)
      else
        let result ← findHoleLoop blocks devid numBytes totalBytes rounds path s
        return out result
    else do
      let result ← findHoleLoop blocks devid numBytes totalBytes rounds path s
      return out result

end Btrfs.DevExtents
