import Btrfs.Model.Ctree.Basic
import Btrfs.Model.ExtentIo
import Btrfs.Model.FreeSpaceCache

/-! # Loading the free space of a block group (`free-space-tree.c`, `extent-tree.c`) -/

namespace Btrfs.FreeSpaceTree

open Ctree (Key)
open ExtentIo FreeSpaceCache

def BTRFS_FREE_SPACE_INFO_KEY : ℕ := 198
def BTRFS_FREE_SPACE_EXTENT_KEY : ℕ := 199
def BTRFS_FREE_SPACE_BITMAP_KEY : ℕ := 200

/-- An item of the free space tree, with the bits that stand from its first byte on. -/
structure FstItem where
  key : Key
  bits : ℕ → Bool

/-- The key of a `struct btrfs_block_group_cache`. -/
structure BlockGroup where
  objectid : ℕ
  offset : ℕ

/-! ## Adding free space -/

/-- The loop of `add_new_free_space`: where it stops, what was added, and the free space. -/
def addNewFreeSpaceLoop (pinnedExtents : StateTree) (stop : ℕ) :
    ℕ → ℕ → ℕ → FreeSpaceCtl → Call (ℕ × ℕ × FreeSpaceCtl)
  | 0, _, _, _ => .error .outOfRounds
  | rounds + 1, start, totalAdded, ctl =>
    if stop ≤ start then .ok (start, totalAdded, ctl)
    else
      match findFirstExtentBit pinnedExtents start (EXTENT_DIRTY ||| EXTENT_UPTODATE) with
      | none => .ok (start, totalAdded, ctl)
      | some (extentStart, extentEnd) =>
        if extentStart ≤ start then
          addNewFreeSpaceLoop pinnedExtents stop rounds (wrap64 (extentEnd + 1)) totalAdded ctl
        else if extentStart < stop then do
          let (ret, ctl) ← btrfsAddFreeSpace ctl start (extentStart - start)
          bugOn (ret ≠ 0)
          addNewFreeSpaceLoop pinnedExtents stop rounds (wrap64 (extentEnd + 1))
            (wrap64 (totalAdded + (extentStart - start))) ctl
        else .ok (start, totalAdded, ctl)

/-- `add_new_free_space`: the bytes added, and the free space. -/
def addNewFreeSpace (pinnedExtents : StateTree) (ctl : FreeSpaceCtl) (start stop : ℕ) :
    Call (ℕ × FreeSpaceCtl) := do
  let (start, totalAdded, ctl) ←
    addNewFreeSpaceLoop pinnedExtents stop (pinnedExtents.length + 1) start 0 ctl
  if start < stop then
    let (ret, ctl) ← btrfsAddFreeSpace ctl start (stop - start)
    bugOn (ret ≠ 0)
    return (wrap64 (totalAdded + (stop - start)), ctl)
  else return (totalAdded, ctl)

/-! ## Bitmaps -/

/-- The variables of `load_free_space_bitmaps`. -/
structure BitmapLoad where
  prevBit : Bool := false
  extentStart : ℕ := 0
  extentCount : ℕ := 0
  ctl : FreeSpaceCtl

/-- The body of the loop over the sectors of a bitmap. -/
def loadBit (pinnedExtents : StateTree) (st : BitmapLoad) (offset : ℕ) (bit : Bool) :
    Call BitmapLoad :=
  if !st.prevBit && bit then .ok { st with prevBit := bit, extentStart := offset }
  else if st.prevBit && !bit then do
    let (_, ctl) ← addNewFreeSpace pinnedExtents st.ctl st.extentStart offset
    return { st with prevBit := bit, extentCount := (st.extentCount + 1) % 2 ^ 32, ctl := ctl }
  else .ok { st with prevBit := bit }

def freeSpaceTestBit (item : FstItem) (offset sectorsize : ℕ) : Bool :=
  item.bits ((offset - item.key.objectid) / sectorsize)

/-- The loop over the sectors of a bitmap. -/
def loadBitmap (pinnedExtents : StateTree) (sectorsize : ℕ) (item : FstItem) :
    ℕ → ℕ → BitmapLoad → Call BitmapLoad
  | 0, _, _ => .error .outOfRounds
  | rounds + 1, offset, st =>
    if wrap64 (item.key.objectid + item.key.offset) ≤ offset then .ok st
    else do
      let st ← loadBit pinnedExtents st offset (freeSpaceTestBit item offset sectorsize)
      loadBitmap pinnedExtents sectorsize item rounds (wrap64 (offset + sectorsize)) st

/-- What a loader makes of a key. -/
inductive KeyCheck where
  | item
  | stop
  | error
deriving DecidableEq, Repr

/-- The checks of `load_free_space_bitmaps` and of `load_free_space_extents`, with the type that is
expected. -/
def checkKey (type : ℕ) (group : BlockGroup) (key : Key) : KeyCheck :=
  let stop := wrap64 (group.objectid + group.offset)
  if key.type = BTRFS_FREE_SPACE_INFO_KEY then .stop
  else if key.type ≠ type then .error
  else if stop ≤ key.objectid then .error
  else if stop < wrap64 (key.objectid + key.offset) then .error
  else .item

/-- The loop of `load_free_space_bitmaps` over the items behind the info item, with `*errors`. -/
def loadBitmapsLoop (pinnedExtents : StateTree) (sectorsize : ℕ) (group : BlockGroup) :
    List FstItem → BitmapLoad → ℕ → Call (BitmapLoad × ℕ)
  | [], st, errors => .ok (st, errors)
  | item :: items, st, errors =>
    match checkKey BTRFS_FREE_SPACE_BITMAP_KEY group item.key with
    | .stop => .ok (st, errors)
    | .error => .ok (st, errors + 1)
    | .item => do
        let st ← loadBitmap pinnedExtents sectorsize item (item.key.offset / sectorsize + 2)
          item.key.objectid st
        loadBitmapsLoop pinnedExtents sectorsize group items st errors

/-- A run that is open behind the last item ends where the block group ends. -/
def closeLastRun (pinnedExtents : StateTree) (stop : ℕ) (st : BitmapLoad) : Call BitmapLoad :=
  if st.prevBit then loadBit pinnedExtents st stop false else .ok st

/-- `load_free_space_bitmaps` on items that can be read: the free space and `*errors`. -/
def loadFreeSpaceBitmaps (pinnedExtents : StateTree) (group : BlockGroup) (ctl : FreeSpaceCtl)
    (expectedExtentCount : ℕ) (items : List FstItem) (errors : ℕ) : Call (FreeSpaceCtl × ℕ) := do
  let (st, errors) ←
    loadBitmapsLoop pinnedExtents ctl.sectorsize group items { ctl := ctl } errors
  let st ← closeLastRun pinnedExtents (wrap64 (group.objectid + group.offset)) st
  return (st.ctl, if st.extentCount ≠ expectedExtentCount then errors + 1 else errors)

/-! ## Extents -/

/-- The check of an extent against the one before, with `*errors`: it overlaps with it, or is unmerged
with it. -/
def checkPrev (prevKey : Option Key) (key : Key) (errors : ℕ) : ℕ :=
  match prevKey with
  | none => errors
  | some prev =>
    if key.objectid < wrap64 (prev.objectid + prev.offset) then errors + 1
    else if key.objectid = wrap64 (prev.objectid + prev.offset) then errors + 1
    else errors

/-- The loop of `load_free_space_extents`, with the key before, the extents counted and
`*errors`. -/
def loadExtentsLoop (pinnedExtents : StateTree) (group : BlockGroup) :
    List FstItem → Option Key → FreeSpaceCtl → ℕ → ℕ → Call (FreeSpaceCtl × ℕ × ℕ)
  | [], _, ctl, extentCount, errors => .ok (ctl, extentCount, errors)
  | item :: items, prevKey, ctl, extentCount, errors =>
    match checkKey BTRFS_FREE_SPACE_EXTENT_KEY group item.key with
    | .stop => .ok (ctl, extentCount, errors)
    | .error => .ok (ctl, extentCount, errors + 1)
    | .item => do
        let (_, ctl) ← addNewFreeSpace pinnedExtents ctl item.key.objectid
          (wrap64 (item.key.objectid + item.key.offset))
        loadExtentsLoop pinnedExtents group items (some item.key) ctl
          ((extentCount + 1) % 2 ^ 32) (checkPrev prevKey item.key errors)

/-- `load_free_space_extents` on items that can be read. -/
def loadFreeSpaceExtents (pinnedExtents : StateTree) (group : BlockGroup) (ctl : FreeSpaceCtl)
    (expectedExtentCount : ℕ) (items : List FstItem) (errors : ℕ) : Call (FreeSpaceCtl × ℕ) := do
  let (ctl, extentCount, errors) ← loadExtentsLoop pinnedExtents group items none ctl 0 errors
  return (ctl, if extentCount ≠ expectedExtentCount then errors + 1 else errors)

end Btrfs.FreeSpaceTree
