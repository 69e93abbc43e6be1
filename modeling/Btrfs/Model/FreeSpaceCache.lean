import Btrfs.Model.RbTree

/-! # Free space of a block group (`free-space-cache.c`) -/

namespace Btrfs.FreeSpaceCache

open RbTree

/-- `struct btrfs_free_space`; a bitmap is given by its bits. -/
structure FreeSpace where
  offset : ℕ
  bytes : ℕ
  bitmap : Option (List Bool)
deriving DecidableEq, Repr

/-- `struct btrfs_free_space_ctl`. -/
structure FreeSpaceCtl where
  freeSpaceOffset : RbNode FreeSpace
  freeSpace : ℕ
  freeExtents : ℤ
  unit : ℕ
  sectorsize : ℕ

def bitsPerBitmap (sectorsize : ℕ) : ℕ := sectorsize * 8

/-- `BITS_PER_BITMAP(sectorsize) * ctl->unit`, a product of 32-bit numbers. -/
def bitmapSpan (ctl : FreeSpaceCtl) : ℕ := bitsPerBitmap ctl.sectorsize * ctl.unit % 2 ^ 32

/-! ## The tree -/

/-- The comparison of `tree_insert_offset`. -/
def insertComp (info e : FreeSpace) : ℤ :=
  if info.offset < e.offset then -1
  else if e.offset < info.offset then 1
  else if info.bitmap.isSome then if e.bitmap.isSome then 0 else 1
  else if e.bitmap.isNone then 0
  else -1

def treeInsertOffset (root : RbNode FreeSpace) (info : FreeSpace) : Call (ℤ × RbNode FreeSpace) :=
  rbInsert root info (insertComp info)

/-- The comparison of `tree_search_offset`. -/
def searchComp (offset : ℕ) (e : FreeSpace) : ℤ :=
  if offset < e.offset then -1 else if e.offset < offset then 1 else 0

/-- An extent entry that goes beyond the offset. -/
def extentBeyond (e : FreeSpace) (offset : ℕ) : Bool :=
  e.bitmap.isNone && decide (offset < wrap64 (e.offset + e.bytes))

/-- The entry goes beyond the offset, as an extent or as a bitmap. -/
def goesBeyond (ctl : FreeSpaceCtl) (e : FreeSpace) (offset : ℕ) : Bool :=
  if e.bitmap.isSome then decide (offset < wrap64 (e.offset + bitmapSpan ctl))
  else decide (offset < wrap64 (e.offset + e.bytes))

/-- The previous entry, if it is an extent that goes beyond the offset. -/
def coveringPrev (n : Loc FreeSpace) (offset : ℕ) : Option (Loc FreeSpace) :=
  (rbPrev n).filter fun prev => extentBeyond prev.entry offset

/-- The loop of a fuzzy search. -/
def nextBeyond (ctl : FreeSpaceCtl) (offset : ℕ) : ℕ → Loc FreeSpace → Call (Option (Loc FreeSpace))
  | 0, _ => .error .outOfRounds
  | rounds + 1, n =>
    if goesBeyond ctl n.entry offset then .ok (some n)
    else
      match rbNext n with
      | none => .ok none
      | some n => nextBeyond ctl offset rounds n

/-- The end of `tree_search_offset`, with the last entry before the offset. -/
def searchBefore (ctl : FreeSpaceCtl) (offset : ℕ) (fuzzy : Bool) (rounds : ℕ) (n : Loc FreeSpace) :
    Call (Option (Loc FreeSpace)) :=
  let covering := if n.entry.bitmap.isSome then coveringPrev n offset else none
  match covering with
  | some prev => .ok (some prev)
  | none =>
    if goesBeyond ctl n.entry offset then .ok (some n)
    else if !fuzzy then .ok none
    else nextBeyond ctl offset rounds n

def treeSearchOffset (ctl : FreeSpaceCtl) (offset : ℕ) (bitmapOnly fuzzy : Bool) (rounds : ℕ) :
    Call (Option (Loc FreeSpace)) :=
  let result := rbSearchLoop (searchComp offset) ctl.freeSpaceOffset [] none 0
  match bitmapOnly, result.1 with
  | true, none => .ok none
  | true, some n =>
    if n.entry.bitmap.isSome then .ok (some n)
    else .ok ((rbNext n).filter fun next => next.entry.offset = offset)
  | false, some n =>
    if n.entry.bitmap.isSome then .ok (some ((coveringPrev n offset).getD n)) else .ok (some n)
  | false, none =>
    match result.2.1 with
    | none => .ok none
    | some prev =>
      if offset < prev.entry.offset then
        match rbPrev prev with
        | some n =>
          if offset < n.entry.offset then .error .bug
          else searchBefore ctl offset fuzzy rounds n
        | none => .ok (if fuzzy then some prev else none)
      else searchBefore ctl offset fuzzy rounds prev

/-- `unlink_free_space`. The tree has one node for the entry. -/
def unlinkFreeSpace (ctl : FreeSpaceCtl) (info : FreeSpace) : Call FreeSpaceCtl :=
  match (rbSearch ctl.freeSpaceOffset (insertComp info)).1 with
  | none => .error .bug
  | some n => do
      let root ← rbErase n
      return { ctl with
        freeSpaceOffset := root
        freeExtents := ctl.freeExtents - 1
        freeSpace := sub64 ctl.freeSpace info.bytes }

def linkFreeSpace (ctl : FreeSpaceCtl) (info : FreeSpace) : Call (ℤ × FreeSpaceCtl) := do
  bugOn (info.bitmap.isNone && info.bytes == 0)
  let (ret, root) ← treeInsertOffset ctl.freeSpaceOffset info
  if ret ≠ 0 then return (ret, ctl)
  else
    return (0, { ctl with
      freeSpaceOffset := root
      freeSpace := wrap64 (ctl.freeSpace + info.bytes)
      freeExtents := ctl.freeExtents + 1 })

/-! ## Bitmaps -/

/-- The first bit with the value from a position on (`find_next_bit`, `find_next_zero_bit`). -/
def findNext (value : Bool) (bits : List Bool) (i : ℕ) : ℕ :=
  if bits.length ≤ i then bits.length else i + (bits.drop i).findIdx (· == value)

/-- The loop of `search_bitmap`: the first of `bits` set bits, and how many there are. -/
def searchBits (bitmap : List Bool) (bits : ℕ) : ℕ → ℕ → Call (Option (ℕ × ℕ))
  | 0, _ => .error .outOfRounds
  | rounds + 1, i =>
    let i := findNext true bitmap i
    if bitmap.length ≤ i then .ok none
    else
      let nextZero := findNext false bitmap i
      if bits ≤ nextZero - i then .ok (some (i, nextZero - i))
      else searchBits bitmap bits rounds (nextZero + 1)

/-- `search_bitmap`: the new `*offset` and `*bytes`. -/
def searchBitmap (ctl : FreeSpaceCtl) (info : FreeSpace) (offset bytes : ℕ) :
    Call (Option (ℕ × ℕ)) := do
  let bitmap := info.bitmap.getD []
  let i := (max offset info.offset - info.offset) / ctl.unit
  match ← searchBits bitmap (bytes / ctl.unit) (bitmap.length + 1) i with
  | none => return none
  | some (i, foundBits) =>
    if foundBits = 0 then return none
    else return some (wrap64 (i * ctl.unit + info.offset), wrap64 (foundBits * ctl.unit))

/-! ## Adding free space -/

/-- `try_merge_free_space` on the right of the new entry. -/
def mergeRight (ctl : FreeSpaceCtl) (info : FreeSpace) :
    Option (Loc FreeSpace) → Call (FreeSpaceCtl × FreeSpace)
  | none => .ok (ctl, info)
  | some right =>
    if right.entry.bitmap.isNone then do
      let ctl ← unlinkFreeSpace ctl right.entry
      return (ctl, { info with bytes := wrap64 (info.bytes + right.entry.bytes) })
    else .ok (ctl, info)

/-- `try_merge_free_space` on the left of the offset of the new entry. -/
def mergeLeft (ctl : FreeSpaceCtl) (offset : ℕ) (info : FreeSpace) :
    Option (Loc FreeSpace) → Call (FreeSpaceCtl × FreeSpace)
  | none => .ok (ctl, info)
  | some left =>
    if left.entry.bitmap.isNone ∧ wrap64 (left.entry.offset + left.entry.bytes) = offset then do
      let ctl ← unlinkFreeSpace ctl left.entry
      return (ctl, { info with
        offset := left.entry.offset
        bytes := wrap64 (info.bytes + left.entry.bytes) })
    else .ok (ctl, info)

/-- `left_info` of `try_merge_free_space`. -/
def findLeft (ctl : FreeSpaceCtl) (offset : ℕ) (right : Option (Loc FreeSpace)) :
    Call (Option (Loc FreeSpace)) :=
  match right.bind rbPrev with
  | some left => .ok (some left)
  | none => treeSearchOffset ctl (sub64 offset 1) false false 0

def tryMergeFreeSpace (ctl : FreeSpaceCtl) (info : FreeSpace) : Call (FreeSpaceCtl × FreeSpace) := do
  let right ← treeSearchOffset ctl (wrap64 (info.offset + info.bytes)) false false 0
  let left ← findLeft ctl info.offset right
  let (ctl, merged) ← mergeRight ctl info right
  mergeLeft ctl info.offset merged left

def btrfsAddFreeSpace (ctl : FreeSpaceCtl) (offset bytes : ℕ) : Call (ℤ × FreeSpaceCtl) := do
  let (ctl, info) ← tryMergeFreeSpace ctl ⟨offset, bytes, none⟩
  let (ret, ctl) ← linkFreeSpace ctl info
  bugOn (ret = -EEXIST)
  return (ret, ctl)

/-! ## Normalisation -/

/-- The loop of `merge_space_tree` over the runs of a bitmap that was unlinked. -/
def replayBitmap (e : FreeSpace) (stop : ℕ) : ℕ → FreeSpaceCtl → ℕ → Call FreeSpaceCtl
  | 0, _, _ => .error .outOfRounds
  | rounds + 1, ctl, offset => do
      match ← searchBitmap ctl e offset ctl.unit with
      | none => return ctl
      | some (offset, bytes) =>
        let (ret, ctl) ← btrfsAddFreeSpace ctl offset bytes
        bugOn (ret ≠ 0)
        let offset := wrap64 (offset + bytes)
        if stop ≤ offset then return ctl
        else replayBitmap e stop rounds ctl offset

/-- Why a walk over the tree ends. -/
inductive Scan where
  | done
  | bitmap (e : FreeSpace)
  | adjacent (prev e : FreeSpace)

/-- The walk of `merge_space_tree`. -/
def scanTree : ℕ → Option FreeSpace → Option (Loc FreeSpace) → Call Scan
  | 0, _, _ => .error .outOfRounds
  | _ + 1, _, none => .ok .done
  | rounds + 1, prev, some n =>
    if n.entry.bitmap.isSome then .ok (.bitmap n.entry)
    else
      match prev with
      | none => scanTree rounds (some n.entry) (rbNext n)
      | some p =>
        if wrap64 (p.offset + p.bytes) = n.entry.offset then .ok (.adjacent p n.entry)
        else scanTree rounds (some n.entry) (rbNext n)

/-- The number of nodes. -/
def treeSize : RbNode FreeSpace → ℕ
  | .nil => 0
  | .node _ l _ r => treeSize l + 1 + treeSize r

/-- `merge_space_tree`, each round from the label `again`. -/
def mergeSpaceTreeLoop : ℕ → FreeSpaceCtl → Call FreeSpaceCtl
  | 0, _ => .error .outOfRounds
  | rounds + 1, ctl => do
      let tree := ctl.freeSpaceOffset
      match ← scanTree (treeSize tree + 1) none (rbFirst tree) with
      | .done => return ctl
      | .bitmap e =>
        let stop := wrap64 (e.offset + bitmapSpan ctl)
        let ctl ← unlinkFreeSpace ctl e
        let ctl ← replayBitmap e stop ((e.bitmap.getD []).length + 1) ctl e.offset
        mergeSpaceTreeLoop rounds ctl
      | .adjacent prev e =>
        let ctl ← unlinkFreeSpace ctl prev
        let ctl ← unlinkFreeSpace ctl e
        let (_ret, ctl) ← linkFreeSpace ctl { prev with bytes := wrap64 (prev.bytes + e.bytes) }
        mergeSpaceTreeLoop rounds ctl

/-- The rounds that the entries of a tree can take. -/
def treeWeight : RbNode FreeSpace → ℕ
  | .nil => 0
  | .node _ l e r => treeWeight l + (1 + (e.bitmap.getD []).length) + treeWeight r

def mergeSpaceTree (ctl : FreeSpaceCtl) : Call FreeSpaceCtl :=
  mergeSpaceTreeLoop (treeWeight ctl.freeSpaceOffset + 1) ctl

end Btrfs.FreeSpaceCache
