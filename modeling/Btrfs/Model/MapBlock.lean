import Btrfs.Model.RbTree
import Btrfs.Model.Volumes

/-! # `__btrfs_map_block` with its divisions, its arrays and its retry

Here the mapping tree is the red-black tree, offsets are `u64`, and a division by zero, an index
outside an array and a write past the allocated stripes do not return. -/

namespace Btrfs.Volumes

open ExtentCache Raid56 RbTree

/-- The mapping tree (`struct btrfs_mapping_tree`). -/
abbrev MapTree := RbNode MapLookup

def divide (a b : ℕ) : Call ℕ := if b = 0 then .error .bug else .ok (a / b)

def remainder (a b : ℕ) : Call ℕ := if b = 0 then .error .bug else .ok (a % b)

/-- `search_cache_extent` in the mapping tree. -/
def searchMapping (tree : MapTree) (logical : ℕ) : Option (Loc MapLookup) :=
  match rbSearch tree fun map => cacheTreeCompRange map.ce logical 1 with
  | (some node, _) => some node
  | (none, next) => next

/-! ## Reading chunks -/

/-- `read_one_chunk`; `findDevice` stands for the device of a `devid`. -/
def readOneChunk (sectorsize : ℕ) (findDevice : ℕ → ℕ) (tree : MapTree) (logical : ℕ) (chunk : Chunk)
    (slot : ℤ) (itemSize : ℕ) : Call (Except String MapTree) :=
  match btrfsCheckChunkValid sectorsize chunk slot itemSize logical with
  | .error text => .ok (.error text)
  | .ok () =>
    let mapped := (searchMapping tree logical).any fun ce =>
      ce.entry.ce.start ≤ logical ∧ logical < wrap64 (ce.entry.ce.start + ce.entry.ce.size)
    if mapped then .ok (.ok tree)
    else
      let map := mapOfChunk findDevice logical chunk
      match rbInsert tree map fun e => cacheTreeCompRange e.ce map.ce.start map.ce.size with
      | .error fault => .error fault
      | .ok (ret, tree) => if ret = 0 then .ok (.ok tree) else .error .bug

/-- A chunk item with its key offset and its place in a leaf; the two sums that follow are taken
of `u64`. -/
structure ChunkItem where
  logical : ℕ
  chunk : Chunk
  slot : ℤ
  itemSize : ℕ
  logical_lt : logical < 2 ^ 64
  length_lt : chunk.length < 2 ^ 64

/-- `read_one_chunk` for one chunk item after the other, up to an error. -/
def readChunks (sectorsize : ℕ) (findDevice : ℕ → ℕ) : MapTree → List ChunkItem →
    Call (Except String MapTree)
  | tree, [] => .ok (.ok tree)
  | tree, item :: items =>
    match readOneChunk sectorsize findDevice tree item.logical item.chunk item.slot
      item.itemSize with
    | .ok (.ok tree) => readChunks sectorsize findDevice tree items
    | other => other

/-- `btrfs_num_copies` once the chunk is found. -/
def copiesOf (map : MapLookup) : ℕ :=
  if map.has (BTRFS_BLOCK_GROUP_DUP ||| BTRFS_BLOCK_GROUP_RAID1) then map.numStripes
  else if map.has BTRFS_BLOCK_GROUP_RAID10 then map.subStripes
  else if map.has BTRFS_BLOCK_GROUP_RAID5 then 2
  else if map.has BTRFS_BLOCK_GROUP_RAID6 then 3
  else 1

def btrfsNumCopies (tree : MapTree) (logical : ℕ) : ℕ :=
  match searchMapping tree logical with
  | none => 1
  | some ce =>
    let map := ce.entry
    if logical < map.ce.start ∨ wrap64 (map.ce.start + map.ce.size) < logical then 1
    else copiesOf map

/-! ## The stripes of an address -/

/-- Whether all stripes of a full stripe are asked for. -/
def wantsRaidMap (map : MapLookup) (rw : Rw) (multiRet : Bool) (mirrorNum : ℕ) (raidMapRet : Bool) :
    Bool :=
  map.has (BTRFS_BLOCK_GROUP_RAID5 ||| BTRFS_BLOCK_GROUP_RAID6) && multiRet &&
    (rw == .write || decide (1 < mirrorNum)) && raidMapRet

def stripesRequired (map : MapLookup) (rw : Rw) (raidMap : Bool) : ℕ :=
  if raidMap then map.numStripes
  else if rw = .write then
    if map.has (BTRFS_BLOCK_GROUP_RAID1 ||| BTRFS_BLOCK_GROUP_DUP) then map.numStripes
    else if map.has BTRFS_BLOCK_GROUP_RAID10 then map.subStripes
    else 1
  else 1

/-- The choice of `multi->num_stripes`, `stripe_index`, `stripe_nr` and `stripe_offset`. -/
def chooseStripes (map : MapLookup) (rw : Rw) (mirrorNum : ℕ) (raidMap : Bool)
    (offset stripeNr stripeOffset : ℕ) : Call StripePlan := do
  if map.has BTRFS_BLOCK_GROUP_RAID1 then
    match rw with
    | .write => return ⟨map.numStripes, 0, stripeNr, stripeOffset⟩
    | .read =>
      if mirrorNum ≠ 0 then return ⟨1, mirrorNum - 1, stripeNr, stripeOffset⟩
      else return ⟨1, ← remainder stripeNr map.numStripes, stripeNr, stripeOffset⟩
  else if map.has BTRFS_BLOCK_GROUP_RAID10 then
    let factor ← divide map.numStripes map.subStripes
    let stripeIndex := (← remainder stripeNr factor) * map.subStripes
    let row ← divide stripeNr factor
    match rw with
    | .write => return ⟨map.subStripes, stripeIndex, row, stripeOffset⟩
    | .read =>
      if mirrorNum ≠ 0 then return ⟨1, stripeIndex + mirrorNum - 1, row, stripeOffset⟩
      else return ⟨1, stripeIndex, row, stripeOffset⟩
  else if map.has BTRFS_BLOCK_GROUP_DUP then
    match rw with
    | .write => return ⟨map.numStripes, 0, stripeNr, stripeOffset⟩
    | .read => return ⟨1, if mirrorNum ≠ 0 then mirrorNum - 1 else 0, stripeNr, stripeOffset⟩
  else if map.has (BTRFS_BLOCK_GROUP_RAID5 ||| BTRFS_BLOCK_GROUP_RAID6) then
    if raidMap then
      let fullStripeLen := nrDataStripes map * map.stripeLen
      let start := (← divide offset fullStripeLen) * fullStripeLen
      let nr ← divide (← divide start map.stripeLen) (nrDataStripes map)
      let _rot ← remainder nr map.numStripes
      return ⟨map.numStripes, 0, nr, 0⟩
    else
      let column ← remainder stripeNr (nrDataStripes map)
      let row ← divide stripeNr (nrDataStripes map)
      let stripeIndex := if 1 < mirrorNum then nrDataStripes map + mirrorNum - 2 else column
      return ⟨1, ← remainder (row + stripeIndex) map.numStripes, row, stripeOffset⟩
  else
    return ⟨1, ← remainder stripeNr map.numStripes, ← divide stripeNr map.numStripes, stripeOffset⟩

/-- The loop that fills `multi->stripes`, from the entry `i` on. -/
def fillMulti (map : MapLookup) (stripesAllocated : ℕ) (plan : StripePlan) : ℕ → ℕ →
    Call (List BioStripe)
  | 0, _ => .ok []
  | n + 1, i =>
    if stripesAllocated ≤ i then .error .bug
    else
      match map.stripes[plan.stripeIndex + i]? with
      | none => .error .bug
      | some s => do
          let rest ← fillMulti map stripesAllocated plan n (i + 1)
          return ⟨s.dev, wrap64 (s.physical + plan.stripeOffset + plan.stripeNr * map.stripeLen)⟩ ::
            rest

/-- The return value of `__btrfs_map_block`, with `*length`, `*multi_ret` and `*raid_map_ret`. -/
structure MapResult where
  ret : ℤ
  length : ℕ
  stripes : List BioStripe
  raidMap : Option (List ℕ)
deriving DecidableEq, Repr

/-- `__btrfs_map_block` in the found chunk, with enough stripes allocated. -/
def mapFound (map : MapLookup) (rw : Rw) (offset : ℕ) (multiRet : Bool) (mirrorNum : ℕ)
    (raidMap : Bool) (stripesAllocated : ℕ) : Call MapResult := do
  let stripeNr ← divide offset map.stripeLen
  bugOn (offset < stripeNr * map.stripeLen)
  let stripeOffset := offset - stripeNr * map.stripeLen
  let length := mapLength map offset
  if !multiRet then return ⟨0, length, [], none⟩
  else
    let plan ← chooseStripes map rw mirrorNum raidMap offset stripeNr stripeOffset
    bugOn (map.numStripes ≤ plan.stripeIndex)
    let stripes ← fillMulti map stripesAllocated plan plan.numStripes 0
    if raidMap then
      let entries := (List.range map.numStripes).map fun i =>
        wrap64 (fillRaidMap map plan.stripeNr i)
      let sorted ← sortParityStripes (map.numStripes * map.numStripes + 1) (entries.zip stripes)
      return ⟨0, map.stripeLen, sorted.map Prod.snd, some (sorted.map Prod.fst)⟩
    else return ⟨0, length, stripes, none⟩

/-- `__btrfs_map_block` from the label `again` on; the first argument counts the rounds. -/
def mapBlockRounds (tree : MapTree) (rw : Rw) (logical : ℕ) (multiRet : Bool) (mirrorNum : ℕ)
    (raidMapRet : Bool) : ℕ → ℕ → Call MapResult
  | 0, _ => .error .outOfRounds
  | n + 1, stripesAllocated =>
    match searchMapping tree logical with
    | none => .ok ⟨-ENOENT, u64Max, [], none⟩
    | some ce =>
      let map := ce.entry
      if logical < map.ce.start then .ok ⟨-ENOENT, map.ce.start - logical, [], none⟩
      else
        let raidMap := wantsRaidMap map rw multiRet mirrorNum raidMapRet
        let required := stripesRequired map rw raidMap
        if multiRet ∧ stripesAllocated < required then
          mapBlockRounds tree rw logical multiRet mirrorNum raidMapRet n required
        else
          mapFound map rw (logical - map.ce.start) multiRet mirrorNum raidMap stripesAllocated

/-- `__btrfs_map_block`, for a number of rounds. -/
def btrfsMapBlock' (rounds : ℕ) (tree : MapTree) (rw : Rw) (logical : ℕ) (multiRet : Bool)
    (mirrorNum : ℕ) (raidMapRet : Bool) : Call MapResult :=
  mapBlockRounds tree rw logical multiRet mirrorNum raidMapRet rounds
    (if multiRet ∧ rw = .read then 1 else 8)

/-! ## From a device to logical addresses -/

/-- The locals `length` and `rmap_len` of `btrfs_rmap_block`. -/
def rmapLengths' (map : MapLookup) : Call (ℕ × ℕ) :=
  if map.has BTRFS_BLOCK_GROUP_RAID10 then do
    let factor ← divide map.numStripes map.subStripes
    return (← divide map.ce.size factor, map.stripeLen)
  else if map.has BTRFS_BLOCK_GROUP_RAID0 then do
    return (← divide map.ce.size map.numStripes, map.stripeLen)
  else if map.has (BTRFS_BLOCK_GROUP_RAID5 ||| BTRFS_BLOCK_GROUP_RAID6) then do
    return (← divide map.ce.size (nrDataStripes map), map.stripeLen * nrDataStripes map)
  else return (map.ce.size, map.stripeLen)

/-- The local `stripe_nr` for the stripe `i`, from the number of units before the offset. -/
def rmapStripeNr (map : MapLookup) (stripeNr i : ℕ) : Call ℕ :=
  if map.has BTRFS_BLOCK_GROUP_RAID10 then divide (stripeNr * map.numStripes + i) map.subStripes
  else if map.has BTRFS_BLOCK_GROUP_RAID0 then .ok (stripeNr * map.numStripes + i)
  else .ok stripeNr

/-- A round of the loop of `btrfs_rmap_block`; `devidOf` is the `devid` of a device. -/
def rmapStripe' (devidOf : ℕ → ℕ) (map : MapLookup) (length rmapLen physical devid i : ℕ)
    (stripe : BioStripe) (buf : List ℕ) : Call (List ℕ) :=
  if devid ≠ 0 ∧ devidOf stripe.dev ≠ devid then .ok buf
  else if physical < stripe.physical ∨ wrap64 (stripe.physical + length) ≤ physical then .ok buf
  else do
    let stripeNr ← divide (physical - stripe.physical) map.stripeLen
    let stripeNr ← rmapStripeNr map stripeNr i
    let bytenr := wrap64 (map.ce.start + stripeNr * rmapLen)
    if bytenr ∈ buf then return buf else return buf ++ [bytenr]

/-- The loop of `btrfs_rmap_block` from the stripe `i` on. -/
def rmapStripes (devidOf : ℕ → ℕ) (map : MapLookup) (length rmapLen physical devid : ℕ) :
    ℕ → List BioStripe → List ℕ → Call (List ℕ)
  | _, [], buf => .ok buf
  | i, stripe :: rest, buf => do
      let buf ← rmapStripe' devidOf map length rmapLen physical devid i stripe buf
      rmapStripes devidOf map length rmapLen physical devid (i + 1) rest buf

/-- `btrfs_rmap_block`: the addresses `*logical` and `*stripe_len`. -/
def btrfsRmapBlock' (devidOf : ℕ → ℕ) (tree : MapTree) (chunkStart physical devid : ℕ) :
    Call (List ℕ × ℕ) :=
  match searchMapping tree chunkStart with
  | none => .error .bug
  | some ce => do
      let (length, rmapLen) ← rmapLengths' ce.entry
      let buf ← rmapStripes devidOf ce.entry length rmapLen physical devid 0 ce.entry.stripes []
      return (buf, rmapLen)

/-! ## Stripe lengths -/

def btrfsStripeLength (chunk : Chunk) : Call ℕ :=
  let profile := chunk.type &&& BTRFS_BLOCK_GROUP_PROFILE_MASK
  let numStripes := chunk.stripes.length
  if profile = 0 ∨ profile = BTRFS_BLOCK_GROUP_RAID1 ∨ profile = BTRFS_BLOCK_GROUP_DUP then
    .ok chunk.length
  else if profile = BTRFS_BLOCK_GROUP_RAID0 then divide chunk.length numStripes
  else if profile = BTRFS_BLOCK_GROUP_RAID5 then divide chunk.length (numStripes - 1)
  else if profile = BTRFS_BLOCK_GROUP_RAID6 then divide chunk.length (numStripes - 2)
  else if profile = BTRFS_BLOCK_GROUP_RAID10 then do
    let factor ← divide numStripes chunk.subStripes
    divide chunk.length factor
  else .error .bug

def chunkBytesByType (type : BitVec 64) (calcSize numStripes subStripes : ℕ) : Call ℕ :=
  if hasFlags type (BTRFS_BLOCK_GROUP_RAID1 ||| BTRFS_BLOCK_GROUP_DUP) then .ok calcSize
  else if hasFlags type BTRFS_BLOCK_GROUP_RAID10 then do
    let factor ← divide numStripes subStripes
    return calcSize * factor
  else if hasFlags type BTRFS_BLOCK_GROUP_RAID5 then .ok (calcSize * (numStripes - 1))
  else if hasFlags type BTRFS_BLOCK_GROUP_RAID6 then .ok (calcSize * (numStripes - 2))
  else .ok (calcSize * numStripes)

/-! ## Walking over the block groups (`btrfs_next_bg`) -/

/-- The loop of `btrfs_next_bg`; `none` stands for `-ENOENT`, which leaves `*logical` alone. -/
def nextBgLoop (type : BitVec 64) : ℕ → ℕ → Option (Loc MapLookup) → Call (Option (ℕ × ℕ))
  | 0, _, _ => .error .outOfRounds
  | _ + 1, _, none => .ok none
  | rounds + 1, cur, some ce =>
    match if cur ≠ 0 then rbNext ce else some ce with
    | none => .ok none
    | some ce =>
      let cur := ce.entry.ce.start
      if ce.entry.has type then .ok (some (ce.entry.ce.start, ce.entry.ce.size))
      else nextBgLoop type rounds cur (if cur = 0 then rbNext ce else some ce)

/-- The number of chunks. -/
def MapTree.size : MapTree → ℕ
  | .nil => 0
  | .node _ l _ r => MapTree.size l + 1 + MapTree.size r

/-- `btrfs_next_bg`: the new `*logical` and `*size`. -/
def btrfsNextBg (tree : MapTree) (logical : ℕ) (type : BitVec 64) : Call (Option (ℕ × ℕ)) :=
  nextBgLoop type (MapTree.size tree + 1) logical (searchMapping tree logical)

/-- The loop of `btrfs_find_root_search` over the block groups: what the calls return, and whether
the last one returned `-ENOENT`. -/
def nextBgs (tree : MapTree) (type : BitVec 64) : ℕ → ℕ → Call (List (ℕ × ℕ) × Bool)
  | 0, _ => .ok ([], false)
  | calls + 1, logical => do
      match ← btrfsNextBg tree logical type with
      | none => return ([], true)
      | some bg =>
        let (rest, done) ← nextBgs tree type calls bg.1
        return (bg :: rest, done)

end Btrfs.Volumes
