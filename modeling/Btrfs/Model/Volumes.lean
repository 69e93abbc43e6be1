import Btrfs.Model.ExtentCache
import Btrfs.Model.Raid56

/-! # Chunks and their mapping to devices (`volumes.c`) -/

namespace Btrfs.Volumes

open ExtentCache Raid56

/-! ## Block group flags -/

def BTRFS_BLOCK_GROUP_DATA : BitVec 64 := 1#64 <<< 0
def BTRFS_BLOCK_GROUP_SYSTEM : BitVec 64 := 1#64 <<< 1
def BTRFS_BLOCK_GROUP_METADATA : BitVec 64 := 1#64 <<< 2
def BTRFS_BLOCK_GROUP_RAID0 : BitVec 64 := 1#64 <<< 3
def BTRFS_BLOCK_GROUP_RAID1 : BitVec 64 := 1#64 <<< 4
def BTRFS_BLOCK_GROUP_DUP : BitVec 64 := 1#64 <<< 5
def BTRFS_BLOCK_GROUP_RAID10 : BitVec 64 := 1#64 <<< 6

def BTRFS_BLOCK_GROUP_TYPE_MASK : BitVec 64 :=
  BTRFS_BLOCK_GROUP_DATA ||| BTRFS_BLOCK_GROUP_SYSTEM ||| BTRFS_BLOCK_GROUP_METADATA

def BTRFS_BLOCK_GROUP_PROFILE_MASK : BitVec 64 :=
  BTRFS_BLOCK_GROUP_RAID0 ||| BTRFS_BLOCK_GROUP_RAID1 ||| BTRFS_BLOCK_GROUP_RAID5 |||
    BTRFS_BLOCK_GROUP_RAID6 ||| BTRFS_BLOCK_GROUP_DUP ||| BTRFS_BLOCK_GROUP_RAID10

/-- `type & flags`, read as a condition. -/
def hasFlags (type flags : BitVec 64) : Bool := type &&& flags ≠ 0

/-! ## Chunks -/

/-- `struct btrfs_stripe`. -/
structure Stripe where
  devid : ℕ
  offset : ℕ
deriving DecidableEq, Repr

/-- The fields of a `struct btrfs_chunk` that are read; `num_stripes` is the length of
`stripes`. -/
structure Chunk where
  length : ℕ
  stripeLen : ℕ
  type : BitVec 64
  sectorSize : ℕ
  subStripes : ℕ
  stripes : List Stripe
deriving DecidableEq, Repr

def isPowerOf2 (n : BitVec 64) : Bool := n ≠ 0 ∧ n &&& (n - 1) = 0

def isAligned (x a : ℕ) : Bool := x.land (a - 1) = 0

def BTRFS_SYSTEM_CHUNK_ARRAY_SIZE : ℕ := 2048

/-- `btrfs_chunk_item_size`, for at least one stripe. -/
def btrfsChunkItemSize (numStripes : ℕ) : ℕ := 80 + 32 * (numStripes - 1)

/-- A check with the text it prints when it fails. -/
def failIf (cond : Prop) [Decidable cond] (text : String) : Except String Unit :=
  if cond then .error text else .ok ()

/-- `btrfs_check_chunk_valid`. An error is the printed text; the call then returns `-EIO`.
`itemSize` is the size of the item in `slot`. -/
def btrfsCheckChunkValid (sectorsize : ℕ) (chunk : Chunk) (slot : ℤ) (itemSize logical : ℕ) :
    Except String Unit := do
  let type := chunk.type
  let numStripes := chunk.stripes.length
  let profile := type &&& BTRFS_BLOCK_GROUP_PROFILE_MASK
  let known := BTRFS_BLOCK_GROUP_TYPE_MASK ||| BTRFS_BLOCK_GROUP_PROFILE_MASK
  failIf (¬ isAligned logical sectorsize) s!"invalid chunk logical {logical}"
  failIf (chunk.sectorSize ≠ sectorsize) s!"invalid chunk sectorsize {chunk.sectorSize}"
  failIf (chunk.length = 0 ∨ ¬ isAligned chunk.length sectorsize)
    s!"invalid chunk length {chunk.length}"
  failIf (chunk.stripeLen ≠ BTRFS_STRIPE_LEN)
    s!"invalid chunk stripe length: {chunk.stripeLen}"
  failIf (slot = -1 ∧ type &&& BTRFS_BLOCK_GROUP_SYSTEM = 0)
    s!"invalid chunk type {type.toNat}"
  failIf (type &&& ~~~ known ≠ 0) s!"unrecognized chunk type: {(~~~ known &&& type).toNat}"
  failIf (type &&& BTRFS_BLOCK_GROUP_TYPE_MASK = 0) s!"missing chunk type flag: {type.toNat}"
  failIf (¬ (isPowerOf2 profile ∨ profile = 0)) s!"conflicting chunk type detected: {type.toNat}"
  failIf (profile ≠ 0 ∧ ¬ isPowerOf2 profile)
    s!"conflicting chunk profile detected: {type.toNat}"
  failIf (numStripes < 1 ∨
      (slot = -1 ∧ BTRFS_SYSTEM_CHUNK_ARRAY_SIZE < btrfsChunkItemSize numStripes) ∨
      (0 ≤ slot ∧ itemSize < btrfsChunkItemSize numStripes))
    s!"invalid num_stripes: {numStripes}"
  failIf ((hasFlags type BTRFS_BLOCK_GROUP_RAID10 ∧
        (chunk.subStripes ≠ 2 ∨ ¬ isAligned numStripes chunk.subStripes)) ∨
      (hasFlags type BTRFS_BLOCK_GROUP_RAID1 ∧ numStripes < 1) ∨
      (hasFlags type BTRFS_BLOCK_GROUP_RAID5 ∧ numStripes < 2) ∨
      (hasFlags type BTRFS_BLOCK_GROUP_RAID6 ∧ numStripes < 3) ∨
      (hasFlags type BTRFS_BLOCK_GROUP_DUP ∧ 2 < numStripes) ∨
      (profile = 0 ∧ numStripes ≠ 1))
    s!"Invalid num_stripes:sub_stripes {numStripes}:{chunk.subStripes} for profile {profile.toNat}"

/-! ## The mapping tree -/

/-- `struct btrfs_bio_stripe`; a number stands for the pointer to a device. -/
structure BioStripe where
  dev : ℕ
  physical : ℕ
deriving DecidableEq, Repr

/-- `struct map_lookup`. -/
structure MapLookup where
  ce : CacheExtent
  type : BitVec 64
  stripeLen : ℕ
  subStripes : ℕ
  stripes : List BioStripe
deriving DecidableEq, Repr

def MapLookup.numStripes (map : MapLookup) : ℕ := map.stripes.length

def MapLookup.has (map : MapLookup) (flags : BitVec 64) : Bool := hasFlags map.type flags

/-- The `map_lookup` that `read_one_chunk` makes of a chunk item. -/
def mapOfChunk (findDevice : ℕ → ℕ) (logical : ℕ) (chunk : Chunk) : MapLookup where
  ce := ⟨logical, chunk.length⟩
  type := chunk.type
  stripeLen := chunk.stripeLen
  subStripes := chunk.subStripes
  stripes := chunk.stripes.map fun s => ⟨findDevice s.devid, s.offset⟩

def nrParityStripes (map : MapLookup) : ℕ :=
  if map.has BTRFS_BLOCK_GROUP_RAID5 then 1
  else if map.has BTRFS_BLOCK_GROUP_RAID6 then 2
  else 0

def nrDataStripes (map : MapLookup) : ℕ := map.numStripes - nrParityStripes map

/-! ## Stripes in the order of their logical addresses -/

def BTRFS_RAID5_P_STRIPE : ℕ := 2 ^ 64 - 2

def BTRFS_RAID6_Q_STRIPE : ℕ := 2 ^ 64 - 1

/-- `raid_map` before it is sorted. -/
def fillRaidMap (map : MapLookup) (stripeNr : ℕ) : ℕ → ℕ :=
  let n := map.numStripes
  let rot := stripeNr % n
  let tmp := stripeNr * nrDataStripes map
  let raidMap := (List.range (nrDataStripes map)).foldl
    (fun raidMap i => Function.update raidMap ((i + rot) % n)
      (map.ce.start + (tmp + i) * map.stripeLen)) fun _ => 0
  let i := nrDataStripes map
  let raidMap := Function.update raidMap ((i + rot) % n) BTRFS_RAID5_P_STRIPE
  if map.has BTRFS_BLOCK_GROUP_RAID6 then
    Function.update raidMap ((i + rot + 1) % n) BTRFS_RAID6_Q_STRIPE
  else raidMap

/-- The `for` loop of `sort_parity_stripes` from an entry of the `raid_map` with its stripe on,
and the flag `again`. -/
def sortParityFrom (a : ℕ × BioStripe) : List (ℕ × BioStripe) → List (ℕ × BioStripe) × Bool
  | [] => ([a], false)
  | b :: rest =>
    if b.1 < a.1 then (b :: (sortParityFrom a rest).1, true)
    else (a :: (sortParityFrom b rest).1, (sortParityFrom b rest).2)

def sortParityPass : List (ℕ × BioStripe) → List (ℕ × BioStripe) × Bool
  | [] => ([], false)
  | a :: rest => sortParityFrom a rest

/-- `sort_parity_stripes`, for a number of rounds. -/
def sortParityStripes : ℕ → List (ℕ × BioStripe) → Call (List (ℕ × BioStripe))
  | 0, _ => .error .outOfRounds
  | n + 1, stripes =>
    let (stripes, again) := sortParityPass stripes
    if again then sortParityStripes n stripes else .ok stripes

/-! ## `__btrfs_map_block` -/

inductive Rw where
  | read
  | write
deriving DecidableEq, Repr

/-- What `__btrfs_map_block` hands back: `*length`, the stripes and `*raid_map_ret`. -/
structure MultiBio where
  length : ℕ
  stripes : List BioStripe
  raidMap : Option (List ℕ)
deriving DecidableEq, Repr

/-- The locals `multi->num_stripes`, `stripe_index`, `stripe_nr` and `stripe_offset` at the end
of `__btrfs_map_block`. -/
structure StripePlan where
  numStripes : ℕ
  stripeIndex : ℕ
  stripeNr : ℕ
  stripeOffset : ℕ
deriving DecidableEq, Repr

def stripePlan (map : MapLookup) (rw : Rw) (mirrorNum : ℕ) (raidMap : Bool) (offset : ℕ) :
    StripePlan :=
  let stripeNr := offset / map.stripeLen
  let stripeOffset := offset - stripeNr * map.stripeLen
  if map.has BTRFS_BLOCK_GROUP_RAID1 then
    match rw with
    | .write => ⟨map.numStripes, 0, stripeNr, stripeOffset⟩
    | .read =>
      let stripeIndex := if mirrorNum ≠ 0 then mirrorNum - 1 else stripeNr % map.numStripes
      ⟨1, stripeIndex, stripeNr, stripeOffset⟩
  else if map.has BTRFS_BLOCK_GROUP_RAID10 then
    let factor := map.numStripes / map.subStripes
    let stripeIndex := stripeNr % factor * map.subStripes
    match rw with
    | .write => ⟨map.subStripes, stripeIndex, stripeNr / factor, stripeOffset⟩
    | .read =>
      let stripeIndex := if mirrorNum ≠ 0 then stripeIndex + mirrorNum - 1 else stripeIndex
      ⟨1, stripeIndex, stripeNr / factor, stripeOffset⟩
  else if map.has BTRFS_BLOCK_GROUP_DUP then
    match rw with
    | .write => ⟨map.numStripes, 0, stripeNr, stripeOffset⟩
    | .read => ⟨1, if mirrorNum ≠ 0 then mirrorNum - 1 else 0, stripeNr, stripeOffset⟩
  else if map.has (BTRFS_BLOCK_GROUP_RAID5 ||| BTRFS_BLOCK_GROUP_RAID6) then
    let data := nrDataStripes map
    if raidMap then
      let fullStripeLen := data * map.stripeLen
      let fullStripeStart := offset / fullStripeLen * fullStripeLen
      ⟨map.numStripes, 0, fullStripeStart / map.stripeLen / data, 0⟩
    else
      let stripeIndex := stripeNr % data
      let stripeNr := stripeNr / data
      let stripeIndex := if 1 < mirrorNum then data + mirrorNum - 2 else stripeIndex
      ⟨1, (stripeNr + stripeIndex) % map.numStripes, stripeNr, stripeOffset⟩
  else ⟨1, stripeNr % map.numStripes, stripeNr / map.numStripes, stripeOffset⟩

/-- `*length` for a chunk that is not mapped by full stripes. -/
def mapLength (map : MapLookup) (offset : ℕ) : ℕ :=
  if map.has (BTRFS_BLOCK_GROUP_RAID0 ||| BTRFS_BLOCK_GROUP_RAID1 ||| BTRFS_BLOCK_GROUP_RAID5 |||
      BTRFS_BLOCK_GROUP_RAID6 ||| BTRFS_BLOCK_GROUP_RAID10 ||| BTRFS_BLOCK_GROUP_DUP) then
    min (map.ce.size - offset) (map.stripeLen - (offset - offset / map.stripeLen * map.stripeLen))
  else map.ce.size - offset

/-- The loop that fills `multi->stripes`. -/
def fillStripes (map : MapLookup) (plan : StripePlan) : Call (List BioStripe) :=
  (List.range plan.numStripes).mapM fun i =>
    match map.stripes[plan.stripeIndex + i]? with
    | none => .error .bug
    | some s =>
      .ok ⟨s.dev, s.physical + plan.stripeOffset + plan.stripeNr * map.stripeLen⟩

/-- `__btrfs_map_block` from the found chunk on. -/
def mapInChunk (map : MapLookup) (rw : Rw) (offset mirrorNum : ℕ) (raidMapRet : Bool) :
    Call MultiBio := do
  let raidMap := map.has (BTRFS_BLOCK_GROUP_RAID5 ||| BTRFS_BLOCK_GROUP_RAID6) &&
    (rw == .write || decide (1 < mirrorNum)) && raidMapRet
  let plan := stripePlan map rw mirrorNum raidMap offset
  bugOn (map.numStripes ≤ plan.stripeIndex)
  let stripes ← fillStripes map plan
  if raidMap then
    let entries := (List.range map.numStripes).map (fillRaidMap map plan.stripeNr)
    let sorted ← sortParityStripes (map.numStripes * map.numStripes + 1) (entries.zip stripes)
    return ⟨map.stripeLen, sorted.map Prod.snd, some (sorted.map Prod.fst)⟩
  else return ⟨mapLength map offset, stripes, none⟩

/-- `btrfs_map_block` with a place for the stripes; `raidMapRet` says whether there is one for
the `raid_map`. -/
def btrfsMapBlock (tree : List MapLookup) (rw : Rw) (logical mirrorNum : ℕ) (raidMapRet : Bool) :
    Call (Except ℤ MultiBio) :=
  match searchCacheExtent MapLookup.ce tree logical with
  | none => .ok (.error (-ENOENT))
  | some (_, map, _) =>
    if logical < map.ce.start then .ok (.error (-ENOENT))
    else do
      let multi ← mapInChunk map rw (logical - map.ce.start) mirrorNum raidMapRet
      return .ok multi

end Btrfs.Volumes
