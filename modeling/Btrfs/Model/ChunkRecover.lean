import Btrfs.Model.Ctree.TreeBlock
import Btrfs.Model.MapBlock

/-! # Recovering chunks (`chunk-recover.c`) -/

namespace Btrfs.ChunkRecover

open Ctree (toInt32 Blocks Key Path btrfsNextLeaf)
open Raid56 Volumes

/-! ## The stripes of a recovered chunk -/

/-- The fields of `struct chunk_record` that the order of the stripes depends on. -/
structure ChunkRecord where
  offset : ℕ
  length : ℕ
  typeFlags : BitVec 64
  stripeLen : ℕ
  numStripes : ℕ
  subStripes : ℕ
deriving DecidableEq, Repr

def ChunkRecord.has (chunk : ChunkRecord) (flags : BitVec 64) : Bool :=
  hasFlags chunk.typeFlags flags

/-- The quotient of two values of `int`. -/
def intDivide (a b : ℤ) : Call ℤ := if b = 0 then .error .bug else .ok (a.tdiv b)

/-- The remainder of two values of `int`. -/
def intRemainder (a b : ℤ) : Call ℤ := if b = 0 then .error .bug else .ok (a.tmod b)

/-- The index in a row of a chunk with parity. -/
def rotatedIndex (chunk : ChunkRecord) (stripeNr nrDataStripes : ℤ) : Call ℤ := do
  let index ← intRemainder stripeNr nrDataStripes
  let stripeNr ← intDivide stripeNr nrDataStripes
  intRemainder (index + stripeNr) chunk.numStripes

def btrfsCalcStripeIndex (chunk : ChunkRecord) (logical : ℕ) : Call ℤ := do
  let stripeNr := toInt32 (← divide (sub64 logical chunk.offset) chunk.stripeLen)
  if chunk.has BTRFS_BLOCK_GROUP_RAID0 then intRemainder stripeNr chunk.numStripes
  else if chunk.has BTRFS_BLOCK_GROUP_RAID10 then
    let index ← intRemainder stripeNr (← intDivide chunk.numStripes chunk.subStripes)
    return index * chunk.subStripes
  else if chunk.has BTRFS_BLOCK_GROUP_RAID5 then rotatedIndex chunk stripeNr (chunk.numStripes - 1)
  else if chunk.has BTRFS_BLOCK_GROUP_RAID6 then rotatedIndex chunk stripeNr (chunk.numStripes - 2)
  else return -1

/-- `calc_data_offset` for a checksum item at `keyOffset`. -/
def calcDataOffset (keyOffset : ℕ) (chunk : ChunkRecord) (devOffset csumOffset blocksize : ℕ) :
    Call ℕ := do
  let dataOffset := sub64 (wrap64 (keyOffset + csumOffset * blocksize)) chunk.offset
  let nrDataStripes : ℤ :=
    if chunk.has BTRFS_BLOCK_GROUP_RAID5 then chunk.numStripes - 1
    else if chunk.has BTRFS_BLOCK_GROUP_RAID6 then chunk.numStripes - 2
    else chunk.numStripes
  let logicalStripeNr := toInt32 (← divide dataOffset chunk.stripeLen)
  let devStripeNr ← intDivide logicalStripeNr nrDataStripes
  let dataOffset :=
    (dataOffset - logicalStripeNr * chunk.stripeLen + devStripeNr * chunk.stripeLen) % 2 ^ 64
  return wrap64 (devOffset + dataOffset.toNat)

/-! ## The used bytes of a block group -/

def BTRFS_EXTENT_DATA_KEY : ℕ := 108

def BTRFS_EXTENT_ITEM_KEY : ℕ := 168

def BTRFS_METADATA_ITEM_KEY : ℕ := 169

/-- The loop of `calculate_bg_used`: the returned value, and `*used` where it is set. `behind` is
what the slot behind the last item of a leaf reads as. -/
def calculateBgUsed (nodesize : ℕ) (blocks : Blocks) (behind : Ctree.ExtentBuffer → Key)
    (chunk : ChunkRecord) : ℕ → Path → ℕ → Call (ℤ × Option ℕ)
  | 0, _, _ => .error .outOfRounds
  | n + 1, path, usedRet =>
    let node := path.leaf blocks
    let foundKey := ((path.item blocks).map Ctree.Item.key).getD (behind node)
    if wrap64 (chunk.offset + chunk.length) ≤ foundKey.objectid then .ok (0, some usedRet)
    else
      let usedRet :=
        if foundKey.type = BTRFS_METADATA_ITEM_KEY then wrap64 (usedRet + nodesize)
        else if foundKey.type = BTRFS_EXTENT_DATA_KEY then wrap64 (usedRet + foundKey.offset)
        else usedRet
      if path.slots 0 + 1 < node.nritems then
        -- `slot++` changes the local variable, and the path stays on the item
        calculateBgUsed nodesize blocks behind chunk n path usedRet
      else
        let (ret, path) := btrfsNextLeaf blocks path
        if 0 < ret then .ok (0, some usedRet)
        else if ret < 0 then .ok (ret, none)
        else calculateBgUsed nodesize blocks behind chunk n path usedRet

end Btrfs.ChunkRecover
