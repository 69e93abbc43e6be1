import Btrfs.Model.Crc32c
import Btrfs.Model.SysArray

/-! # Reading tree blocks (`disk-io.c`) -/

namespace Btrfs.DiskIo

open Crc32c ExtentCache Raid56 Volumes

/-- The part of `struct btrfs_fs_info` that is used to read a tree block. `fsids` has the `fsid` of
`fs_devices` and of its `seed` devices. -/
structure FsInfo extends Volumes.FsInfo where
  sectorsize : ℕ
  ignoreFsidMismatch : Bool
  fsids : List (List Byte)

/-- A `struct extent_buffer` that holds a tree block, with two of its `flags`. -/
structure TreeBuffer extends Volumes.ExtentBuffer where
  uptodate : Bool
  badTransid : Bool

/-! ## The header -/

def BTRFS_CSUM_SIZE : ℕ := 32

def BTRFS_FSID_SIZE : ℕ := 16

/-- Some bytes of a buffer. -/
def bytesAt (data : ℕ → Byte) (offset len : ℕ) : List Byte :=
  (List.range len).map fun k => data (offset + k)

def headerFsid (data : ℕ → Byte) : List Byte := bytesAt data 32 BTRFS_FSID_SIZE

def headerBytenr (data : ℕ → Byte) : ℕ := leNat (bytesAt data 48 8)

def headerGeneration (data : ℕ → Byte) : ℕ := leNat (bytesAt data 80 8)

def headerNritems (data : ℕ → Byte) : ℕ := leNat (bytesAt data 96 4)

def headerLevel (data : ℕ → Byte) : ℕ := leNat (bytesAt data 100 1)

/-! ## The checks -/

def maxNritems (level nodesize : ℕ) : ℕ :=
  if level = 0 then (nodesize - Ctree.headerSize) / Ctree.itemSize
  else (nodesize - Ctree.headerSize) / Ctree.keyPtrSize

/-- What `check_tree_block` can find. -/
inductive TreeBlockError where
  | badBytenr
  | badFsid
  | badLevel
  | badNritems
deriving DecidableEq, Repr

def checkTreeBlock (info : FsInfo) (buf : Volumes.ExtentBuffer) : Except TreeBlockError Unit :=
  if buf.start ≠ headerBytenr buf.data then .error .badBytenr
  else if Ctree.BTRFS_MAX_LEVEL ≤ headerLevel buf.data then .error .badLevel
  else if maxNritems (headerLevel buf.data) info.nodesize < headerNritems buf.data then
    .error .badNritems
  -- only leaf can be empty
  else if headerNritems buf.data = 0 ∧ headerLevel buf.data ≠ 0 then .error .badNritems
  else if info.fsids.any fun fsid => info.ignoreFsidMismatch || fsid == headerFsid buf.data then
    .ok ()
  else .error .badFsid

/-- The first bytes of `btrfs_csum_final`; `btrfs_csum_sizes` has no other size than 4. -/
def csumFinal (crc : BitVec 32) : List Byte := leBytes 4 (~~~ crc).toNat

/-- The checksum of a block of `len` bytes. -/
def blockCsum (data : ℕ → Byte) (len : ℕ) : List Byte :=
  csumFinal (crc32c (BitVec.allOnes 32) (bytesAt data BTRFS_CSUM_SIZE (len - BTRFS_CSUM_SIZE)))

/-- `csum_tree_block` with `verify`. -/
def csumTreeBlock (buf : Volumes.ExtentBuffer) : Bool :=
  blockCsum buf.data buf.len == bytesAt buf.data 0 4

/-- `csum_tree_block` without `verify`: the checksum is written into the block. -/
def writeCsum (data : ℕ → Byte) (len : ℕ) : ℕ → Byte := fun k =>
  if k < 4 then (blockCsum data len).getD k 0 else data k

/-- `verify_parent_transid`: whether it returns 0, and the buffer. -/
def verifyParentTransid (eb : TreeBuffer) (parentTransid : ℕ) (ignore : Bool) : Bool × TreeBuffer :=
  if parentTransid = 0 ∨ headerGeneration eb.data = parentTransid then (true, eb)
  else if ignore then (true, { eb with badTransid := true })
  else (false, { eb with uptodate := false })

def btrfsBufferUptodate (eb : TreeBuffer) (parentTransid : ℕ) : Bool × TreeBuffer :=
  if eb.uptodate then verifyParentTransid eb parentTransid true else (false, eb)

def btrfsNumCopies (tree : List MapLookup) (logical : ℕ) : ℕ :=
  match searchCacheExtent MapLookup.ce tree logical with
  | none => 1
  | some (_, map, _) =>
    if logical < map.ce.start ∨ wrap64 (map.ce.start + map.ce.size) < logical then 1
    else copiesOf map

/-! ## The mirrors -/

/-- The locals of `read_tree_block` that its loop changes. -/
structure MirrorSearch where
  mirrorNum : ℕ
  goodMirror : ℕ
  bestTransid : ℕ
  ignore : Bool

/-- The buffer read from a mirror, and whether it is accepted. -/
def tryMirror (info : FsInfo) (devs : Devices) (eb : TreeBuffer) (parentTransid : ℕ)
    (s : MirrorSearch) : Call (Bool × TreeBuffer) := do
  let (ret, buf) ← readWholeEb info.toFsInfo devs eb.toExtentBuffer s.mirrorNum
  let eb : TreeBuffer := { eb with toExtentBuffer := buf }
  if ret = 0 ∧ csumTreeBlock buf = true ∧ checkTreeBlock info buf = .ok () then
    return verifyParentTransid eb parentTransid s.ignore
  else return (false, eb)

/-- The mirror to try after a mirror that was not accepted. -/
def MirrorSearch.next (s : MirrorSearch) (numCopies generation : ℕ) : MirrorSearch :=
  if numCopies = 1 then { s with ignore := true }
  else
    let s := if s.bestTransid < generation ∧ s.mirrorNum ≠ 0 then
      { s with bestTransid := generation, goodMirror := s.mirrorNum } else s
    if numCopies < s.mirrorNum + 1 then { s with mirrorNum := s.goodMirror, ignore := true }
    else { s with mirrorNum := s.mirrorNum + 1 }

/-- The loop of `read_tree_block`. -/
def readTreeBlockLoop (info : FsInfo) (devs : Devices) (parentTransid : ℕ) :
    ℕ → TreeBuffer → MirrorSearch → Call (Except ℤ TreeBuffer)
  | 0, _, _ => .error .outOfRounds
  | n + 1, eb, s => do
      let (accepted, eb) ← tryMirror info devs eb parentTransid s
      if accepted then return .ok { eb with uptodate := true }
      else if s.ignore then return .error (-eio)
      else
        let numCopies := btrfsNumCopies info.mappingTree eb.start
        readTreeBlockLoop info devs parentTransid n eb
          (s.next numCopies (headerGeneration eb.data))

/-- `read_tree_block` on the buffer that `btrfs_find_create_tree_block` has returned. Every mirror
is tried once and one of them again. -/
def readTreeBlock (info : FsInfo) (devs : Devices) (eb : TreeBuffer) (parentTransid : ℕ) :
    Call (Except ℤ TreeBuffer) :=
  if eb.start < info.sectorsize ∨ eb.start % info.sectorsize ≠ 0 then .ok (.error (-eio))
  else
    let (uptodate, eb) := btrfsBufferUptodate eb parentTransid
    if uptodate then .ok (.ok eb)
    else
      let rounds := btrfsNumCopies info.mappingTree eb.start + 2
      readTreeBlockLoop info devs parentTransid rounds eb ⟨0, 0, 0, false⟩

/-! ## The superblock (`check_super` in `disk-io.c`) -/

def BTRFS_MAGIC : ℕ := 0x4D5F53665248425F

/-- The signature of a filesystem that `mkfs` has not finished. -/
def BTRFS_MAGIC_PARTIAL : ℕ := 0x4D5F536652484221

def BTRFS_MAX_METADATA_BLOCKSIZE : ℕ := 65536

def SBREAD_PARTIAL : BitVec 32 := 1 <<< 1

def btrfsCsumSizes : List ℕ := [4]

/-! ## The fields -/

section

variable (sb : ℕ → Byte)

def superFsid : List Byte := bytesAt sb 32 BTRFS_FSID_SIZE

def superMagic : ℕ := leNat (bytesAt sb 64 8)

def superRoot : ℕ := leNat (bytesAt sb 80 8)

def superChunkRoot : ℕ := leNat (bytesAt sb 88 8)

def superLogRoot : ℕ := leNat (bytesAt sb 96 8)

def superTotalBytes : ℕ := leNat (bytesAt sb 112 8)

def superBytesUsed : ℕ := leNat (bytesAt sb 120 8)

def superNumDevices : ℕ := leNat (bytesAt sb 136 8)

def superSectorsize : ℕ := leNat (bytesAt sb 144 4)

def superNodesize : ℕ := leNat (bytesAt sb 148 4)

def superStripesize : ℕ := leNat (bytesAt sb 156 4)

def superSysArraySize : ℕ := leNat (bytesAt sb 160 4)

def superCsumType : ℕ := leNat (bytesAt sb 196 2)

def superRootLevel : ℕ := leNat (bytesAt sb 198 1)

def superChunkRootLevel : ℕ := leNat (bytesAt sb 199 1)

def superLogRootLevel : ℕ := leNat (bytesAt sb 200 1)

/-- The `fsid` of the `dev_item`. -/
def superDevFsid : List Byte := bytesAt sb 283 BTRFS_FSID_SIZE

end

def uuidUnparse (uuid : List Byte) : String :=
  let digit (n : ℕ) : String := String.singleton (Nat.digitChar n)
  let hex (bytes : List Byte) : String :=
    String.join (bytes.map fun b => digit (b.toNat / 16) ++ digit (b.toNat % 16))
  String.intercalate "-" [hex (uuid.take 4), hex ((uuid.drop 4).take 2), hex ((uuid.drop 6).take 2),
    hex ((uuid.drop 8).take 2), hex (uuid.drop 10)]

/-! ## The checks -/

/-- The check of the level of a tree. -/
def checkLevel (tree : String) (level : ℕ) : Except String Unit :=
  failIf (Ctree.BTRFS_MAX_LEVEL ≤ level)
    s!"{tree} level too big: {level} >= {Ctree.BTRFS_MAX_LEVEL}"

/-- The check of the address of a root. -/
def checkRoot (tree : String) (bytenr : ℕ) : Except String Unit :=
  failIf (¬ isAligned bytenr 4096) s!"{tree} block unaligned: {bytenr}"

/-- The checks of `nodesize` and `sectorsize`. -/
def checkSize (field : String) (size : ℕ) : Except String Unit := do
  failIf (size < 4096) s!"{field} too small: {size} < 4096"
  failIf (¬ isAligned size 4096) s!"{field} unaligned: {size}"

/-- `check_super`. An error is the first printed text; the call then returns `-EIO`. -/
def checkSuper (sb : ℕ → Byte) (sbflags : BitVec 32) : Except String Unit := do
  failIf (superMagic sb ≠ BTRFS_MAGIC ∧ superMagic sb = BTRFS_MAGIC_PARTIAL ∧
    sbflags &&& SBREAD_PARTIAL = 0) "superblock magic doesn't match"
  let csumType := superCsumType sb
  failIf (btrfsCsumSizes.length ≤ csumType) s!"unsupported checksum algorithm {csumType}"
  let csumSize := btrfsCsumSizes.getD csumType 0
  failIf ((blockCsum sb BTRFS_SUPER_INFO_SIZE).take csumSize ≠ bytesAt sb 0 csumSize)
    "superblock checksum mismatch"
  checkLevel "tree_root" (superRootLevel sb)
  checkLevel "chunk_root" (superChunkRootLevel sb)
  checkLevel "log_root" (superLogRootLevel sb)
  checkRoot "tree_root" (superRoot sb)
  checkRoot "chunk_root" (superChunkRoot sb)
  checkRoot "log_root" (superLogRoot sb)
  checkSize "nodesize" (superNodesize sb)
  checkSize "sectorsize" (superSectorsize sb)
  failIf (superTotalBytes sb = 0) "invalid total_bytes 0"
  -- the product is a u32
  failIf (superBytesUsed sb < 6 * superNodesize sb % 2 ^ 32)
    s!"invalid bytes_used {superBytesUsed sb}"
  failIf (superStripesize sb ≠ 4096 ∧ superStripesize sb ≠ superSectorsize sb)
    s!"invalid stripesize {superStripesize sb}"
  failIf (superFsid sb ≠ superDevFsid sb)
    s!"dev_item UUID does not match fsid: {uuidUnparse (superDevFsid sb)} != {uuidUnparse (superFsid sb)}"
  failIf (superNumDevices sb = 0) "number of devices is 0"
  failIf (BTRFS_SYSTEM_CHUNK_ARRAY_SIZE < superSysArraySize sb)
    s!"system chunk array too big {superSysArraySize sb} > {BTRFS_SYSTEM_CHUNK_ARRAY_SIZE}"
  failIf (superSysArraySize sb < diskKeySize + btrfsChunkItemSize 1)
    s!"system chunk array too small {superSysArraySize sb} < {diskKeySize + btrfsChunkItemSize 1}"

end Btrfs.DiskIo
