import Btrfs.Verification.DiskIo.Fallback
import Btrfs.Verification.Volumes.Profile

/-! # What `check_super` accepts -/

namespace Btrfs.DiskIo

open Raid56 Volumes

variable {next : Unit → Except String Unit}

/-! ## The checks -/

/-- The fields of a superblock are as `check_super` tests them. -/
structure Checked (sb : ℕ → Byte) (sbflags : BitVec 32) : Prop where
  magic : superMagic sb = BTRFS_MAGIC_PARTIAL → sbflags &&& SBREAD_PARTIAL ≠ 0
  csumType : superCsumType sb = 0
  csum : blockCsum sb BTRFS_SUPER_INFO_SIZE = bytesAt sb 0 4
  rootLevel : superRootLevel sb < Ctree.BTRFS_MAX_LEVEL
  chunkRootLevel : superChunkRootLevel sb < Ctree.BTRFS_MAX_LEVEL
  logRootLevel : superLogRootLevel sb < Ctree.BTRFS_MAX_LEVEL
  root : 4096 ∣ superRoot sb
  chunkRoot : 4096 ∣ superChunkRoot sb
  logRoot : 4096 ∣ superLogRoot sb
  nodesize : 4096 ≤ superNodesize sb ∧ 4096 ∣ superNodesize sb
  sectorsize : 4096 ≤ superSectorsize sb ∧ 4096 ∣ superSectorsize sb
  totalBytes : superTotalBytes sb ≠ 0
  bytesUsed : 6 * superNodesize sb % 2 ^ 32 ≤ superBytesUsed sb
  stripesize : superStripesize sb = 4096 ∨ superStripesize sb = superSectorsize sb
  fsid : superFsid sb = superDevFsid sb
  numDevices : 0 < superNumDevices sb
  sysArraySize : diskKeySize + btrfsChunkItemSize 1 ≤ superSysArraySize sb ∧
    superSysArraySize sb ≤ BTRFS_SYSTEM_CHUNK_ARRAY_SIZE

theorem isAligned_4096_iff (x : ℕ) : isAligned x 4096 = true ↔ 4096 ∣ x := by
  have hmask : x.land 4095 = x % 4096 := Nat.and_two_pow_sub_one_eq_mod x 12
  rw [isAligned, decide_eq_true_eq, hmask, Nat.dvd_iff_mod_eq_zero]

theorem checkLevel_bind_eq_ok_iff {tree : String} {level : ℕ} :
    (checkLevel tree level >>= next) = .ok () ↔
      level < Ctree.BTRFS_MAX_LEVEL ∧ next () = .ok () := by
  rw [checkLevel, failIf_bind_eq_ok_iff, not_le]

theorem checkRoot_bind_eq_ok_iff {tree : String} {bytenr : ℕ} :
    (checkRoot tree bytenr >>= next) = .ok () ↔ 4096 ∣ bytenr ∧ next () = .ok () := by
  rw [checkRoot, failIf_bind_eq_ok_iff, not_not, isAligned_4096_iff]

theorem checkSize_bind_eq_ok_iff {field : String} {size : ℕ} :
    (checkSize field size >>= next) = .ok () ↔ (4096 ≤ size ∧ 4096 ∣ size) ∧ next () = .ok () := by
  rw [checkSize, bind_assoc, failIf_bind_eq_ok_iff, failIf_bind_eq_ok_iff, not_not, not_lt,
    isAligned_4096_iff, and_assoc]

theorem checkSuper_eq_ok_iff (sb : ℕ → Byte) (sbflags : BitVec 32) :
    checkSuper sb sbflags = .ok () ↔ Checked sb sbflags := by
  have hmag : ¬ (superMagic sb ≠ BTRFS_MAGIC ∧ superMagic sb = BTRFS_MAGIC_PARTIAL ∧
      sbflags &&& SBREAD_PARTIAL = 0) ↔
      (superMagic sb = BTRFS_MAGIC_PARTIAL → sbflags &&& SBREAD_PARTIAL ≠ 0) := by
    constructor
    · intro hnot hmkfs hz
      exact hnot ⟨by rw [hmkfs]; decide, hmkfs, hz⟩
    · rintro hf ⟨-, hmkfs, hz⟩
      exact hf hmkfs hz
  have ht : ¬ btrfsCsumSizes.length ≤ superCsumType sb ↔ superCsumType sb = 0 := by
    change ¬ 1 ≤ superCsumType sb ↔ _
    omega
  have hstripe : ¬ (superStripesize sb ≠ 4096 ∧ superStripesize sb ≠ superSectorsize sb) ↔
      superStripesize sb = 4096 ∨ superStripesize sb = superSectorsize sb := by
    rw [not_and_or, not_not, not_not]
  unfold checkSuper
  simp only [failIf_bind_eq_ok_iff, checkLevel_bind_eq_ok_iff, checkRoot_bind_eq_ok_iff,
    checkSize_bind_eq_ok_iff, failIf_eq_ok_iff, hmag, ht, hstripe]
  constructor
  · rintro ⟨h1, h2, h3, h4, h5, h6, h7, h8, h9, h10, h11, h12, h13, h14, h15, h16, h17, h18⟩
    rw [h2] at h3
    exact ⟨h1, h2, not_not.mp h3, h4, h5, h6, h7, h8, h9, h10, h11, h12, not_lt.mp h13, h14,
      not_not.mp h15, Nat.pos_of_ne_zero h16, not_lt.mp h18, not_lt.mp h17⟩
  · intro h
    refine ⟨h.magic, h.csumType, ?_, h.rootLevel, h.chunkRootLevel, h.logRootLevel, h.root,
      h.chunkRoot, h.logRoot, h.nodesize, h.sectorsize, h.totalBytes, not_lt.mpr h.bytesUsed, h.stripesize,
      not_not.mpr h.fsid, h.numDevices.ne', not_lt.mpr h.sysArraySize.2,
      not_lt.mpr h.sysArraySize.1⟩
    rw [h.csumType]
    exact not_not.mpr h.csum

/-! ## Soundness -/

def BlockSize (n : ℕ) : Prop := (∃ k, n = 2 ^ k) ∧ 4096 ≤ n ∧ n ≤ BTRFS_MAX_METADATA_BLOCKSIZE

structure ValidSuper (sb : ℕ → Byte) (sbflags : BitVec 32) : Prop where
  magic : superMagic sb = BTRFS_MAGIC ∨
    superMagic sb = BTRFS_MAGIC_PARTIAL ∧ sbflags &&& SBREAD_PARTIAL ≠ 0
  csum : blockCsum sb BTRFS_SUPER_INFO_SIZE = bytesAt sb 0 4
  levels : superRootLevel sb < Ctree.BTRFS_MAX_LEVEL ∧
    superChunkRootLevel sb < Ctree.BTRFS_MAX_LEVEL ∧ superLogRootLevel sb < Ctree.BTRFS_MAX_LEVEL
  roots : 4096 ∣ superRoot sb ∧ 4096 ∣ superChunkRoot sb ∧ 4096 ∣ superLogRoot sb
  nodesize : BlockSize (superNodesize sb)
  sectorsize : BlockSize (superSectorsize sb)
  bytesUsed : 6 * superNodesize sb ≤ superBytesUsed sb
  numDevices : 0 < superNumDevices sb
  sysArraySize : diskKeySize + btrfsChunkItemSize 1 ≤ superSysArraySize sb ∧
    superSysArraySize sb ≤ BTRFS_SYSTEM_CHUNK_ARRAY_SIZE

def MagicKnown (sb : ℕ → Byte) : Prop :=
  superMagic sb = BTRFS_MAGIC ∨ superMagic sb = BTRFS_MAGIC_PARTIAL

theorem Checked.validSuper_iff {sb : ℕ → Byte} {sbflags : BitVec 32} (h : Checked sb sbflags) :
    ValidSuper sb sbflags ↔
      MagicKnown sb ∧ BlockSize (superNodesize sb) ∧ BlockSize (superSectorsize sb) := by
  constructor
  · intro hval
    exact ⟨hval.magic.imp id And.left, hval.nodesize, hval.sectorsize⟩
  · rintro ⟨hmag, hn, hsec⟩
    refine ⟨hmag.imp id fun hmkfs => ⟨hmkfs, h.magic hmkfs⟩, h.csum,
      ⟨h.rootLevel, h.chunkRootLevel, h.logRootLevel⟩, ⟨h.root, h.chunkRoot, h.logRoot⟩, hn,
      hsec, ?_, h.numDevices, h.sysArraySize⟩
    -- the product of such a size does not wrap around
    have hmax : superNodesize sb ≤ 65536 := hn.2.2
    have hu := h.bytesUsed
    rwa [Nat.mod_eq_of_lt (by omega)] at hu

/-- An accepted superblock is valid exactly if, given all the other checks, the signature is known
and both sizes are sizes of blocks; `check_super` tests neither. -/
theorem checkSuper_sound_iff (sb : ℕ → Byte) (sbflags : BitVec 32) :
    (checkSuper sb sbflags = .ok () → ValidSuper sb sbflags) ↔ (Checked sb sbflags →
        MagicKnown sb ∧ BlockSize (superNodesize sb) ∧ BlockSize (superSectorsize sb)) := by
  rw [checkSuper_eq_ok_iff]
  exact forall_congr' fun h => h.validSuper_iff

/-! ## A superblock -/

def putLe (data : ℕ → Byte) (offset n v : ℕ) : ℕ → Byte := fun k =>
  if offset ≤ k ∧ k < offset + n then (leBytes n v).getD (k - offset) 0 else data k

/-- A superblock with one device and room for one system chunk. -/
def superWith (magic nodesize bytesUsed : ℕ) : ℕ → Byte :=
  let fields := [(64, 8, magic), (80, 8, 1048576), (88, 8, 2097152), (112, 8, 1073741824),
    (120, 8, bytesUsed), (136, 8, 1), (144, 4, 4096), (148, 4, nodesize), (156, 4, 4096),
    (160, 4, 97)]
  let body := fields.foldl (fun data (offset, n, v) => putLe data offset n v) fun _ => 0
  writeCsum body BTRFS_SUPER_INFO_SIZE

theorem superWith_csum (magic nodesize bytesUsed : ℕ) :
    blockCsum (superWith magic nodesize bytesUsed) BTRFS_SUPER_INFO_SIZE =
      bytesAt (superWith magic nodesize bytesUsed) 0 4 :=
  blockCsum_writeCsum BTRFS_SUPER_INFO_SIZE

theorem superWith_checked : Checked (superWith BTRFS_MAGIC 16384 131072) 0 := by
  refine ⟨?_, ?_, superWith_csum _ _ _, ?_, ?_, ?_, ?_, ?_, ?_, ?_, ?_, ?_, ?_, ?_, ?_, ?_, ?_⟩
  all_goals decide +kernel

theorem checkSuper_sound_mkfs : ValidSuper (superWith BTRFS_MAGIC 16384 131072) 0 := by
  refine (checkSuper_sound_iff _ _).mpr ?_ ((checkSuper_eq_ok_iff _ _).mpr superWith_checked)
  intro _
  refine ⟨.inl (by decide +kernel), ⟨⟨14, by decide +kernel⟩, by decide +kernel⟩,
    ⟨⟨12, by decide +kernel⟩, by decide +kernel⟩⟩

/-- A block without a signature, whose `nodesize` is neither a power of two nor in range and with
`6 * nodesize` above `bytes_used`, is accepted. -/
theorem checkSuper_accepts_invalid : checkSuper (superWith 0 715829248 8192) 0 = .ok () ∧
      superMagic (superWith 0 715829248 8192) = 0 ∧
      superNodesize (superWith 0 715829248 8192) = 715829248 ∧
      superBytesUsed (superWith 0 715829248 8192) = 8192 ∧
      ¬ ValidSuper (superWith 0 715829248 8192) 0 := by
  have hn : superNodesize (superWith 0 715829248 8192) = 715829248 := by decide +kernel
  refine ⟨(checkSuper_eq_ok_iff _ _).mpr ?_, by decide +kernel, hn, by decide +kernel, ?_⟩
  · refine ⟨?_, ?_, superWith_csum _ _ _, ?_, ?_, ?_, ?_, ?_, ?_, ?_, ?_, ?_, ?_, ?_, ?_, ?_, ?_⟩
    all_goals decide +kernel
  · intro hval
    have hmax := hval.nodesize.2.2
    exact absurd hmax (by decide)

end Btrfs.DiskIo
