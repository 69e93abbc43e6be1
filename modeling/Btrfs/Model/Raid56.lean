import Btrfs.Model.Basic

/-! # RAID5/6 parity and recovery (`kernel-lib/raid56.c`, `kernel-lib/mktables.c`) -/

namespace Btrfs.Raid56

abbrev Byte := BitVec 8

/-! ## Galois field tables -/

/-- The doubling step of `gfmul`: `(a << 1) ^ (a & 0x80 ? 0x1d : 0)`. -/
def gfdouble (a : Byte) : Byte :=
  (a <<< 1) ^^^ (if a &&& 0x80#8 ≠ 0 then 0x1d#8 else 0)

/-- The loop of `gfmul`. A `uint8_t` is zero after eight shifts. -/
def gfmulLoop : ℕ → Byte → Byte → Byte → Byte
  | 0, v, _, _ => v
  | n + 1, v, a, b =>
    if b = 0 then v
    else gfmulLoop n (if b &&& 1#8 ≠ 0 then v ^^^ a else v) (gfdouble a) (b >>> 1)

def gfmul (a b : Byte) : Byte := gfmulLoop 8 0 a b

/-- The loop of `gfpow`. After `b %= 255` the exponent has eight bits. -/
def gfpowLoop : ℕ → Byte → Byte → ℕ → Byte
  | 0, v, _, _ => v
  | n + 1, v, a, b =>
    if b = 0 then v
    else gfpowLoop n (if b % 2 = 1 then gfmul v a else v) (gfmul a a) (b / 2)

def gfpow (a : Byte) (b : ℕ) : Byte := gfpowLoop 8 1 a (b % 255)

def raid6Gfmul (a b : Byte) : Byte := gfmul a b

/-- The power table is filled in order; entry 255 is not a real entry. -/
def raid6Gfexp : ℕ → Byte
  | 0 => 1
  | n + 1 =>
    let v := gfmul (raid6Gfexp n) 2
    if v = 1 then 0 else v

def raid6Gfinv (a : Byte) : Byte := gfpow a 254

def raid6Gfexi (n : ℕ) : Byte := raid6Gfinv (raid6Gfexp n ^^^ 1)

/-! ## Buffers and words -/

/-- The buffers of a call: those of the caller and the two that `calloc` may return. -/
inductive Ptr where
  | stripe (i : ℤ)
  | zeroMem1
  | zeroMem2
deriving DecidableEq, Repr

abbrev Memory := Ptr → ℕ → Byte

/-- `void **data`. -/
abbrev PtrTable := ℤ → Ptr

/-- `unative_t`, with `BITS_PER_LONG == 64`. -/
abbrev Native := BitVec 64

def nsize : ℕ := 8

/-- `NBYTES(x)`. -/
def nbytes (x : Native) : Native := x * 0x0101010101010101#64

/-- The byte of a word that is stored at offset `k`. -/
def nativeByte (w : Native) (k : ℕ) : Byte := w.extractLsb' (8 * k) 8

/-- `get_unaligned_native`: the word stored in the eight bytes from `d` on. -/
def getUnalignedNative (buf : ℕ → Byte) (d : ℕ) : Native :=
  buf (d + 7) ++ buf (d + 6) ++ buf (d + 5) ++ buf (d + 4) ++
    buf (d + 3) ++ buf (d + 2) ++ buf (d + 1) ++ buf d

def putUnalignedNative (w : Native) (buf : ℕ → Byte) (d : ℕ) : ℕ → Byte :=
  fun x => if d ≤ x ∧ x < d + nsize then nativeByte w (x - d) else buf x

def shlbyte (v : Native) : Native := (v <<< 1) &&& nbytes 0xfe

def mask (v : Native) : Native :=
  let vv := v &&& nbytes 0x80
  (vv <<< 1) - (vv >>> 7)

/-! ## Syndromes -/

/-- One step of the inner loop of `raid6_gen_syndrome`, on the words `(wp0, wq0)`. -/
def syndromeStep (w : Native × Native) (wd0 : Native) : Native × Native :=
  (w.1 ^^^ wd0, (shlbyte w.2 ^^^ (mask w.2 &&& nbytes 0x1d)) ^^^ wd0)

/-- The inner loop: `(wp0, wq0)` at offset `d` after the data disks from `z0` down to 0. -/
def syndromeWords (mem : Memory) (data : PtrTable) (d : ℕ) : ℕ → Native × Native → Native × Native
  | 0, w => w
  | z + 1, w =>
    syndromeWords mem data d z (syndromeStep w (getUnalignedNative (mem (data z)) d))

/-- One round of the outer loop. -/
def syndromeRound (z0 : ℕ) (data : PtrTable) (mem : Memory) (d : ℕ) : Memory :=
  let first := getUnalignedNative (mem (data z0)) d
  let w := syndromeWords mem data d z0 (first, first)
  let p := data (z0 + 1)
  let mem := Function.update mem p (putUnalignedNative w.1 (mem p) d)
  let q := data (z0 + 2)
  Function.update mem q (putUnalignedNative w.2 (mem q) d)

/-- `raid6_gen_syndrome`, for at least three disks. -/
def raid6GenSyndrome (disks : ℤ) (bytes : ℕ) (data : PtrTable) (mem : Memory) : Memory :=
  (List.range ((bytes + nsize - 1) / nsize)).foldl
    (fun mem k => syndromeRound (disks - 3).toNat data mem (k * nsize)) mem

/-! ## XOR of two buffers -/

def xorByte (src : ℕ → Byte) (dst : ℕ → Byte) (x : ℕ) : ℕ → Byte :=
  Function.update dst x (dst x ^^^ src x)

def xorWord (src : ℕ → Byte) (dst : ℕ → Byte) (x : ℕ) : ℕ → Byte :=
  putUnalignedNative (getUnalignedNative dst x ^^^ getUnalignedNative src x) dst x

/-- The first loop of `xor_range`: bytes while `dst & sizeof(unsigned long)`. It returns the
offset reached. -/
def xorHead (addr : ℕ) (src : ℕ → Byte) : ℕ → ℕ → (ℕ → Byte) → ℕ × (ℕ → Byte)
  | 0, x, dst => (x, dst)
  | size + 1, x, dst =>
    if (addr + x).land 8 ≠ 0 then xorHead addr src size (x + 1) (xorByte src dst x)
    else (x, dst)

/-- `xor_range` on a destination at address `addr`. -/
def xorRange (addr : ℕ) (dst src : ℕ → Byte) (size : ℕ) : ℕ → Byte :=
  let (x, dst) := xorHead addr src size 0 dst
  let words := (size - x) / nsize
  let dst := (List.range words).foldl (fun dst k => xorWord src dst (x + k * nsize)) dst
  let x := x + words * nsize
  (List.range (size - x)).foldl (fun dst k => xorByte src dst (x + k)) dst

/-! ## Recovery -/

def BTRFS_STRIPE_LEN : ℕ := 64 * 1024

def BTRFS_BLOCK_GROUP_RAID5 : BitVec 64 := 1#64 <<< 7
def BTRFS_BLOCK_GROUP_RAID6 : BitVec 64 := 1#64 <<< 8

/-- `memcpy` and `memset` on the first `size` bytes. -/
def memcpy (dst src : ℕ → Byte) (size : ℕ) : ℕ → Byte :=
  fun x => if x < size then src x else dst x

variable (addr : Ptr → ℕ)

def raid5GenResult (nrDevs : ℤ) (stripeLen : ℕ) (dest : ℤ) (data : PtrTable) (mem : Memory) :
    ℤ × Memory :=
  let buf := data dest
  if stripeLen ≤ 0 ∨ stripeLen ≠ BTRFS_STRIPE_LEN then (-EINVAL, mem)
  else if nrDevs ≤ dest ∨ nrDevs < 2 then (-EINVAL, mem)
  else if nrDevs = 2 then
    (0, Function.update mem buf (memcpy (mem buf) (mem (data (1 - dest))) stripeLen))
  else
    let mem := Function.update mem buf (memcpy (mem buf) (fun _ => 0) stripeLen)
    (0, (List.range nrDevs.toNat).foldl
      (fun (mem : Memory) (i : ℕ) =>
        if (i : ℤ) = dest then mem
        else Function.update mem buf (xorRange (addr buf) (mem buf) (mem (data i)) stripeLen))
      mem)

/-- One round of the last loop of `raid6_recov_data2`. -/
def recovData2Byte (pbmul qmul : Byte → Byte) (p q dp dq : Ptr) (mem : Memory) (x : ℕ) : Memory :=
  let px := mem p x ^^^ mem dp x
  let qx := qmul (mem q x ^^^ mem dq x)
  let db := pbmul px ^^^ qx
  let mem := Function.update mem dq (Function.update (mem dq) x db)
  Function.update mem dp (Function.update (mem dp) x (db ^^^ px))

/-- `raid6_recov_data2`, with both `calloc` calls succeeding. The pointer table is changed
for the syndrome computation only. -/
def raid6RecovData2 (nrDevs : ℤ) (stripeLen : ℕ) (dest1 dest2 : ℤ) (data : PtrTable)
    (mem : Memory) : ℤ × Memory :=
  if dest1 < 0 ∨ nrDevs - 2 ≤ dest1 ∨ dest2 < 0 ∨ nrDevs - 2 ≤ dest2 ∨ dest2 ≤ dest1 then
    (-EINVAL, mem)
  else
    let mem := Function.update mem .zeroMem1 fun _ => 0
    let mem := Function.update mem .zeroMem2 fun _ => 0
    let p := data (nrDevs - 2)
    let q := data (nrDevs - 1)
    let dp := data dest1
    let table := Function.update data dest1 .zeroMem1
    let table := Function.update table (nrDevs - 2) dp
    let dq := table dest2
    let table := Function.update table dest2 .zeroMem2
    let table := Function.update table (nrDevs - 1) dq
    let mem := raid6GenSyndrome nrDevs stripeLen table mem
    let pbmul := raid6Gfmul (raid6Gfexi (dest2 - dest1).toNat)
    let qmul := raid6Gfmul (raid6Gfinv (raid6Gfexp dest1.toNat ^^^ raid6Gfexp dest2.toNat))
    (0, (List.range stripeLen).foldl (recovData2Byte pbmul qmul p q dp dq) mem)

/-- One round of the last loop of `raid6_recov_datap`. -/
def recovDatapByte (qmul : Byte → Byte) (p q dq : Ptr) (mem : Memory) (x : ℕ) : Memory :=
  let v := qmul (mem q x ^^^ mem dq x)
  let mem := Function.update mem dq (Function.update (mem dq) x v)
  Function.update mem p (Function.update (mem p) x (mem p x ^^^ v))

/-- `raid6_recov_datap`, with `calloc` succeeding. -/
def raid6RecovDatap (nrDevs : ℤ) (stripeLen : ℕ) (dest1 : ℤ) (data : PtrTable) (mem : Memory) :
    ℤ × Memory :=
  let p := data (nrDevs - 2)
  let q := data (nrDevs - 1)
  let mem := Function.update mem .zeroMem1 fun _ => 0
  let dq := data dest1
  let table := Function.update data dest1 .zeroMem1
  let table := Function.update table (nrDevs - 1) dq
  let mem := raid6GenSyndrome nrDevs stripeLen table mem
  let qmul := raid6Gfmul (raid6Gfinv (raid6Gfexp dest1.toNat))
  (0, (List.range stripeLen).foldl (recovDatapByte qmul p q dq) mem)

/-- The reordering of `dest1` and `dest2` in `raid56_recov`: only the second can be -1, and
otherwise it is the greater one. -/
def reorderDest (dest1 dest2 : ℤ) : ℤ × ℤ :=
  if dest1 = -1 then (dest2, -1)
  else if dest2 ≠ -1 ∧ dest2 < dest1 then (dest2, dest1)
  else (dest1, dest2)

/-- The RAID6 part of `raid56_recov`. -/
def raid6Recov (nrDevs : ℤ) (stripeLen : ℕ) (dest1 dest2 : ℤ) (data : PtrTable) (mem : Memory) :
    ℤ × Memory :=
  if dest2 = -1 then
    if dest1 = nrDevs - 1 ∨ dest1 = nrDevs - 2 then
      (0, raid6GenSyndrome nrDevs stripeLen data mem)
    else raid5GenResult addr (nrDevs - 1) stripeLen dest1 data mem
  else if dest1 = nrDevs - 2 ∧ dest2 = nrDevs - 1 then
    (0, raid6GenSyndrome nrDevs stripeLen data mem)
  else if dest2 < nrDevs - 2 then raid6RecovData2 nrDevs stripeLen dest1 dest2 data mem
  else if dest2 = nrDevs - 1 then raid6RecovDatap nrDevs stripeLen dest1 data mem
  else
    let (ret, mem) := raid5GenResult addr (nrDevs - 1) stripeLen dest1 data mem
    if ret < 0 then (ret, mem) else (0, raid6GenSyndrome nrDevs stripeLen data mem)

def raid56Recov (nrDevs : ℤ) (stripeLen : ℕ) (profile : BitVec 64) (dest1 dest2 : ℤ)
    (data : PtrTable) (mem : Memory) : ℤ × Memory :=
  let raid5 := profile &&& BTRFS_BLOCK_GROUP_RAID5 ≠ 0
  let raid6 := profile &&& BTRFS_BLOCK_GROUP_RAID6 ≠ 0
  if ¬ raid5 ∧ ¬ raid6 then (-EINVAL, mem)
  else if nrDevs < (if raid5 then 2 else 3) then (-EINVAL, mem)
  else if dest1 = -1 ∧ dest2 = -1 then (0, mem)
  else
    let (dest1, dest2) := reorderDest dest1 dest2
    if raid5 then
      if dest2 ≠ -1 then (1, mem) else raid5GenResult addr nrDevs stripeLen dest1 data mem
    else raid6Recov addr nrDevs stripeLen dest1 dest2 data mem

end Btrfs.Raid56
