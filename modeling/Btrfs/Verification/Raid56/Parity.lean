import Btrfs.Model.Raid56
import Btrfs.Verification.Shared.PqCode

/-! # The bytes as a field

`gfmul` is bilinear over XOR, so its laws need only be tested on the eight powers of two. -/

namespace Btrfs.Raid56

/-! ## Bilinearity -/

private theorem xor_swap (a b c d : Byte) : (a ^^^ b) ^^^ (c ^^^ d) = (a ^^^ c) ^^^ (b ^^^ d) := by
  ac_rfl

def bitTerm (bit : Bool) (c : Byte) : Byte := if bit then c else 0

theorem bitTerm_xor (s t : Bool) (c : Byte) : bitTerm (s ^^ t) c = bitTerm s c ^^^ bitTerm t c := by
  cases s <;> cases t <;> simp [bitTerm]

theorem bitTerm_xor_right (s : Bool) (c d : Byte) :
    bitTerm s (c ^^^ d) = bitTerm s c ^^^ bitTerm s d := by
  cases s <;> simp [bitTerm]

theorem gfdouble_eq (a : Byte) : gfdouble a = (a <<< 1) ^^^ bitTerm (a.getLsbD 7) 0x1d#8 := by
  have hbit : a &&& 0x80#8 ≠ 0 ↔ a.getLsbD 7 = true := by
    revert a
    decide +kernel
  unfold gfdouble bitTerm
  simp only [hbit]

theorem gfdouble_xor (a b : Byte) : gfdouble (a ^^^ b) = gfdouble a ^^^ gfdouble b := by
  rw [gfdouble_eq, gfdouble_eq, gfdouble_eq, BitVec.getLsbD_xor, BitVec.shiftLeft_xor_distrib,
    bitTerm_xor, xor_swap]

theorem gfmulLoop_zero (n : ℕ) (v a : Byte) : gfmulLoop n v a 0 = v := by
  cases n <;> simp [gfmulLoop]

theorem gfmulLoop_succ (n : ℕ) (v a b : Byte) : gfmulLoop (n + 1) v a b =
      gfmulLoop n (v ^^^ bitTerm (b.getLsbD 0) a) (gfdouble a) (b >>> 1) := by
  have hbit : b &&& 1#8 ≠ 0 ↔ b.getLsbD 0 = true := by
    revert b
    decide +kernel
  by_cases hb : b = 0
  · subst hb
    have hshift : (0 : Byte) >>> 1 = 0 := rfl
    rw [hshift, gfmulLoop_zero, gfmulLoop_zero]
    exact BitVec.xor_zero.symm
  · rw [gfmulLoop, if_neg hb]
    simp only [hbit]
    cases b.getLsbD 0 <;> simp [bitTerm]

theorem gfmulLoop_xor_left (n : ℕ) (v v' a a' b : Byte) :
    gfmulLoop n (v ^^^ v') (a ^^^ a') b = gfmulLoop n v a b ^^^ gfmulLoop n v' a' b := by
  induction n generalizing v v' a a' b with
  | zero => rfl
  | succ n ih =>
    rw [gfmulLoop_succ, gfmulLoop_succ, gfmulLoop_succ, bitTerm_xor_right, xor_swap,
      gfdouble_xor, ih]

theorem gfmulLoop_xor_right (n : ℕ) (v v' a b b' : Byte) :
    gfmulLoop n (v ^^^ v') a (b ^^^ b') = gfmulLoop n v a b ^^^ gfmulLoop n v' a b' := by
  induction n generalizing v v' a b b' with
  | zero => rfl
  | succ n ih =>
    rw [gfmulLoop_succ, gfmulLoop_succ, gfmulLoop_succ, BitVec.getLsbD_xor, bitTerm_xor,
      xor_swap, BitVec.ushiftRight_xor_distrib, ih]

theorem gfmul_xor_left (a a' b : Byte) : gfmul (a ^^^ a') b = gfmul a b ^^^ gfmul a' b :=
  gfmulLoop_xor_left 8 0 0 a a' b

theorem gfmul_xor_right (a b b' : Byte) : gfmul a (b ^^^ b') = gfmul a b ^^^ gfmul a b' :=
  gfmulLoop_xor_right 8 0 0 a b b'

theorem gfmul_zero_right (a : Byte) : gfmul a 0 = 0 := gfmulLoop_zero 8 0 a

/-! ## Testing on a basis -/

def bitSum (f : Byte → Byte) (a : Byte) : Byte :=
  (List.range 8).foldl (fun v k => v ^^^ bitTerm (a.getLsbD k) (f (1#8 <<< k))) 0

private theorem bitSum_id (a : Byte) : bitSum id a = a := by
  revert a
  decide +kernel

theorem additive_eq_bitSum {f : Byte → Byte} (hf : ∀ a b, f (a ^^^ b) = f a ^^^ f b) (a : Byte) :
    f a = bitSum f a := by
  have hz : f 0 = 0 := by
    have h := hf 0 0
    rwa [BitVec.xor_self, BitVec.xor_self] at h
  have hterm : ∀ (s : Bool) (c : Byte), f (bitTerm s c) = bitTerm s (f c) := by
    intro s c
    cases s with
    | false => exact hz
    | true => rfl
  have hfold : ∀ (ks : List ℕ) (v : Byte),
      f (ks.foldl (fun v k => v ^^^ bitTerm (a.getLsbD k) (id (1#8 <<< k))) v) =
        ks.foldl (fun v k => v ^^^ bitTerm (a.getLsbD k) (f (1#8 <<< k))) (f v) := by
    intro ks
    induction ks with
    | nil => exact fun v => rfl
    | cons k ks ih =>
      intro v
      rw [List.foldl_cons, ih, hf, hterm]
      rfl
  calc f a = f (bitSum id a) := by rw [bitSum_id]
    _ = (List.range 8).foldl _ (f 0) := hfold _ 0
    _ = bitSum f a := by rw [hz]; rfl

theorem additive_ext (f g : Byte → Byte) (hf : ∀ a b, f (a ^^^ b) = f a ^^^ f b)
    (hg : ∀ a b, g (a ^^^ b) = g a ^^^ g b) (h : ∀ k < 8, f (1#8 <<< k) = g (1#8 <<< k))
    (a : Byte) : f a = g a := by
  rw [additive_eq_bitSum hf, additive_eq_bitSum hg]
  unfold bitSum
  simp only [List.range_succ, List.range_zero, List.foldl_append,
    List.foldl_cons, List.foldl_nil, h 0 (by decide), h 1 (by decide), h 2 (by decide),
    h 3 (by decide), h 4 (by decide), h 5 (by decide), h 6 (by decide), h 7 (by decide)]

theorem gfmul_comm (a b : Byte) : gfmul a b = gfmul b a := by
  refine additive_ext (fun a => gfmul a b) (gfmul b) ?_ (gfmul_xor_right b) ?_ a
  · intro x y
    exact gfmul_xor_left x y b
  intro j hj
  refine additive_ext (gfmul _) (fun b => gfmul b _) (gfmul_xor_right _) ?_ ?_ b
  · intro x y
    exact gfmul_xor_left x y _
  revert j
  decide +kernel

theorem gfmul_assoc (a b c : Byte) : gfmul (gfmul a b) c = gfmul a (gfmul b c) := by
  refine additive_ext (fun a => gfmul (gfmul a b) c) (fun a => gfmul a (gfmul b c)) ?_ ?_ ?_ a
  · intro x y
    simp [gfmul_xor_left]
  · intro x y
    exact gfmul_xor_left x y _
  intro i hi
  refine additive_ext (fun b => gfmul (gfmul _ b) c) (fun b => gfmul _ (gfmul b c)) ?_ ?_ ?_ b
  · intro x y
    simp [gfmul_xor_left, gfmul_xor_right]
  · intro x y
    simp [gfmul_xor_left, gfmul_xor_right]
  intro j hj
  refine additive_ext (gfmul _) (fun c => gfmul _ (gfmul _ c)) (gfmul_xor_right _) ?_ ?_ c
  · intro x y
    simp [gfmul_xor_right]
  revert i j
  decide +kernel

theorem one_gfmul (a : Byte) : gfmul 1 a = a := by
  revert a
  decide +kernel

/-! ## The ring -/

/-- The bytes with XOR as addition and `gfmul` as multiplication. -/
def Gf : Type := Byte

namespace Gf

instance : DecidableEq Gf := inferInstanceAs (DecidableEq Byte)

instance : Zero Gf := ⟨(0 : Byte)⟩
instance : One Gf := ⟨(1 : Byte)⟩
instance : Add Gf := ⟨fun a b => BitVec.xor a b⟩
instance : Neg Gf := ⟨fun a => a⟩
instance : Mul Gf := ⟨gfmul⟩

instance : CommRing Gf where
  nsmul := nsmulRec
  zsmul := zsmulRec
  add_assoc a b c := BitVec.xor_assoc a b c
  zero_add a := BitVec.zero_xor
  add_zero a := BitVec.xor_zero
  add_comm a b := BitVec.xor_comm a b
  neg_add_cancel a := BitVec.xor_self
  mul_assoc a b c := gfmul_assoc a b c
  mul_comm a b := gfmul_comm a b
  one_mul a := one_gfmul a
  mul_one a := (gfmul_comm a 1).trans (one_gfmul a)
  zero_mul a := (gfmul_comm 0 a).trans (gfmul_zero_right a)
  mul_zero a := gfmul_zero_right a
  left_distrib a b c := gfmul_xor_right a b c
  right_distrib a b c := gfmul_xor_left a b c

instance : Nontrivial Gf := ⟨0, 1, by decide⟩

instance : CharP Gf 2 :=
  CharTwo.of_one_ne_zero_of_two_eq_zero one_ne_zero (one_add_one_eq_two.symm.trans BitVec.xor_self)

def equivFin : Gf ≃ Fin (2 ^ 8) := (BitVec.equivFin (m := 8)).toEquiv

instance : Fintype Gf := Fintype.ofEquiv _ equivFin.symm

theorem card_eq : Fintype.card Gf = 256 := (Fintype.card_congr equivFin).trans (Fintype.card_fin _)

def of (a : Byte) : Gf := a

theorem of_xor (a b : Byte) : of (a ^^^ b) = of a + of b := rfl

theorem of_gfmul (a b : Byte) : of (gfmul a b) = of a * of b := rfl

theorem of_injective : Function.Injective of := fun _ _ h => h

@[simp] theorem of_zero : of 0 = 0 := rfl

@[simp] theorem of_one : of 1 = 1 := rfl

/-! ## Powers of the generator -/

variable {b n : ℕ}

theorem gfpowLoop_eq (n : ℕ) (v a : Byte) (hb : b < 2 ^ n) :
    of (gfpowLoop n v a b) = of v * of a ^ b := by
  induction n generalizing v a b with
  | zero =>
    have : b = 0 := by omega
    subst this
    rw [pow_zero, mul_one]
    rfl
  | succ n ih =>
    rw [gfpowLoop]
    by_cases hz : b = 0
    · rw [if_pos hz, hz, pow_zero, mul_one]
    · have hdiv : b / 2 < 2 ^ n := by
        omega
      rw [if_neg hz, ih _ _ hdiv, of_gfmul, ← pow_two, ← pow_mul]
      by_cases hodd : b % 2 = 1
      · have hb2 : b = 2 * (b / 2) + 1 := by omega
        rw [if_pos hodd, of_gfmul, mul_assoc, ← pow_succ', ← hb2]
      · have hb2 : b = 2 * (b / 2) := by omega
        rw [if_neg hodd, ← hb2]

theorem gfpow_eq (a : Byte) (hb : b < 255) : of (gfpow a b) = of a ^ b := by
  rw [gfpow, Nat.mod_eq_of_lt hb, gfpowLoop_eq 8 1 a (by omega), of_one, one_mul]

def gen : Gf := of 2

theorem orderOf_gen : orderOf gen = 255 := by
  have hone : gen ^ 255 = 1 := by decide +kernel
  apply orderOf_eq_of_pow_and_pow_div_prime (by decide) hone
  intro p hp hdvd
  have hfac : p ∈ Nat.primeFactors 255 := Nat.mem_primeFactors.mpr ⟨hp, hdvd, by decide⟩
  have hset : Nat.primeFactors 255 = {3, 5, 17} := by decide +kernel
  rw [hset] at hfac
  simp only [Finset.mem_insert, Finset.mem_singleton] at hfac
  rcases hfac with rfl | rfl | rfl <;> decide +kernel

theorem gen_pow_card : gen ^ 255 = 1 := orderOf_gen ▸ pow_orderOf_eq_one gen

theorem gen_pow_ne_zero (n : ℕ) : gen ^ n ≠ 0 := by
  intro h
  have hone : gen ^ (255 * n) = 1 := by rw [pow_mul, gen_pow_card, one_pow]
  rw [show 255 * n = n + 254 * n by omega, pow_add, h, zero_mul] at hone
  exact zero_ne_one hone

theorem exists_gen_pow {a : Gf} (ha : a ≠ 0) : ∃ n < 255, gen ^ n = a := by
  have hinj : Set.InjOn (fun n => gen ^ n) (Finset.range 255) := by
    intro i hi j hj h
    rw [Finset.coe_range, ← orderOf_gen] at hi hj
    exact pow_injOn_Iio_orderOf hi hj h
  have hsub : (Finset.range 255).image (fun n => gen ^ n) ⊆ Finset.univ.erase 0 := by
    intro x hx
    obtain ⟨n, -, rfl⟩ := Finset.mem_image.mp hx
    exact Finset.mem_erase.mpr ⟨gen_pow_ne_zero n, Finset.mem_univ _⟩
  have hcard : (Finset.univ.erase (0 : Gf)).card ≤
      ((Finset.range 255).image fun n => gen ^ n).card := by
    rw [Finset.card_image_of_injOn hinj, Finset.card_range,
      Finset.card_erase_of_mem (Finset.mem_univ _), Finset.card_univ, card_eq]
  have hmem : a ∈ Finset.univ.erase (0 : Gf) := Finset.mem_erase.mpr ⟨ha, Finset.mem_univ _⟩
  rw [← Finset.eq_of_subset_of_card_le hsub hcard] at hmem
  obtain ⟨n, hn, rfl⟩ := Finset.mem_image.mp hmem
  exact ⟨n, Finset.mem_range.mp hn, rfl⟩

/-! ## The field -/

instance : Inv Gf := ⟨fun a => of (raid6Gfinv a)⟩

theorem inv_def (a : Gf) : a⁻¹ = a ^ 254 := gfpow_eq a (by decide)

instance : Div Gf := ⟨fun a b => a * b⁻¹⟩

private theorem zpowRec_negSucc (n : ℕ) (a : Gf) :
    zpowRec npowRec (Int.negSucc n) a = (zpowRec npowRec (n.succ : ℤ) a)⁻¹ := by
  simp [zpowRec]

instance : Field Gf where
  div_eq_mul_inv a b := rfl
  zpow := zpowRec npowRec
  zpow_zero' a := rfl
  zpow_succ' n a := rfl
  zpow_neg' n a := zpowRec_negSucc n a
  mul_inv_cancel a ha := by
    obtain ⟨n, -, rfl⟩ := exists_gen_pow ha
    rw [inv_def, ← pow_succ', ← pow_mul, mul_comm, pow_mul]
    exact (congrArg (· ^ n) gen_pow_card).trans (one_pow n)
  inv_zero := (inv_def 0).trans (zero_pow (by decide))
  nnqsmul := _
  qsmul := _
  nnqsmul_def _ _ := rfl
  qsmul_def _ _ := rfl

/-! ## The tables -/

theorem of_raid6Gfinv (a : Byte) : of (raid6Gfinv a) = (of a)⁻¹ := rfl

theorem gfmul_two (a : Byte) : gfmul a 2 = gfdouble a := by
  rw [gfmul, gfmulLoop_succ, gfmulLoop_succ]
  exact (gfmulLoop_zero 6 _ _).trans (by simp [bitTerm])

theorem of_gfdouble (a : Byte) : of (gfdouble a) = gen * of a := by
  rw [← gfmul_two, mul_comm]
  rfl

theorem gen_pow_ne_one (hpos : 0 < n) (hn : n < 255) : gen ^ n ≠ 1 := by
  rw [← orderOf_gen] at hn
  exact pow_ne_one_of_lt_orderOf hpos.ne' hn

theorem of_raid6Gfexp (hn : n < 255) : of (raid6Gfexp n) = gen ^ n := by
  induction n with
  | zero => rfl
  | succ n ih =>
    have hv : of (gfmul (raid6Gfexp n) 2) = gen ^ (n + 1) := by
      rw [of_gfmul, ih (by omega), pow_succ]
      rfl
    have hne : gfmul (raid6Gfexp n) 2 ≠ 1 := by
      intro h
      rw [h] at hv
      exact gen_pow_ne_one (Nat.succ_pos n) hn hv.symm
    rw [raid6Gfexp, if_neg hne, hv]

theorem of_raid6Gfexi (hn : n < 255) : of (raid6Gfexi n) = (gen ^ n + 1)⁻¹ := by
  rw [raid6Gfexi, of_raid6Gfinv, of_xor, of_raid6Gfexp hn, of_one]

theorem gen_pow_ne_gen_pow {i j : ℕ} (hij : i < j) (hj : j < 255) : gen ^ i ≠ gen ^ j := by
  intro h
  have hi : i < orderOf gen := by
    rw [orderOf_gen]
    omega
  rw [← orderOf_gen] at hj
  exact hij.ne (pow_injOn_Iio_orderOf hi hj h)

end Gf

/-! ## Word operations byte by byte -/

private theorem extract_append_low {n : ℕ} (hi : BitVec n) (lo : Byte) :
    (hi ++ lo).extractLsb' 0 8 = lo := by
  apply BitVec.eq_of_getLsbD_eq
  intro i hi
  simp [BitVec.getLsbD_append, hi]

private theorem extract_append_high {n : ℕ} (hi : BitVec n) (lo : Byte) (m : ℕ) :
    (hi ++ lo).extractLsb' (m + 8) 8 = hi.extractLsb' m 8 := by
  apply BitVec.eq_of_getLsbD_eq
  intro i hi
  have hnot : ¬ m + 8 + i < 8 := by omega
  have hsub : m + 8 + i - 8 = m + i := by omega
  simp [BitVec.getLsbD_append, hnot, hsub]

private theorem extract_byte (b : Byte) : b.extractLsb' 0 8 = b := by
  apply BitVec.eq_of_getLsbD_eq
  intro i hi
  simp [hi]

variable {k : ℕ}

theorem nativeByte_getUnalignedNative (buf : ℕ → Byte) (d : ℕ) (hk : k < 8) :
    nativeByte (getUnalignedNative buf d) k = buf (d + k) := by
  unfold nativeByte getUnalignedNative
  interval_cases k <;> simp only [Nat.reduceMul, extract_append_high _ _ 48,
    extract_append_high _ _ 40, extract_append_high _ _ 32, extract_append_high _ _ 24,
    extract_append_high _ _ 16, extract_append_high _ _ 8, extract_append_high _ _ 0,
    extract_append_low, extract_byte, Nat.add_zero]

theorem nativeByte_xor (v w : Native) (k : ℕ) :
    nativeByte (v ^^^ w) k = nativeByte v k ^^^ nativeByte w k :=
  BitVec.extractLsb'_xor

theorem nativeByte_and (v w : Native) (k : ℕ) :
    nativeByte (v &&& w) k = nativeByte v k &&& nativeByte w k :=
  BitVec.extractLsb'_and

theorem nativeByte_shlbyte (v : Native) (hk : k < 8) :
    nativeByte (shlbyte v) k = nativeByte v k <<< 1 := by
  have hmask : nativeByte (nbytes 0xfe) k = 0xfe#8 := by
    revert k
    decide
  have hbit : ∀ i < 8, (0xfe#8).getLsbD i = decide (i ≠ 0) := by decide
  rw [shlbyte, nativeByte_and, hmask]
  apply BitVec.eq_of_getLsbD_eq
  intro i hi
  rw [BitVec.getLsbD_and, hbit i hi]
  unfold nativeByte
  cases i with
  | zero => simp
  | succ i =>
    have hlt : 8 * k + (i + 1) < 64 := by omega
    have hsub : 8 * k + (i + 1) - 1 = 8 * k + i := by omega
    rw [BitVec.getLsbD_extractLsb', BitVec.getLsbD_shiftLeft, BitVec.getLsbD_shiftLeft, hsub, Nat.add_sub_cancel]
    simp [hlt, Nat.lt_of_succ_lt hi]

/-- The word with the top bits of its bytes taken from `c`. -/
private def topBits (c : Byte) : Native :=
  (List.range 8).foldl (fun w k => w ||| (if c.getLsbD k then 0x80#64 <<< (8 * k) else 0)) 0

private theorem nativeByte_topBits (c : Byte) : ∀ k < 8,
    nativeByte (topBits c) k = if c.getLsbD k then 0x80#8 else 0#8 := by
  revert c
  decide +kernel

private theorem nativeByte_mask_topBits (c : Byte) : ∀ k < 8,
    nativeByte ((topBits c <<< 1) - (topBits c >>> 7)) k =
      if c.getLsbD k then 0xff#8 else 0#8 := by
  revert c
  decide +kernel

theorem native_ext {v w : Native} (h : ∀ k < 8, nativeByte v k = nativeByte w k) : v = w := by
  apply BitVec.eq_of_getLsbD_eq
  intro i hi
  have hb := congrArg (fun b => b.getLsbD (i % 8)) (h (i / 8) (by omega))
  have hpos : 8 * (i / 8) + i % 8 = i := Nat.div_add_mod i 8
  have hlt : i % 8 < 8 := Nat.mod_lt i (by decide)
  simpa only [nativeByte, BitVec.getLsbD_extractLsb', hpos, hlt, decide_true, Bool.true_and]
    using hb

private theorem and_eq_topBits (v : Native) : ∃ c : Byte, v &&& nbytes 0x80 = topBits c ∧
      ∀ k < 8, c.getLsbD k = (nativeByte v k).getLsbD 7 := by
  let c : Byte := BitVec.ofBoolListLE
    [(nativeByte v 0).getLsbD 7, (nativeByte v 1).getLsbD 7, (nativeByte v 2).getLsbD 7,
      (nativeByte v 3).getLsbD 7, (nativeByte v 4).getLsbD 7, (nativeByte v 5).getLsbD 7,
      (nativeByte v 6).getLsbD 7, (nativeByte v 7).getLsbD 7]
  have hc : ∀ k < 8, c.getLsbD k = (nativeByte v k).getLsbD 7 := by
    intro k hk
    refine BitVec.getLsbD_ofBoolListLE.trans ?_
    interval_cases k <;> rfl
  refine ⟨c, native_ext ?_, hc⟩
  intro k hk
  have hmask : nativeByte (nbytes 0x80) k = 0x80#8 := by
    revert k
    decide
  have htop : ∀ b : Byte, b &&& 0x80#8 = if b.getLsbD 7 then 0x80#8 else 0#8 := by decide +kernel
  rw [nativeByte_and, hmask, htop, nativeByte_topBits c k hk, hc k hk]

theorem nativeByte_mask (v : Native) (hk : k < 8) :
    nativeByte (mask v) k = if (nativeByte v k).getLsbD 7 then 0xff#8 else 0#8 := by
  obtain ⟨c, heq, hc⟩ := and_eq_topBits v
  rw [mask, heq, nativeByte_mask_topBits c k hk, hc k hk]

theorem nativeByte_double (v : Native) (hk : k < 8) :
    nativeByte (shlbyte v ^^^ (mask v &&& nbytes 0x1d)) k = gfdouble (nativeByte v k) := by
  have hconst : nativeByte (nbytes 0x1d) k = 0x1d#8 := by
    revert k
    decide
  rw [nativeByte_xor, nativeByte_shlbyte v hk, nativeByte_and, nativeByte_mask v hk, hconst,
    gfdouble_eq]
  cases (nativeByte v k).getLsbD 7 <;> rfl

/-! ## What `raid6_gen_syndrome` computes -/

open PqCode Gf

/-- The bytes of the data stripes at one offset, as field elements. -/
def dataAt (mem : Memory) (data : PtrTable) (x : ℕ) (i : ℕ) : Gf := of (mem (data i) x)

/-- No two of the pointers `data[0]`, ..., `data[n - 1]` are equal. -/
def Distinct (n : ℕ) (data : PtrTable) : Prop := ∀ i j : ℕ, i < n → j < n → data i = data j → i = j

/-! ## One word -/

theorem syndromeWords_fst (mem : Memory) (data : PtrTable) (d z : ℕ) (w : Native × Native)
    {k : ℕ} (hk : k < 8) :
    of (nativeByte (syndromeWords mem data d z w).1 k) =
      of (nativeByte w.1 k) + pSum z (dataAt mem data (d + k)) := by
  induction z generalizing w with
  | zero => simp [syndromeWords, pSum]
  | succ z ih =>
    rw [syndromeWords, ih, syndromeStep, nativeByte_xor, of_xor,
      nativeByte_getUnalignedNative _ _ hk, pSum, pSum, Finset.sum_range_succ, add_assoc,
      add_comm (of (mem (data z) (d + k)))]
    rfl

theorem syndromeWords_snd (mem : Memory) (data : PtrTable) (d z : ℕ) (w : Native × Native)
    {k : ℕ} (hk : k < 8) :
    of (nativeByte (syndromeWords mem data d z w).2 k) =
      horner gen (dataAt mem data (d + k)) z (of (nativeByte w.2 k)) := by
  induction z generalizing w with
  | zero => rfl
  | succ z ih =>
    rw [syndromeWords, ih, syndromeStep, nativeByte_xor, nativeByte_double _ hk, of_xor,
      of_gfdouble, nativeByte_getUnalignedNative _ _ hk]
    rfl

theorem syndromeWords_spec (mem : Memory) (data : PtrTable) (d z0 : ℕ) {k : ℕ} (hk : k < 8) :
    let first := getUnalignedNative (mem (data z0)) d
    let w := syndromeWords mem data d z0 (first, first)
    of (nativeByte w.1 k) = pSum (z0 + 1) (dataAt mem data (d + k)) ∧
    of (nativeByte w.2 k) = qSum gen (z0 + 1) (dataAt mem data (d + k)) := by
  intro first w
  have hfirst : of (nativeByte first k) = dataAt mem data (d + k) z0 := by
    rw [nativeByte_getUnalignedNative _ _ hk]
    rfl
  constructor
  · rw [syndromeWords_fst _ _ _ _ _ hk, hfirst, pSum, pSum, Finset.sum_range_succ, add_comm]
  · rw [syndromeWords_snd _ _ _ _ _ hk, hfirst, horner_eq, qSum, qSum, Finset.sum_range_succ,
      add_comm]

/-! ## The whole stripe -/

/-- The memory after the syndromes of the first `done` bytes have been written. -/
structure SyndromeUpTo (z0 : ℕ) (data : PtrTable) (mem : Memory) (done : ℕ) (mem' : Memory) :
    Prop where
  frame : ∀ ptr, ptr ≠ data (z0 + 1) → ptr ≠ data (z0 + 2) → mem' ptr = mem ptr
  parity : ∀ x, of (mem' (data (z0 + 1)) x) =
    if x < done then pSum (z0 + 1) (dataAt mem data x) else of (mem (data (z0 + 1)) x)
  syndrome : ∀ x, of (mem' (data (z0 + 2)) x) =
    if x < done then qSum gen (z0 + 1) (dataAt mem data x) else of (mem (data (z0 + 2)) x)

theorem of_putUnalignedNative (w : Native) (buf : ℕ → Byte) (d : ℕ) (f : ℕ → Gf)
    (h : ∀ k < 8, of (nativeByte w k) = f (d + k)) (x : ℕ) :
    of (putUnalignedNative w buf d x) = if d ≤ x ∧ x < d + 8 then f x else of (buf x) := by
  unfold putUnalignedNative nsize
  split
  · rename_i hx
    rw [h (x - d) (by omega), Nat.add_sub_cancel' hx.1]
  · rfl

section

variable {z0 : ℕ} {data : PtrTable} (hdist : Distinct (z0 + 3) data)

include hdist

theorem Distinct.ne_parity {i : ℕ} (hi : i < z0 + 1) :
    data i ≠ data (z0 + 1) ∧ data i ≠ data (z0 + 2) := by
  constructor
  · intro h
    have := hdist i (z0 + 1) (by omega) (by omega) (by exact_mod_cast h)
    omega
  · intro h
    have := hdist i (z0 + 2) (by omega) (by omega) (by exact_mod_cast h)
    omega

theorem Distinct.parity_ne_syndrome : data (z0 + 1) ≠ data (z0 + 2) := by
  intro h
  have := hdist (z0 + 1) (z0 + 2) (by omega) (by omega) (by exact_mod_cast h)
  omega

theorem SyndromeUpTo.step {mem mid : Memory} {d : ℕ} (h : SyndromeUpTo z0 data mem d mid) :
    SyndromeUpTo z0 data mem (d + 8) (syndromeRound z0 data mid d) := by
  have hpq := hdist.parity_ne_syndrome
  have hd : ∀ x, ∀ i < z0 + 1, dataAt mid data x i = dataAt mem data x i := by
    intro x i hi
    have hne := hdist.ne_parity hi
    rw [dataAt, dataAt, h.frame _ hne.1 hne.2]
  have hwords := fun k (hk : k < 8) => syndromeWords_spec mid data d z0 hk
  constructor
  · intro ptr hp hq
    rw [syndromeRound, Function.update_of_ne hq, Function.update_of_ne hp, h.frame ptr hp hq]
  · intro x
    rw [syndromeRound, Function.update_of_ne hpq, Function.update_self,
      of_putUnalignedNative _ _ d (fun x => pSum (z0 + 1) (dataAt mid data x))
        (fun k hk => (hwords k hk).1), h.parity x, pSum_congr (hd x)]
    split_ifs <;> first | rfl | omega
  · intro x
    rw [syndromeRound, Function.update_self, Function.update_of_ne hpq.symm,
      of_putUnalignedNative _ _ d (fun x => qSum gen (z0 + 1) (dataAt mid data x))
        (fun k hk => (hwords k hk).2), h.syndrome x, qSum_congr gen (hd x)]
    split_ifs <;> first | rfl | omega

theorem raid6GenSyndrome_spec (mem : Memory) {bytes : ℕ} (hbytes : 8 ∣ bytes) :
    SyndromeUpTo z0 data mem bytes (raid6GenSyndrome (z0 + 3) bytes data mem) := by
  obtain ⟨m, rfl⟩ := hbytes
  have hz0 : ((z0 : ℤ) + 3 - 3).toNat = z0 := by omega
  have hrounds : (8 * m + nsize - 1) / nsize = m := by
    unfold nsize
    omega
  rw [raid6GenSyndrome, hz0, hrounds]
  clear hrounds
  induction m with
  | zero => exact ⟨fun _ _ _ => rfl, fun x => by simp, fun x => by simp⟩
  | succ m ih =>
    rw [List.range_succ, List.foldl_append, List.foldl_cons]
    have hd : m * nsize = 8 * m := Nat.mul_comm m 8
    rw [hd]
    exact ih.step hdist

end

/-! # What `xor_range` and `raid5_gen_result` compute -/

/-! ## `xor_range` -/

/-- The first `done` bytes of `src` have been added to `dst`. -/
def XorUpTo (dst src : ℕ → Byte) (done : ℕ) (dst' : ℕ → Byte) : Prop :=
  ∀ x, dst' x = if x < done then dst x ^^^ src x else dst x

section

variable {dst src mid : ℕ → Byte} {done : ℕ}

theorem XorUpTo.byte (h : XorUpTo dst src done mid) :
    XorUpTo dst src (done + 1) (xorByte src mid done) := by
  intro x
  unfold xorByte
  by_cases hx : x = done
  · subst hx
    rw [Function.update_self, h, if_neg (lt_irrefl x), if_pos (Nat.lt_succ_self x)]
  · rw [Function.update_of_ne hx, h]
    split_ifs <;> first | rfl | omega

theorem XorUpTo.word (h : XorUpTo dst src done mid) :
    XorUpTo dst src (done + nsize) (xorWord src mid done) := by
  intro x
  unfold xorWord putUnalignedNative nsize
  split
  · rename_i hx
    have hk : x - done < 8 := by omega
    rw [nativeByte_xor, nativeByte_getUnalignedNative _ _ hk, nativeByte_getUnalignedNative _ _ hk,
      Nat.add_sub_cancel' hx.1, h x, if_neg (by omega), if_pos hx.2]
  · rw [h x]
    split_ifs <;> first | rfl | omega

theorem XorUpTo.head (addr size : ℕ) (h : XorUpTo dst src done mid) :
    done ≤ (xorHead addr src size done mid).1 ∧
    (xorHead addr src size done mid).1 ≤ done + size ∧
    XorUpTo dst src (xorHead addr src size done mid).1 (xorHead addr src size done mid).2 := by
  induction size generalizing done mid with
  | zero => exact ⟨le_rfl, le_rfl, h⟩
  | succ size ih =>
    rw [xorHead]
    split
    · obtain ⟨hlo, hhi, hr⟩ := ih h.byte
      exact ⟨by omega, by omega, hr⟩
    · exact ⟨le_rfl, by omega, h⟩

theorem XorUpTo.words (n : ℕ) (h : XorUpTo dst src done mid) : XorUpTo dst src (done + n * nsize)
      ((List.range n).foldl (fun mid k => xorWord src mid (done + k * nsize)) mid) := by
  induction n with
  | zero => simpa using h
  | succ n ih =>
    rw [List.range_succ, List.foldl_append, Nat.succ_mul]
    exact ih.word

theorem XorUpTo.bytes (n : ℕ) (h : XorUpTo dst src done mid) : XorUpTo dst src (done + n)
      ((List.range n).foldl (fun mid k => xorByte src mid (done + k)) mid) := by
  induction n with
  | zero => simpa using h
  | succ n ih =>
    rw [List.range_succ, List.foldl_append]
    exact ih.byte

end

theorem xorRange_spec (addr : ℕ) (dst src : ℕ → Byte) (size : ℕ) :
    XorUpTo dst src size (xorRange addr dst src size) := by
  have hst : XorUpTo dst src 0 dst := fun x => by simp
  obtain ⟨-, hhi, hh⟩ := hst.head addr size
  have hend := (hh.words ((size - (xorHead addr src size 0 dst).1) / nsize)).bytes
    (size - ((xorHead addr src size 0 dst).1 +
      (size - (xorHead addr src size 0 dst).1) / nsize * nsize))
  have htotal : (xorHead addr src size 0 dst).1 +
      (size - (xorHead addr src size 0 dst).1) / nsize * nsize ≤ size := by
    have := Nat.div_mul_le_self (size - (xorHead addr src size 0 dst).1) nsize
    omega
  rw [Nat.add_sub_cancel' htotal] at hend
  exact hend

/-! ## `raid5_gen_result` -/

/-- The other stripes have been combined into the first `len` bytes of stripe `i`. -/
structure Combined (n i len : ℕ) (data : PtrTable) (mem mem' : Memory) : Prop where
  frame : ∀ ptr, ptr ≠ data i → mem' ptr = mem ptr
  result : ∀ x, of (mem' (data i) x) =
    if x < len then pSum n (Function.update (dataAt mem data x) i 0) else of (mem (data i) x)

private theorem pSum_update_succ (n i : ℕ) (f : ℕ → Gf) : pSum (n + 1) (Function.update f i 0) =
      pSum n (Function.update f i 0) + if n = i then 0 else f n := by
  rw [pSum, pSum, Finset.sum_range_succ, Function.update_apply]

theorem raid5GenResult_xor (addr : Ptr → ℕ) {n i len : ℕ} {data : PtrTable}
    (hd : ∀ j < n, j ≠ i → data j ≠ data i) (mem : Memory) :
    Combined n i len data mem ((List.range n).foldl (fun (mem : Memory) (j : ℕ) =>
        if (j : ℤ) = (i : ℤ) then mem
        else Function.update mem (data i)
          (xorRange (addr (data i)) (mem (data i)) (mem (data j)) len))
      (Function.update mem (data i) (memcpy (mem (data i)) (fun _ => 0) len))) := by
  induction n with
  | zero =>
    constructor
    · intro ptr hptr
      exact Function.update_of_ne hptr _ _
    · intro x
      simp only [List.range_zero, List.foldl_nil, Function.update_self, memcpy]
      split
      · exact (Finset.sum_range_zero _).symm
      · rfl
  | succ n ih =>
    have hp := ih fun j hj hne => hd j (by omega) hne
    rw [List.range_succ, List.foldl_append, List.foldl_cons, List.foldl_nil]
    by_cases hn : n = i
    · rw [if_pos (by exact_mod_cast hn)]
      refine ⟨hp.frame, ?_⟩
      intro x
      rw [hp.result x, pSum_update_succ, if_pos hn, add_zero]
    · rw [if_neg (by exact_mod_cast hn)]
      constructor
      · intro ptr hptr
        rw [Function.update_of_ne hptr, hp.frame ptr hptr]
      · intro x
        rw [Function.update_self, xorRange_spec, hp.frame _ (hd n (by omega) hn)]
        by_cases hx : x < len
        · rw [if_pos hx, if_pos hx, of_xor, hp.result x, if_pos hx, pSum_update_succ, if_neg hn]
          rfl
        · rw [if_neg hx, if_neg hx, hp.result x, if_neg hx]

theorem raid5GenResult_spec (addr : Ptr → ℕ) {n i : ℕ} {data : PtrTable} (hn : 2 ≤ n) (hi : i < n)
    (hd : Distinct n data) (mem : Memory) :
    ∃ mem', raid5GenResult addr n BTRFS_STRIPE_LEN i data mem = (0, mem') ∧
      Combined n i BTRFS_STRIPE_LEN data mem mem' := by
  have hlen : ¬ (BTRFS_STRIPE_LEN ≤ 0 ∨ BTRFS_STRIPE_LEN ≠ BTRFS_STRIPE_LEN) := by decide
  have hdest : ¬ ((n : ℤ) ≤ (i : ℤ) ∨ (n : ℤ) < 2) := by omega
  unfold raid5GenResult
  simp only [if_neg hlen, if_neg hdest]
  by_cases htwo : n = 2
  · rw [if_pos (by exact_mod_cast htwo)]
    refine ⟨_, rfl, fun ptr hptr => Function.update_of_ne hptr _ _, ?_⟩
    intro x
    subst htwo
    rw [Function.update_self, memcpy]
    split
    · rw [pSum, Finset.sum_range_succ]
      interval_cases i <;> simp [dataAt]
    · rfl
  · rw [if_neg (by exact_mod_cast htwo)]
    refine ⟨_, rfl, raid5GenResult_xor addr ?_ mem⟩
    intro j hj hne heq
    exact hne (hd j i hj hi heq)

end Btrfs.Raid56
