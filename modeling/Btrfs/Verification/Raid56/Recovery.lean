import Btrfs.Verification.Raid56.Parity

/-! # Recovery of one and two stripes

Every solver is described by the bytes it writes, for arbitrary contents of the stripes it
reads. -/

namespace Btrfs.Raid56

open PqCode Gf

variable {i j len : ℕ}

/-! ## The byte loops -/

/-- The first `done` bytes of two stripes have been replaced. -/
structure ReplacedUpTo (a b : Ptr) (va vb : ℕ → Byte) (mem : Memory) (done : ℕ) (mem' : Memory) :
    Prop where
  frame : ∀ ptr, ptr ≠ a → ptr ≠ b → mem' ptr = mem ptr
  first : ∀ x, mem' a x = if x < done then va x else mem a x
  second : ∀ x, mem' b x = if x < done then vb x else mem b x

theorem ReplacedUpTo.step {a b : Ptr} {va vb : ℕ → Byte} {mem mid : Memory} {x : ℕ} (hab : a ≠ b)
    (h : ReplacedUpTo a b va vb mem x mid) :
    ReplacedUpTo a b va vb mem (x + 1)
      (Function.update (Function.update mid a (Function.update (mid a) x (va x)))
        b (Function.update (mid b) x (vb x))) := by
  constructor
  · intro ptr ha hb
    rw [Function.update_of_ne hb, Function.update_of_ne ha, h.frame ptr ha hb]
  · intro y
    rw [Function.update_of_ne hab, Function.update_self]
    by_cases hy : y = x
    · subst hy
      rw [Function.update_self, if_pos (Nat.lt_succ_self y)]
    · rw [Function.update_of_ne hy, h.first y]
      split_ifs <;> first | rfl | omega
  · intro y
    rw [Function.update_self]
    by_cases hy : y = x
    · subst hy
      rw [Function.update_self, if_pos (Nat.lt_succ_self y)]
    · rw [Function.update_of_ne hy, h.second y]
      split_ifs <;> first | rfl | omega

/-- A loop over the bytes of two stripes whose rounds write what the initial memory gives. -/
theorem replaced_of_rounds {a b : Ptr} {va vb : ℕ → Byte} {mem : Memory} (hab : a ≠ b)
    (round : Memory → ℕ → Memory)
    (hround : ∀ x mid, ReplacedUpTo a b va vb mem x mid →
      round mid x = Function.update (Function.update mid a (Function.update (mid a) x (va x)))
        b (Function.update (mid b) x (vb x)))
    (len : ℕ) : ReplacedUpTo a b va vb mem len ((List.range len).foldl round mem) := by
  induction len with
  | zero => exact ⟨fun _ _ _ => rfl, fun x => by simp, fun x => by simp⟩
  | succ len ih =>
    rw [List.range_succ, List.foldl_append, List.foldl_cons, hround len _ ih]
    exact ih.step hab

theorem recovData2_rounds (pbmul qmul : Byte → Byte) {p q dp dq : Ptr} (mem : Memory) (len : ℕ)
    (hp : p ≠ dp ∧ p ≠ dq) (hq : q ≠ dp ∧ q ≠ dq) (hd : dq ≠ dp) :
    let db := fun x => pbmul (mem p x ^^^ mem dp x) ^^^ qmul (mem q x ^^^ mem dq x)
    ReplacedUpTo dq dp db (fun x => db x ^^^ (mem p x ^^^ mem dp x)) mem len
      ((List.range len).foldl (recovData2Byte pbmul qmul p q dp dq) mem) := by
  intro db
  apply replaced_of_rounds hd
  intro x mid h
  have h1 : mid p x = mem p x := congrFun (h.frame p hp.2 hp.1) x
  have h2 : mid q x = mem q x := congrFun (h.frame q hq.2 hq.1) x
  have h3 : mid dq x = mem dq x := by rw [h.first, if_neg (lt_irrefl x)]
  have h4 : mid dp x = mem dp x := by rw [h.second, if_neg (lt_irrefl x)]
  simp only [recovData2Byte, h1, h2, h3, h4, Function.update_of_ne hd.symm]
  rfl

theorem recovDatap_rounds (qmul : Byte → Byte) {p q dq : Ptr} (mem : Memory) (len : ℕ)
    (hp : p ≠ q) (hq : q ≠ dq) (hd : dq ≠ p) :
    let v := fun x => qmul (mem q x ^^^ mem dq x)
    ReplacedUpTo dq p v (fun x => mem p x ^^^ v x) mem len
      ((List.range len).foldl (recovDatapByte qmul p q dq) mem) := by
  intro v
  apply replaced_of_rounds hd
  intro x mid h
  have h1 : mid p x = mem p x := by rw [h.second, if_neg (lt_irrefl x)]
  have h2 : mid q x = mem q x := congrFun (h.frame q hq hp.symm) x
  have h3 : mid dq x = mem dq x := by rw [h.first, if_neg (lt_irrefl x)]
  simp only [recovDatapByte, h1, h2, h3, Function.update_of_ne hd.symm]
  rfl

/-! ## The pointer tables during recovery -/

/-- The caller's buffers: pairwise different, and none of them returned by `calloc`. -/
structure Buffers (n : ℕ) (data : PtrTable) : Prop where
  distinct : Distinct n data
  fresh : ∀ i : ℕ, i < n → data i ≠ .zeroMem1 ∧ data i ≠ .zeroMem2

/-- The table of `raid6_recov_data2` while the syndromes are computed. -/
def data2Table (z0 i j : ℕ) (data : PtrTable) : PtrTable :=
  Function.update (Function.update (Function.update (Function.update data i .zeroMem1)
    (z0 + 1) (data i)) j .zeroMem2) (z0 + 2) (data j)

/-- The table of `raid6_recov_datap` while the syndromes are computed. -/
def datapTable (z0 i : ℕ) (data : PtrTable) : PtrTable :=
  Function.update (Function.update data i .zeroMem1) (z0 + 2) (data i)

theorem data2Table_apply (z0 i j k : ℕ) (data : PtrTable) : data2Table z0 i j data k =
      if k = z0 + 2 then data j else if k = j then .zeroMem2
      else if k = z0 + 1 then data i else if k = i then .zeroMem1 else data k := by
  have h1 : ((k : ℤ) = z0 + 1) ↔ k = z0 + 1 := by omega
  have h2 : ((k : ℤ) = z0 + 2) ↔ k = z0 + 2 := by omega
  simp [data2Table, Function.update_apply, h1, h2]

theorem datapTable_apply (z0 i k : ℕ) (data : PtrTable) : datapTable z0 i data k =
      if k = z0 + 2 then data i else if k = i then .zeroMem1 else data k := by
  have h2 : ((k : ℤ) = z0 + 2) ↔ k = z0 + 2 := by omega
  simp [datapTable, Function.update_apply, h2]

def withZeroMem (mem : Memory) : Memory :=
  Function.update (Function.update mem .zeroMem1 fun _ => 0) .zeroMem2 fun _ => 0

theorem solveData2 (hij : i < j) (hj : j < 255) {px qx : Byte} {a b : Gf} (hp : of px = a + b)
    (hq : of qx = gen ^ i * a + gen ^ j * b) :
    of (raid6Gfmul (raid6Gfexi (j - i)) px ^^^
      raid6Gfmul (raid6Gfinv (raid6Gfexp i ^^^ raid6Gfexp j)) qx) = b := by
  rw [raid6Gfmul, raid6Gfmul, of_xor, of_gfmul, of_gfmul, of_raid6Gfexi (by omega),
    of_raid6Gfinv, of_xor, of_raid6Gfexp (by omega), of_raid6Gfexp hj, hp, hq]
  exact recover_second hij.le (gen_pow_ne_gen_pow hij hj) a b

theorem raid6RecovData2_eq {z0 : ℕ} (hij : i < j) (hj : j < z0 + 1) (len : ℕ) (data : PtrTable)
    (mem : Memory) :
    raid6RecovData2 (z0 + 3) len i j data mem = (0, (List.range len).foldl
        (recovData2Byte (raid6Gfmul (raid6Gfexi (j - i)))
          (raid6Gfmul (raid6Gfinv (raid6Gfexp i ^^^ raid6Gfexp j)))
          (data ↑(z0 + 1)) (data ↑(z0 + 2)) (data i) (data j))
        (raid6GenSyndrome (z0 + 3) len (data2Table z0 i j data) (withZeroMem mem))) := by
  have hcheck : ¬ ((i : ℤ) < 0 ∨ (z0 : ℤ) + 3 - 2 ≤ i ∨ (j : ℤ) < 0 ∨ (z0 : ℤ) + 3 - 2 ≤ j ∨
      (j : ℤ) ≤ i) := by omega
  have hp : (z0 : ℤ) + 3 - 2 = z0 + 1 := by omega
  have hq : (z0 : ℤ) + 3 - 1 = z0 + 2 := by omega
  have hdiff : ((j : ℤ) - i).toNat = j - i := by omega
  have hdq : Function.update (Function.update data i .zeroMem1) (z0 + 1) (data i) j = data j := by
    rw [Function.update_of_ne (by omega), Function.update_of_ne (by omega)]
  unfold raid6RecovData2
  rw [if_neg hcheck]
  simp only [hp, hq, hdiff, hdq, Int.toNat_natCast]
  rfl

section

variable {z0 : ℕ} {data : PtrTable} (hbuf : Buffers (z0 + 3) data)

include hbuf

theorem Buffers.ne {k l : ℕ} (hk : k < z0 + 3) (hl : l < z0 + 3) (hkl : k ≠ l) : data k ≠ data l :=
  fun h => hkl (hbuf.distinct k l hk hl h)

theorem Buffers.data2Table_distinct (hij : i < j) (hj : j < z0 + 1) :
    Distinct (z0 + 3) (data2Table z0 i j data) := by
  intro k l hk hl h
  have hd := hbuf.distinct
  have hf := hbuf.fresh
  unfold Distinct at hd
  rw [data2Table_apply, data2Table_apply] at h
  grind

theorem Buffers.datapTable_distinct (hi : i < z0 + 1) :
    Distinct (z0 + 3) (datapTable z0 i data) := by
  intro k l hk hl h
  have hd := hbuf.distinct
  have hf := hbuf.fresh
  unfold Distinct at hd
  rw [datapTable_apply, datapTable_apply] at h
  grind

/-! ## Two data stripes -/

theorem Buffers.withZeroMem_stripe {k : ℕ} (hk : k < z0 + 3) (mem : Memory) :
    withZeroMem mem (data k) = mem (data k) := by
  have hf := hbuf.fresh k hk
  rw [withZeroMem, Function.update_of_ne hf.2, Function.update_of_ne hf.1]

theorem Buffers.dataAt_data2Table (mem : Memory) (x : ℕ) :
    ∀ k < z0 + 1, dataAt (withZeroMem mem) (data2Table z0 i j data) x k =
      Function.update (Function.update (dataAt mem data x) i 0) j 0 k := by
  intro k hk
  have h1 : k ≠ z0 + 1 := by omega
  have h2 : k ≠ z0 + 2 := by omega
  rw [dataAt, data2Table_apply, if_neg h2, Function.update_apply, Function.update_apply]
  split_ifs
  · rfl
  · rfl
  · rw [hbuf.withZeroMem_stripe (by omega)]
    rfl

/-- The memory after the syndromes have been computed without the two lost stripes. -/
structure Data2Temp (z0 i j len : ℕ) (data : PtrTable) (mem mem' : Memory) : Prop where
  frame : ∀ k < z0 + 3, k ≠ i → k ≠ j → mem' (data k) = mem (data k)
  first : ∀ x, of (mem' (data i) x) = if x < len then pSum (z0 + 1)
    (Function.update (Function.update (dataAt mem data x) i 0) j 0) else of (mem (data i) x)
  second : ∀ x, of (mem' (data j) x) = if x < len then qSum gen (z0 + 1)
    (Function.update (Function.update (dataAt mem data x) i 0) j 0) else of (mem (data j) x)

theorem Buffers.data2Temp (hij : i < j) (hj : j < z0 + 1) (hlen : 8 ∣ len) (mem : Memory) :
    Data2Temp z0 i j len data mem
      (raid6GenSyndrome (z0 + 3) len (data2Table z0 i j data) (withZeroMem mem)) := by
  have hsyn := raid6GenSyndrome_spec (hbuf.data2Table_distinct hij hj) (withZeroMem mem) hlen
  have hparity : data2Table z0 i j data (z0 + 1) = data i := by
    have h := data2Table_apply z0 i j (z0 + 1) data
    rw [if_neg (by omega), if_neg (by omega), if_pos rfl] at h
    exact_mod_cast h
  have hsyndrome : data2Table z0 i j data (z0 + 2) = data j := by
    have h := data2Table_apply z0 i j (z0 + 2) data
    rw [if_pos rfl] at h
    exact_mod_cast h
  constructor
  · intro k hk hki hkj
    rw [hsyn.frame, hbuf.withZeroMem_stripe hk]
    · rw [hparity]
      exact hbuf.ne hk (by omega) hki
    · rw [hsyndrome]
      exact hbuf.ne hk (by omega) hkj
  · intro x
    have h := hsyn.parity x
    rw [hparity, hbuf.withZeroMem_stripe (by omega)] at h
    rw [h, pSum_congr (hbuf.dataAt_data2Table mem x)]
  · intro x
    have h := hsyn.syndrome x
    rw [hsyndrome, hbuf.withZeroMem_stripe (by omega)] at h
    rw [h, qSum_congr gen (hbuf.dataAt_data2Table mem x)]

theorem Buffers.raid6RecovData2_spec (hij : i < j) (hj : j < z0 + 1) (hz0 : z0 < 255)
    (hlen : 8 ∣ len) (mem : Memory) :
    ∃ mem', raid6RecovData2 (z0 + 3) len i j data mem = (0, mem') ∧
      (∀ k < z0 + 3, k ≠ i → k ≠ j → mem' (data k) = mem (data k)) ∧
      (∀ x, len ≤ x → mem' (data i) x = mem (data i) x ∧ mem' (data j) x = mem (data j) x) ∧
      (∀ x < len, ∀ a b : Gf,
        let rest := Function.update (Function.update (dataAt mem data x) i 0) j 0
        of (mem (data ↑(z0 + 1)) x) = pSum (z0 + 1) rest + (a + b) →
        of (mem (data ↑(z0 + 2)) x) = qSum gen (z0 + 1) rest + (gen ^ i * a + gen ^ j * b) →
        of (mem' (data i) x) = a ∧ of (mem' (data j) x) = b) := by
  have hc := raid6RecovData2_eq hij hj len data mem
  have htemp := hbuf.data2Temp hij hj hlen mem
  generalize raid6GenSyndrome (z0 + 3) len (data2Table z0 i j data) (withZeroMem mem) = mem1
    at hc htemp
  have hl := recovData2_rounds (raid6Gfmul (raid6Gfexi (j - i)))
    (raid6Gfmul (raid6Gfinv (raid6Gfexp i ^^^ raid6Gfexp j))) mem1 len
    ⟨hbuf.ne (k := z0 + 1) (l := i) (by omega) (by omega) (by omega),
      hbuf.ne (k := z0 + 1) (l := j) (by omega) (by omega) (by omega)⟩
    ⟨hbuf.ne (k := z0 + 2) (l := i) (by omega) (by omega) (by omega),
      hbuf.ne (k := z0 + 2) (l := j) (by omega) (by omega) (by omega)⟩
    (hbuf.ne (k := j) (l := i) (by omega) (by omega) (by omega))
  refine ⟨_, hc, ?_, ?_, ?_⟩
  · intro k hk hki hkj
    exact (hl.frame _ (hbuf.ne hk (by omega) hkj) (hbuf.ne hk (by omega) hki)).trans
      (htemp.frame k hk hki hkj)
  · intro x hx
    have hnot : ¬ x < len := by omega
    constructor
    · exact (hl.second x).trans
        ((if_neg hnot).trans (of_injective ((htemp.first x).trans (if_neg hnot))))
    · exact (hl.first x).trans
        ((if_neg hnot).trans (of_injective ((htemp.second x).trans (if_neg hnot))))
  · intro x hx a b rest hp hq
    have hpx : of (mem1 (data ↑(z0 + 1)) x ^^^ mem1 (data i) x) = a + b := by
      rw [of_xor, htemp.frame (z0 + 1) (by omega) (by omega) (by omega), hp, htemp.first x,
        if_pos hx]
      exact add_add_cancel _ _
    have hqx : of (mem1 (data ↑(z0 + 2)) x ^^^ mem1 (data j) x) = gen ^ i * a + gen ^ j * b := by
      rw [of_xor, htemp.frame (z0 + 2) (by omega) (by omega) (by omega), hq, htemp.second x,
        if_pos hx]
      exact add_add_cancel _ _
    have hb := solveData2 hij (by omega) hpx hqx
    constructor
    · rw [hl.second x, if_pos hx, of_xor]
      exact (congrArg₂ (· + ·) hb hpx).trans (by rw [add_comm a b, ← add_assoc,
        CharTwo.add_self_eq_zero, zero_add])
    · rw [hl.first x, if_pos hx]
      exact hb

/-! ## A data stripe and `P`, from `Q` -/

/-- The memory after the syndromes have been computed without the lost stripe. -/
structure DatapTemp (z0 i len : ℕ) (data : PtrTable) (mem mem' : Memory) : Prop where
  frame : ∀ k < z0 + 3, k ≠ i → k ≠ z0 + 1 → mem' (data k) = mem (data k)
  parity : ∀ x, of (mem' (data ↑(z0 + 1)) x) = if x < len then
    pSum (z0 + 1) (Function.update (dataAt mem data x) i 0) else of (mem (data ↑(z0 + 1)) x)
  delta : ∀ x, of (mem' (data i) x) = if x < len then
    qSum gen (z0 + 1) (Function.update (dataAt mem data x) i 0) else of (mem (data i) x)

theorem Buffers.datapTemp (hi : i < z0 + 1) (hlen : 8 ∣ len) (mem : Memory) :
    DatapTemp z0 i len data mem (raid6GenSyndrome (z0 + 3) len (datapTable z0 i data)
      (Function.update mem .zeroMem1 fun _ => 0)) := by
  have hstripe : ∀ k < z0 + 3,
      Function.update mem .zeroMem1 (fun _ => 0) (data (k : ℕ)) = mem (data k) :=
    fun k hk => Function.update_of_ne (hbuf.fresh k hk).1 _ _
  have hd : ∀ x, ∀ k < z0 + 1, dataAt (Function.update mem .zeroMem1 fun _ => 0)
      (datapTable z0 i data) x k = Function.update (dataAt mem data x) i 0 k := by
    intro x k hk
    have hq : k ≠ z0 + 2 := by omega
    by_cases hki : k = i
    · rw [dataAt, datapTable_apply, if_neg hq, if_pos hki, hki, Function.update_self,
        Function.update_self]
      rfl
    · rw [dataAt, datapTable_apply, if_neg hq, if_neg hki, Function.update_of_ne hki,
        hstripe k (by omega)]
      rfl
  have hsyn := raid6GenSyndrome_spec (hbuf.datapTable_distinct hi)
    (Function.update mem .zeroMem1 fun _ => 0) hlen
  have hparity : datapTable z0 i data (z0 + 1) = data ↑(z0 + 1) := by
    have h := datapTable_apply z0 i (z0 + 1) data
    rw [if_neg (by omega), if_neg (by omega)] at h
    exact_mod_cast h
  have hsyndrome : datapTable z0 i data (z0 + 2) = data i := by
    have h := datapTable_apply z0 i (z0 + 2) data
    rw [if_pos rfl] at h
    exact_mod_cast h
  constructor
  · intro k hk hki hkp
    rw [hsyn.frame, hstripe k hk]
    · rw [hparity]
      exact hbuf.ne hk (by omega) hkp
    · rw [hsyndrome]
      exact hbuf.ne hk (by omega) hki
  · intro x
    have h := hsyn.parity x
    rw [hparity, hstripe _ (by omega)] at h
    rw [h, pSum_congr (hd x)]
  · intro x
    have h := hsyn.syndrome x
    rw [hsyndrome, hstripe _ (by omega)] at h
    rw [h, qSum_congr gen (hd x)]

omit hbuf in
theorem raid6RecovDatap_eq (i len : ℕ) (mem : Memory) : raid6RecovDatap (z0 + 3) len i data mem =
      (0, (List.range len).foldl (recovDatapByte (raid6Gfmul (raid6Gfinv (raid6Gfexp i)))
          (data ↑(z0 + 1)) (data ↑(z0 + 2)) (data i))
        (raid6GenSyndrome (z0 + 3) len (datapTable z0 i data)
          (Function.update mem .zeroMem1 fun _ => 0))) := by
  have hp : (z0 : ℤ) + 3 - 2 = ↑(z0 + 1) := by omega
  have hq : (z0 : ℤ) + 3 - 1 = ↑(z0 + 2) := by omega
  simp only [raid6RecovDatap, hp, hq, Int.toNat_natCast]
  rfl

theorem Buffers.raid6RecovDatap_spec (hi : i < z0 + 1) (hz0 : z0 < 255) (hlen : 8 ∣ len)
    (mem : Memory) :
    ∃ mem', raid6RecovDatap (z0 + 3) len i data mem = (0, mem') ∧
      (∀ k < z0 + 3, k ≠ i → k ≠ z0 + 1 → mem' (data k) = mem (data k)) ∧
      (∀ x, len ≤ x → mem' (data i) x = mem (data i) x ∧
        mem' (data ↑(z0 + 1)) x = mem (data ↑(z0 + 1)) x) ∧
      (∀ x < len, ∀ a : Gf,
        let rest := Function.update (dataAt mem data x) i 0
        of (mem (data ↑(z0 + 2)) x) = qSum gen (z0 + 1) rest + gen ^ i * a →
        of (mem' (data i) x) = a ∧ of (mem' (data ↑(z0 + 1)) x) = pSum (z0 + 1) rest + a) := by
  have hc : raid6RecovDatap (z0 + 3) len i data mem = _ := raid6RecovDatap_eq i len mem
  have htemp := hbuf.datapTemp hi hlen mem
  generalize raid6GenSyndrome (z0 + 3) len (datapTable z0 i data)
    (Function.update mem .zeroMem1 fun _ => 0) = mem1 at hc htemp
  have hl := recovDatap_rounds (raid6Gfmul (raid6Gfinv (raid6Gfexp i))) mem1 len
    (hbuf.ne (k := z0 + 1) (l := z0 + 2) (by omega) (by omega) (by omega))
    (hbuf.ne (k := z0 + 2) (l := i) (by omega) (by omega) (by omega))
    (hbuf.ne (k := i) (l := z0 + 1) (by omega) (by omega) (by omega))
  refine ⟨_, hc, ?_, ?_, ?_⟩
  · intro k hk hki hkp
    exact (hl.frame _ (hbuf.ne hk (by omega) hki) (hbuf.ne hk (by omega) hkp)).trans
      (htemp.frame k hk hki hkp)
  · intro x hx
    have hnot : ¬ x < len := by omega
    constructor
    · exact (hl.first x).trans
        ((if_neg hnot).trans (of_injective ((htemp.delta x).trans (if_neg hnot))))
    · exact (hl.second x).trans
        ((if_neg hnot).trans (of_injective ((htemp.parity x).trans (if_neg hnot))))
  · intro x hx a rest hq
    have hqx : of (mem1 (data ↑(z0 + 2)) x ^^^ mem1 (data i) x) = gen ^ i * a := by
      rw [of_xor, htemp.frame (z0 + 2) (by omega) (by omega) (by omega), hq, htemp.delta x,
        if_pos hx]
      exact add_add_cancel _ _
    have ha : of (raid6Gfmul (raid6Gfinv (raid6Gfexp i))
        (mem1 (data ↑(z0 + 2)) x ^^^ mem1 (data i) x)) = a := by
      rw [raid6Gfmul, of_gfmul, of_raid6Gfinv, of_raid6Gfexp (by omega), hqx,
        inv_mul_cancel_left₀ (gen_pow_ne_zero i)]
    constructor
    · rw [hl.first x, if_pos hx]
      exact ha
    · rw [hl.second x, if_pos hx, of_xor, htemp.parity x, if_pos hx]
      exact congrArg _ ha

end

end Btrfs.Raid56
