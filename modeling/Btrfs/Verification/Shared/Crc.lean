import Mathlib

/-! # Cyclic redundancy checks, bit by bit

The register shifts to the right; `poly` is the polynomial with its bits reversed. A register is
linear in its contents, so that eight steps can be looked up by the low byte. -/

namespace Btrfs.Crc

variable {w : ℕ} (poly : BitVec w) {n : ℕ} {x : BitVec w} {bs : List (BitVec 8)}

def bitStep (x : BitVec w) : BitVec w := (x >>> 1) ^^^ if x.getLsbD 0 then poly else 0

def bitSteps : ℕ → BitVec w → BitVec w
  | 0, x => x
  | n + 1, x => bitSteps n (bitStep poly x)

def byteStep (reg : BitVec w) (b : BitVec 8) : BitVec w := bitSteps poly 8 (reg ^^^ b.setWidth w)

def register (reg : BitVec w) (message : List (BitVec 8)) : BitVec w :=
  message.foldl (byteStep poly) reg

theorem bitStep_xor (x y : BitVec w) :
    bitStep poly (x ^^^ y) = bitStep poly x ^^^ bitStep poly y := by
  have hpoly : ∀ a b : Bool, (if (a ^^ b) then poly else 0) =
      (if a then poly else 0) ^^^ (if b then poly else 0) := by
    intro a b
    cases a <;> cases b <;> simp
  rw [bitStep, bitStep, bitStep, BitVec.getLsbD_xor, hpoly, BitVec.ushiftRight_xor_distrib]
  ac_rfl

theorem bitSteps_xor (n : ℕ) (x y : BitVec w) :
    bitSteps poly n (x ^^^ y) = bitSteps poly n x ^^^ bitSteps poly n y := by
  induction n generalizing x y with
  | zero => rfl
  | succ n ih => rw [bitSteps, bitStep_xor, ih, bitSteps, bitSteps]

theorem bitSteps_of_low_zero (h : ∀ i < n, x.getLsbD i = false) : bitSteps poly n x = x >>> n := by
  induction n generalizing x with
  | zero => simp [bitSteps]
  | succ n ih =>
    have hs : bitStep poly x = x >>> 1 := by
      rw [bitStep, h 0 (Nat.succ_pos n)]
      simp
    rw [bitSteps, hs, ih, Nat.add_comm, BitVec.shiftRight_add]
    intro i hi
    rw [BitVec.getLsbD_ushiftRight]
    exact h (1 + i) (by omega)

/-- Eight steps: the low byte decides what the shifted register is combined with. -/
theorem bitSteps_eight (x mask : BitVec w) (hmask : ∀ i, mask.getLsbD i = decide (i < 8 ∧ i < w)) :
    bitSteps poly 8 x = bitSteps poly 8 (x &&& mask) ^^^ (x >>> 8) := by
  have hsplit : x = (x &&& mask) ^^^ (x &&& ~~~mask) := by
    ext i hi
    simp only [BitVec.getElem_xor, BitVec.getElem_and, BitVec.getElem_not]
    cases x[i] <;> cases mask[i] <;> rfl
  have hhigh : bitSteps poly 8 (x &&& ~~~mask) = x >>> 8 := by
    rw [bitSteps_of_low_zero]
    · ext i hi
      simp only [BitVec.getElem_ushiftRight, BitVec.getLsbD_and, BitVec.getLsbD_not, hmask]
      by_cases hw : 8 + i < w
      · simp [hw]
      · rw [BitVec.getLsbD_of_ge x _ (by omega)]
        simp
    · intro i hi
      simp only [BitVec.getLsbD_and, BitVec.getLsbD_not, hmask, hi]
      by_cases hw : i < w <;> simp [hw]
  calc bitSteps poly 8 x = bitSteps poly 8 ((x &&& mask) ^^^ (x &&& ~~~mask)) := by rw [← hsplit]
    _ = bitSteps poly 8 (x &&& mask) ^^^ (x >>> 8) := by rw [bitSteps_xor, hhigh]

/-! ## Running the register backwards -/

theorem bitSteps_add (m n : ℕ) (x : BitVec w) :
    bitSteps poly (m + n) x = bitSteps poly n (bitSteps poly m x) := by
  induction m generalizing x with
  | zero => rw [Nat.zero_add, bitSteps]
  | succ m ih => rw [Nat.succ_add, bitSteps, ih, bitSteps]

/-- With the top bit in the polynomial, the top bit of the register tells which bit has left. -/
theorem bitStep_injective (h : poly.msb = true) : Function.Injective (bitStep poly) := by
  have hmsb : ∀ x, (bitStep poly x).msb = x.getLsbD 0 := by
    intro x
    rw [bitStep]
    cases x.getLsbD 0 <;> simp [h]
  intro x y hxy
  have hlow : x.getLsbD 0 = y.getLsbD 0 := by rw [← hmsb, hxy, hmsb]
  have hhigh : x >>> 1 = y >>> 1 := by
    rw [bitStep, hlow] at hxy
    exact (BitVec.xor_left_inj _).mp hxy
  apply BitVec.eq_of_getLsbD_eq
  intro i _
  cases i with
  | zero => exact hlow
  | succ i =>
    have hbit := congrArg (fun z => z.getLsbD i) hhigh
    simpa only [BitVec.getLsbD_ushiftRight, Nat.add_comm 1 i] using hbit

theorem bitSteps_injective (h : poly.msb = true) (n : ℕ) : Function.Injective (bitSteps poly n) := by
  induction n with
  | zero => exact fun x y hxy => hxy
  | succ n ih => exact fun x y hxy => bitStep_injective poly h (ih hxy)

/-! ## Few bytes as one word -/

/-- The word with the given bytes, the lowest one first. -/
def leWord : List (BitVec 8) → BitVec w
  | [] => 0
  | b :: bs => b.setWidth w ^^^ (leWord bs <<< 8)

theorem getLsbD_leWord {i : ℕ} (hi : 8 * bs.length ≤ i) :
    (leWord bs : BitVec w).getLsbD i = false := by
  induction bs generalizing i with
  | nil => simp [leWord]
  | cons b bs ih =>
    rw [List.length_cons] at hi
    rw [leWord, BitVec.getLsbD_xor, BitVec.getLsbD_setWidth, BitVec.getLsbD_shiftLeft,
      BitVec.getLsbD_of_ge b i (by omega), ih (by omega)]
    simp

theorem shiftLeft_ushiftRight (h : ∀ i, w ≤ n + i → x.getLsbD i = false) : (x <<< n) >>> n = x := by
  apply BitVec.eq_of_getLsbD_eq
  intro i hi
  rw [BitVec.getLsbD_ushiftRight, BitVec.getLsbD_shiftLeft]
  by_cases hlt : n + i < w
  · simp [hlt]
  · simp [h i (by omega)]

/-- The low bytes of a word, the lowest one first. -/
def lowBytes : ℕ → BitVec w → List (BitVec 8)
  | 0, _ => []
  | n + 1, x => x.setWidth 8 :: lowBytes n (x >>> 8)

theorem leWord_lowBytes (h : ∀ i, 8 * n ≤ i → x.getLsbD i = false) : leWord (lowBytes n x) = x := by
  induction n generalizing x with
  | zero =>
    apply BitVec.eq_of_getLsbD_eq
    intro i _
    simp [lowBytes, leWord, h i (by omega)]
  | succ n ih =>
    have hr : leWord (lowBytes n (x >>> 8)) = x >>> 8 := by
      apply ih
      intro i hi
      rw [BitVec.getLsbD_ushiftRight]
      exact h (8 + i) (by omega)
    apply BitVec.eq_of_getLsbD_eq
    intro i hi
    rw [lowBytes, leWord, hr]
    by_cases hlow : i < 8
    · simp [hi, hlow]
    · simp [hi, hlow, show 8 + (i - 8) = i by omega]

theorem lowBytes_leWord (h : 8 * bs.length ≤ w) :
    lowBytes bs.length (leWord bs : BitVec w) = bs := by
  induction bs with
  | nil => rfl
  | cons b bs ih =>
    rw [List.length_cons] at h ⊢
    have hby : (leWord (b :: bs) : BitVec w).setWidth 8 = b := by
      apply BitVec.eq_of_getLsbD_eq
      intro i hi
      simp [leWord, hi, show i < w by omega]
    have hr : (leWord (b :: bs) : BitVec w) >>> 8 = leWord bs := by
      have hb : (b.setWidth w) >>> 8 = 0 := by
        apply BitVec.eq_of_getLsbD_eq
        simp
      rw [leWord, BitVec.ushiftRight_xor_distrib, hb, shiftLeft_ushiftRight]
      · simp
      · intro i hi
        exact getLsbD_leWord (by omega)
    rw [lowBytes, hby, hr, ih (by omega)]

theorem register_eq_bitSteps (reg : BitVec w) (h : 8 * bs.length ≤ w) :
    register poly reg bs = bitSteps poly (8 * bs.length) (reg ^^^ leWord bs) := by
  induction bs generalizing reg with
  | nil => simp [register, bitSteps, leWord]
  | cons b bs ih =>
    rw [List.length_cons] at h
    have hword : bitSteps poly 8 (leWord bs <<< 8) = leWord bs := by
      rw [bitSteps_of_low_zero, shiftLeft_ushiftRight]
      · intro i hi
        exact getLsbD_leWord (by omega)
      · intro i hi
        simp [hi]
    calc register poly reg (b :: bs)
        = register poly (byteStep poly reg b) bs := rfl
      _ = bitSteps poly (8 * bs.length) (byteStep poly reg b ^^^ leWord bs) := ih _ (by omega)
      _ = bitSteps poly (8 * bs.length) (bitSteps poly 8 (reg ^^^ leWord (b :: bs))) := by
          rw [byteStep, leWord, ← BitVec.xor_assoc, bitSteps_xor poly 8 (reg ^^^ _), hword]
      _ = bitSteps poly (8 * (b :: bs).length) (reg ^^^ leWord (b :: bs)) := by
          rw [← bitSteps_add, List.length_cons, Nat.mul_succ, Nat.add_comm 8]

end Btrfs.Crc
