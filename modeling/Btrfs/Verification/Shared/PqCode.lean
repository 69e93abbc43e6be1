import Mathlib

/-! # Two-parity codes over a field of characteristic two

`P` is the sum of the data and `Q` its value as a polynomial at a point `g`. -/

namespace PqCode

open Finset

section

variable {K : Type*} [CommRing K]

def pSum (n : ℕ) (data : ℕ → K) : K := ∑ i ∈ range n, data i

def qSum (g : K) (n : ℕ) (data : ℕ → K) : K := ∑ i ∈ range n, g ^ i * data i

def horner (g : K) (data : ℕ → K) : ℕ → K → K
  | 0, v => v
  | n + 1, v => horner g data n (g * v + data n)

theorem horner_eq (g : K) (data : ℕ → K) (n : ℕ) (v : K) :
    horner g data n v = g ^ n * v + qSum g n data := by
  induction n generalizing v with
  | zero => simp [horner, qSum]
  | succ n ih =>
    rw [horner, ih, qSum, qSum, sum_range_succ]
    ring

variable {n i j : ℕ} {data data' : ℕ → K}

theorem pSum_congr (h : ∀ i < n, data i = data' i) : pSum n data = pSum n data' :=
  sum_congr rfl fun i hi => h i (mem_range.mp hi)

theorem qSum_congr (g : K) (h : ∀ i < n, data i = data' i) : qSum g n data = qSum g n data' :=
  sum_congr rfl fun i hi => by rw [h i (mem_range.mp hi)]

theorem pSum_split (hi : i < n) (data : ℕ → K) :
    pSum n data = pSum n (Function.update data i 0) + data i := by
  unfold pSum
  rw [sum_update_of_mem (mem_range.mpr hi), zero_add,
    sum_sdiff_eq_sub (singleton_subset_iff.mpr (mem_range.mpr hi)), sum_singleton, sub_add_cancel]

theorem qSum_split (g : K) (hi : i < n) (data : ℕ → K) :
    qSum g n data = qSum g n (Function.update data i 0) + g ^ i * data i := by
  have hmul : ∀ j, g ^ j * Function.update data i 0 j =
      Function.update (fun j => g ^ j * data j) i 0 j := by
    intro j
    by_cases hj : j = i
    · subst hj
      simp
    · simp [hj]
  have hsplit := pSum_split hi fun j => g ^ j * data j
  unfold pSum at hsplit
  unfold qSum
  rw [hsplit]
  simp only [hmul]

theorem pSum_split_two (hi : i < n) (hj : j < n) (hij : i ≠ j) (data : ℕ → K) :
    pSum n data = pSum n (Function.update (Function.update data i 0) j 0) + (data i + data j) := by
  rw [pSum_split hi, pSum_split hj (Function.update data i 0), Function.update_of_ne hij.symm]
  ring

theorem qSum_split_two (g : K) (hi : i < n) (hj : j < n) (hij : i ≠ j) (data : ℕ → K) :
    qSum g n data = qSum g n (Function.update (Function.update data i 0) j 0) +
      (g ^ i * data i + g ^ j * data j) := by
  rw [qSum_split g hi, qSum_split g hj (Function.update data i 0), Function.update_of_ne hij.symm]
  ring

end

section

variable {K : Type*} [Field K] [CharP K 2]

theorem add_add_cancel (s t : K) : (s + t) + s = t := by
  rw [add_comm s t, add_assoc, CharTwo.add_self_eq_zero, add_zero]

theorem recover_second {g : K} {i j : ℕ} (hij : i ≤ j) (hne : g ^ i ≠ g ^ j) (a b : K) :
    (g ^ (j - i) + 1)⁻¹ * (a + b) + (g ^ i + g ^ j)⁻¹ * (g ^ i * a + g ^ j * b) = b := by
  have hsum : g ^ i + g ^ j ≠ 0 := by
    rw [Ne, CharTwo.add_eq_zero]
    exact hne
  have hfac : g ^ i * (g ^ (j - i) + 1) = g ^ i + g ^ j := by
    rw [mul_add, ← pow_add, Nat.add_sub_cancel' hij, mul_one, add_comm]
  have hpow : g ^ i ≠ 0 := left_ne_zero_of_mul (hfac ▸ hsum)
  have hinv : (g ^ (j - i) + 1)⁻¹ = (g ^ i + g ^ j)⁻¹ * g ^ i := by
    rw [← hfac, mul_inv_rev, mul_assoc, inv_mul_cancel₀ hpow, mul_one]
  have htwo : g ^ i * a + g ^ i * a = 0 := CharTwo.add_self_eq_zero _
  rw [hinv]
  calc (g ^ i + g ^ j)⁻¹ * g ^ i * (a + b) + (g ^ i + g ^ j)⁻¹ * (g ^ i * a + g ^ j * b)
      = (g ^ i + g ^ j)⁻¹ * ((g ^ i * a + g ^ i * a) + (g ^ i + g ^ j) * b) := by ring
    _ = b := by rw [htwo, zero_add, inv_mul_cancel_left₀ hsum]

end

end PqCode
