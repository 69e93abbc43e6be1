import Mathlib

/-! # Holes: maximal runs of free numbers -/

namespace Holes

/-- A maximal run of `n` free numbers from `a` on. -/
structure Hole (free : ℕ → Prop) (a n : ℕ) : Prop where
  pos : 0 < n
  inside : ∀ x, a ≤ x → x < a + n → free x
  before : ∀ y, y + 1 = a → ¬ free y
  stop : ¬ free (a + n)

/-- The first of the largest holes that start below a bound; a length of 0 stands for no hole. -/
structure Best (free : ℕ → Prop) (bound start len : ℕ) : Prop where
  hole : 0 < len → Hole free start len ∧ start < bound
  largest : ∀ a n, Hole free a n → a < bound → n ≤ len
  first : ∀ a, Hole free a len → a < bound → start ≤ a

/-- The result of a search for a hole of a given size: the lowest one, or else the first of the
largest ones. -/
structure FirstFit (free : ℕ → Prop) (size origin : ℕ) (found : Prop) (start len : ℕ) : Prop where
  found_iff : found ↔ ∃ a n, Hole free a n ∧ size ≤ n
  lowest : found → Hole free start len ∧ size ≤ len ∧ ∀ a n, Hole free a n → size ≤ n → start ≤ a
  largest : ¬ found → (∀ a n, Hole free a n → n ≤ len) ∧
    (Hole free start len ∧ (∀ a, Hole free a len → start ≤ a) ∨ len = 0 ∧ start = origin)

variable {free : ℕ → Prop} {a b n m bound start len : ℕ}

theorem Hole.eq_of_mem (h : Hole free a n) (h' : Hole free b m) (hle : a ≤ b) (hlt : b < a + n) :
    a = b ∧ n = m := by
  have hst : a = b := by
    by_contra hne
    have hp : free (b - 1) := h.inside (b - 1) (by omega) (by omega)
    exact h'.before (b - 1) (by omega) hp
  subst hst
  refine ⟨rfl, ?_⟩
  rcases Nat.lt_trichotomy n m with hnm | hnm | hnm
  · exact absurd (h'.inside (a + n) (by omega) (by omega)) h.stop
  · exact hnm
  · exact absurd (h.inside (a + m) (by omega) (by omega)) h'.stop

theorem Hole.first (h : Hole free a n) : free a := h.inside a le_rfl (by have := h.pos; omega)

section

variable (h : Best free bound start len)

include h

variable {bound' size origin : ℕ} {found : Prop}

theorem Best.mono (hle : bound ≤ bound') (hn : ∀ x, bound ≤ x → x < bound' → ¬ free x) :
    Best free bound' start len := by
  have hbelow : ∀ a n, Hole free a n → a < bound' → a < bound := by
    intro a n ha hlt
    by_contra hge
    exact hn a (by omega) hlt ha.first
  constructor
  · intro hpos
    obtain ⟨hh, hlt⟩ := h.hole hpos
    exact ⟨hh, by omega⟩
  · intro a n ha hlt
    exact h.largest a n ha (hbelow a n ha hlt)
  · intro a ha hlt
    exact h.first a ha (hbelow a len ha hlt)

theorem Best.add (hh : Hole free bound n) (hbound : bound < bound') (hle : bound' ≤ bound + n) :
    Best free bound' (if len < n then bound else start) (if len < n then n else len) := by
  have hcs : ∀ a m, Hole free a m → a < bound' → a < bound ∨ a = bound ∧ m = n := by
    intro a m ha hlt
    by_cases hbelow : a < bound
    · exact .inl hbelow
    · obtain ⟨heq, hlen⟩ := hh.eq_of_mem ha (by omega) (by omega)
      exact .inr ⟨heq.symm, hlen.symm⟩
  split
  · rename_i hlt
    constructor
    · exact fun _ => ⟨hh, hbound⟩
    · intro a m ha halt
      rcases hcs a m ha halt with hbelow | ⟨-, hm⟩
      · exact (h.largest a m ha hbelow).trans hlt.le
      · exact hm.le
    · intro a ha halt
      rcases hcs a n ha halt with hbelow | ⟨heq, -⟩
      · exact absurd (h.largest a n ha hbelow) (by omega)
      · exact heq.ge
  · constructor
    · intro hpos
      obtain ⟨hold, hlt⟩ := h.hole hpos
      exact ⟨hold, by omega⟩
    · intro a m ha halt
      rcases hcs a m ha halt with hbelow | ⟨-, hm⟩
      · exact h.largest a m ha hbelow
      · omega
    · intro a ha halt
      rcases hcs a len ha halt with hbelow | ⟨heq, -⟩
      · exact h.first a ha hbelow
      · have hlt := (h.hole (by omega)).2
        omega

theorem Best.firstFit_none (hsmall : len < size) (hall : ∀ a n, Hole free a n → a < bound)
    (hst : len = 0 → start = origin) (hfound : ¬ found) :
    FirstFit free size origin found start len := by
  have hle : ∀ a n, Hole free a n → n ≤ len := fun a n ha => h.largest a n ha (hall a n ha)
  constructor
  · constructor
    · intro hcontra
      exact absurd hcontra hfound
    · rintro ⟨a, n, ha, hn⟩
      have hbound := hle a n ha
      omega
  · intro hcontra
    exact absurd hcontra hfound
  · intro _
    refine ⟨hle, ?_⟩
    rcases Nat.eq_zero_or_pos len with hz | hpos
    · exact .inr ⟨hz, hst hz⟩
    · exact .inl ⟨(h.hole hpos).1, fun a ha => h.first a ha (hall a len ha)⟩

theorem Best.firstFit_some (hsmall : len < size) (hh : Hole free bound n) (hs : size ≤ n)
    (hfound : found) :
    FirstFit free size origin found bound n := by
  constructor
  · exact iff_of_true hfound ⟨bound, n, hh, hs⟩
  · intro _
    refine ⟨hh, hs, ?_⟩
    intro a m ha hm
    by_contra hlt
    have hle := h.largest a m ha (by omega)
    omega
  · intro hcontra
    exact absurd hfound hcontra

end

theorem FirstFit.unique {size origin : ℕ} {found found' : Prop} {start' len' : ℕ}
    (h : FirstFit free size origin found start len)
    (h' : FirstFit free size origin found' start' len') :
    (found ↔ found') ∧ start = start' ∧ len = len' := by
  have hiff : found ↔ found' := h.found_iff.trans h'.found_iff.symm
  refine ⟨hiff, ?_⟩
  by_cases hfound : found
  · obtain ⟨hh, hs, hlow⟩ := h.lowest hfound
    obtain ⟨hh', hs', hlow'⟩ := h'.lowest (hiff.mp hfound)
    have hst : start = start' := le_antisymm (hlow _ _ hh' hs') (hlow' _ _ hh hs)
    subst hst
    have hpos := hh.pos
    exact hh.eq_of_mem hh' le_rfl (by omega)
  · obtain ⟨hlargest, hc⟩ := h.largest hfound
    obtain ⟨hlargest', hc'⟩ := h'.largest (hiff.not.mp hfound)
    rcases hc with ⟨hh, hfirst⟩ | ⟨hz, hst⟩
    · rcases hc' with ⟨hh', hfirst'⟩ | ⟨hz', -⟩
      · have hlen : len = len' := le_antisymm (hlargest' _ _ hh) (hlargest _ _ hh')
        subst hlen
        exact ⟨le_antisymm (hfirst _ hh') (hfirst' _ hh), rfl⟩
      · have hle := hlargest' _ _ hh
        have hpos := hh.pos
        omega
    · rcases hc' with ⟨hh', -⟩ | ⟨hz', hst'⟩
      · have hle := hlargest _ _ hh'
        have hpos := hh'.pos
        omega
      · exact ⟨hst.trans hst'.symm, hz.trans hz'.symm⟩

end Holes
