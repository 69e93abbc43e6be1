import Mathlib

/-! # Runs of marked points

Points on a line, each with a mark that holds up to the next point, and the ranges of marked points
that a scan from left to right finds. -/

namespace Btrfs.MarkedRuns

variable {r : ℕ × ℕ} {ranges : List (ℕ × ℕ)} {stop : ℕ} {points : List (ℕ × Bool)}

/-! ## Ranges -/

/-- The ranges, each with its start and its end, that have a point. -/
def InRanges (ranges : List (ℕ × ℕ)) (a : ℕ) : Prop := ∃ r ∈ ranges, r.1 ≤ a ∧ a < r.2

theorem inRanges_nil (a : ℕ) : ¬ InRanges [] a := fun ⟨_, hr, _⟩ => List.not_mem_nil hr

variable {a : ℕ} {point : ℕ × Bool}

theorem inRanges_cons : InRanges (r :: ranges) a ↔ (r.1 ≤ a ∧ a < r.2) ∨ InRanges ranges a := by
  simp only [InRanges, List.mem_cons, exists_eq_or_imp]

/-- Nonempty ranges in ascending order, with a gap between any two. -/
structure Separated (ranges : List (ℕ × ℕ)) : Prop where
  nonempty : ∀ r ∈ ranges, r.1 < r.2
  gaps : ranges.Pairwise fun r r' => r.2 < r'.1

theorem separated_nil : Separated [] := ⟨by simp, .nil⟩

theorem separated_cons :
    Separated (r :: ranges) ↔ r.1 < r.2 ∧ (∀ r' ∈ ranges, r.2 < r'.1) ∧ Separated ranges := by
  constructor
  · rintro ⟨hne, hgaps⟩
    obtain ⟨hfirst, hr⟩ := List.pairwise_cons.mp hgaps
    exact ⟨hne r (by simp), hfirst, fun r' hr' => hne r' (by simp [hr']), hr⟩
  · rintro ⟨hne, hfirst, hr⟩
    exact ⟨List.forall_mem_cons.mpr ⟨hne, hr.nonempty⟩, List.pairwise_cons.mpr ⟨hfirst, hr.gaps⟩⟩

theorem Separated.start_le (h : Separated (r :: ranges)) (ha : InRanges (r :: ranges) a) :
    r.1 ≤ a := by
  obtain ⟨hne, hfirst, -⟩ := separated_cons.mp h
  rcases inRanges_cons.mp ha with ha | ⟨r', hr', ha⟩
  · exact ha.1
  · have := hfirst r' hr'
    omega

theorem Separated.end_not_mem (h : Separated (r :: ranges)) : ¬ InRanges (r :: ranges) r.2 := by
  obtain ⟨-, hfirst, -⟩ := separated_cons.mp h
  intro hin
  rcases inRanges_cons.mp hin with ha | ⟨r', hr', ha⟩
  · omega
  · have := hfirst r' hr'
    omega

theorem Separated.mem_tail_iff (h : Separated (r :: ranges)) (a : ℕ) :
    InRanges ranges a ↔ InRanges (r :: ranges) a ∧ r.2 ≤ a := by
  obtain ⟨-, hfirst, -⟩ := separated_cons.mp h
  rw [inRanges_cons]
  constructor
  · rintro ⟨r', hr', ha⟩
    have := hfirst r' hr'
    exact ⟨Or.inr ⟨r', hr', ha⟩, by omega⟩
  · rintro ⟨ha | ha, hle⟩
    · omega
    · exact ha

/-- Separated ranges are determined by their points. -/
theorem Separated.ext {xs ys : List (ℕ × ℕ)} (hx : Separated xs) (hy : Separated ys)
    (h : ∀ a, InRanges xs a ↔ InRanges ys a) : xs = ys := by
  induction xs generalizing ys with
  | nil =>
    cases ys with
    | nil => rfl
    | cons y ys =>
      have hne := (separated_cons.mp hy).1
      exact absurd ((h y.1).mpr (inRanges_cons.mpr (Or.inl ⟨le_refl _, hne⟩))) (inRanges_nil _)
  | cons x xs ih =>
    cases ys with
    | nil =>
      have hne := (separated_cons.mp hx).1
      exact absurd ((h x.1).mp (inRanges_cons.mpr (Or.inl ⟨le_refl _, hne⟩))) (inRanges_nil _)
    | cons y ys =>
      obtain ⟨hnex, -, hxs⟩ := separated_cons.mp hx
      obtain ⟨hney, -, hys⟩ := separated_cons.mp hy
      have hst : x.1 = y.1 := by
        have h1 := hy.start_le ((h x.1).mp (inRanges_cons.mpr (Or.inl ⟨le_refl _, hnex⟩)))
        have h2 := hx.start_le ((h y.1).mpr (inRanges_cons.mpr (Or.inl ⟨le_refl _, hney⟩)))
        omega
      have hs : x.2 = y.2 := by
        by_contra hne
        rcases Nat.lt_or_gt_of_ne hne with hlt | hlt
        · exact hx.end_not_mem ((h x.2).mpr (inRanges_cons.mpr (Or.inl ⟨by omega, hlt⟩)))
        · exact hy.end_not_mem ((h y.2).mp (inRanges_cons.mpr (Or.inl ⟨by omega, hlt⟩)))
      have ht : xs = ys := by
        refine ih hxs hys fun a => ?_
        rw [hx.mem_tail_iff, hy.mem_tail_iff, h a, hs]
      rw [ht, Prod.ext hst hs]

/-! ## The scan -/

def nextPoint (stop : ℕ) : List (ℕ × Bool) → ℕ
  | [] => stop
  | point :: _ => point.1

/-- The points up to the end of the line, in ascending order. -/
def Ascending (stop : ℕ) (points : List (ℕ × Bool)) : Prop :=
  points.Pairwise (fun p q => p.1 < q.1) ∧ ∀ p ∈ points, p.1 < stop

theorem ascending_cons : Ascending stop (point :: points) ↔
      (∀ q ∈ points, point.1 < q.1) ∧ point.1 < stop ∧ Ascending stop points := by
  rw [Ascending, List.pairwise_cons, List.forall_mem_cons, Ascending]
  tauto

theorem Ascending.lt_next (h : Ascending stop (point :: points)) :
    point.1 < nextPoint stop points := by
  obtain ⟨hlater, hlt, -⟩ := ascending_cons.mp h
  cases points with
  | nil => exact hlt
  | cons q points => exact hlater q (by simp)

/-- The ranges found by a scan that comes with a mark, and with the start of its run. -/
def runs (stop : ℕ) : Bool → ℕ → List (ℕ × Bool) → List (ℕ × ℕ)
  | prev, start, [] => if prev then [(start, stop)] else []
  | prev, start, (offset, bit) :: points =>
    if !prev && bit then runs stop bit offset points
    else if prev && !bit then (start, offset) :: runs stop bit start points
    else runs stop bit start points

/-- A mark holds from its point up to the next one. -/
def Marked (stop : ℕ) : List (ℕ × Bool) → ℕ → Prop
  | [], _ => False
  | (offset, bit) :: points, a =>
    (bit = true ∧ offset ≤ a ∧ a < nextPoint stop points) ∨ Marked stop points a

theorem inRanges_runs (h : Ascending stop points) (prev : Bool) (start : ℕ)
    (hst : prev = true → start ≤ nextPoint stop points) (a : ℕ) :
    InRanges (runs stop prev start points) a ↔
      (prev = true ∧ start ≤ a ∧ a < nextPoint stop points) ∨ Marked stop points a := by
  induction points generalizing prev start with
  | nil =>
    cases prev with
    | false => simp [runs, Marked, InRanges]
    | true => simp [runs, Marked, InRanges, nextPoint]
  | cons point points ih =>
    obtain ⟨offset, bit⟩ := point
    have hn : offset < nextPoint stop points := h.lt_next
    obtain ⟨-, -, hpoints⟩ := ascending_cons.mp h
    cases prev with
    | false =>
      cases bit with
      | false => simpa [runs, Marked] using ih hpoints false start nofun
      | true => simpa [runs, Marked] using ih hpoints true offset fun _ => hn.le
    | true =>
      have hle : start ≤ offset := hst rfl
      cases bit with
      | false =>
        have hr := ih hpoints false start nofun
        simp only [Bool.false_eq_true] at hr
        simp [runs, Marked, inRanges_cons, hr, nextPoint]
      | true =>
        have hr := ih hpoints true start fun _ => hle.trans hn.le
        have hoff : nextPoint stop ((offset, true) :: points) = offset := rfl
        simp only [runs, Marked, Bool.not_true, Bool.and_true, Bool.false_eq_true, ↓reduceIte,
          Bool.and_false, hr, true_and]
        constructor
        · rintro (ha | ha)
          · by_cases hlt : a < offset
            · exact Or.inl ⟨ha.1, hlt⟩
            · exact Or.inr (Or.inl ⟨by omega, ha.2⟩)
          · exact Or.inr (Or.inr ha)
        · rintro (ha | ha | ha)
          · exact Or.inl ⟨ha.1, by omega⟩
          · exact Or.inl ⟨by omega, ha.2⟩
          · exact Or.inr ha

theorem separated_runs (h : Ascending stop points) (prev : Bool) (start : ℕ)
    (hst : prev = true → start < nextPoint stop points) :
    Separated (runs stop prev start points) ∧ ∀ r ∈ runs stop prev start points,
        (if prev then start else nextPoint stop points) ≤ r.1 ∧ r.2 ≤ stop := by
  induction points generalizing prev start with
  | nil =>
    cases prev with
    | false => exact ⟨separated_nil, List.forall_mem_nil _⟩
    | true =>
      refine ⟨separated_cons.mpr ⟨hst rfl, by simp, separated_nil⟩, ?_⟩
      intro r hr
      rw [List.mem_singleton.mp hr]
      exact ⟨le_refl _, le_refl _⟩
  | cons point points ih =>
    obtain ⟨offset, bit⟩ := point
    have hn : offset < nextPoint stop points := h.lt_next
    obtain ⟨-, hs, hpoints⟩ := ascending_cons.mp h
    cases prev with
    | false =>
      cases bit with
      | false =>
        obtain ⟨hsep, hbounds⟩ := ih hpoints false start nofun
        refine ⟨hsep, fun r hr => ?_⟩
        obtain ⟨hlo, hhi⟩ : nextPoint stop points ≤ r.1 ∧ r.2 ≤ stop := hbounds r hr
        exact ⟨hn.le.trans hlo, hhi⟩
      | true => exact ih hpoints true offset fun _ => hn
    | true =>
      have hlt : start < offset := hst rfl
      cases bit with
      | false =>
        obtain ⟨hsep, hbounds⟩ := ih hpoints false start nofun
        have hre : ∀ r ∈ runs stop false start points, offset < r.1 ∧ r.2 ≤ stop := by
          intro r hr
          have := hbounds r hr
          simp only [Bool.false_eq_true, ↓reduceIte] at this
          omega
        refine ⟨separated_cons.mpr ⟨hlt, fun r hr => (hre r hr).1, hsep⟩, ?_⟩
        refine List.forall_mem_cons.mpr ⟨⟨le_refl _, hs.le⟩, fun r hr => ?_⟩
        have := hre r hr
        simp only [↓reduceIte]
        omega
      | true => exact ih hpoints true start fun _ => hlt.trans hn

def countRuns : Bool → List Bool → ℕ
  | prev, [] => if prev then 1 else 0
  | prev, bit :: bits => (if prev && !bit then 1 else 0) + countRuns bit bits

theorem length_runs (stop : ℕ) (prev : Bool) (start : ℕ) (points : List (ℕ × Bool)) :
    (runs stop prev start points).length = countRuns prev (points.map Prod.snd) := by
  induction points generalizing prev start with
  | nil => cases prev <;> rfl
  | cons point points ih =>
    obtain ⟨offset, bit⟩ := point
    cases prev <;> cases bit <;> simp [runs, countRuns, ih, Nat.add_comm]

/-! ## Points at equal distances -/

/-- The points `start + i * step` for `i` from `first` on, `count` of them. -/
def stepPoints (start step : ℕ) (bits : ℕ → Bool) (first count : ℕ) : List (ℕ × Bool) :=
  (List.range' first count).map fun i => (start + i * step, bits i)

theorem stepPoints_succ (start step : ℕ) (bits : ℕ → Bool) (first count : ℕ) :
    stepPoints start step bits first (count + 1) =
      (start + first * step, bits first) :: stepPoints start step bits (first + 1) count := by
  simp [stepPoints, stepPoints, List.range'_succ]

theorem marked_stepPoints {start step : ℕ} {bits : ℕ → Bool} {rest : List (ℕ × Bool)}
    (first count a : ℕ) :
    Marked stop (stepPoints start step bits first count ++ rest) a ↔
      (∃ i, first ≤ i ∧ i < first + count ∧ bits i = true ∧ start + i * step ≤ a ∧
        a < if i + 1 < first + count then start + (i + 1) * step else nextPoint stop rest) ∨
      Marked stop rest a := by
  induction count generalizing first with
  | zero =>
    refine ⟨Or.inr, ?_⟩
    rintro (⟨i, hlo, hhi, -⟩ | h)
    · omega
    · exact h
  | succ count ih =>
    have hn : nextPoint stop (stepPoints start step bits (first + 1) count ++ rest) =
        if first + 1 < first + (count + 1) then start + (first + 1) * step
        else nextPoint stop rest := by
      cases count with
      | zero => simp [stepPoints]
      | succ count =>
        rw [if_pos (by omega)]
        rfl
    rw [stepPoints_succ, List.cons_append, Marked, ih (first + 1), hn]
    have hsum : first + 1 + count = first + (count + 1) := by omega
    rw [hsum]
    constructor
    · rintro (⟨hbit, ha⟩ | ⟨i, hlo, hhi, hin⟩ | h)
      · exact Or.inl ⟨first, le_refl _, by omega, hbit, ha⟩
      · exact Or.inl ⟨i, by omega, hhi, hin⟩
      · exact Or.inr h
    · rintro (⟨i, hlo, hhi, hin⟩ | h)
      · rcases Nat.eq_or_lt_of_le hlo with rfl | hlt
        · exact Or.inl hin
        · exact Or.inr (Or.inl ⟨i, hlt, hhi, hin⟩)
      · exact Or.inr (Or.inr h)

end Btrfs.MarkedRuns
