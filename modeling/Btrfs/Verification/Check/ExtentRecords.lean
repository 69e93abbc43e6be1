import Btrfs.Model.ExtentRecords
import Btrfs.Verification.Shared.Calls

/-! # Which record a repair follows -/

namespace Btrfs.Check

/-! ## Entries that disagree

A tie is forgotten with the next entry: the scan keeps the best entry and the last one. -/

section

variable {entries seen rest : List ExtentEntry} {e b p : ExtentEntry}

/-- The count of one entry is above that of every other one. -/
def StrictlyGreatest (entries : List ExtentEntry) (e : ExtentEntry) : Prop :=
  ∃ front behind, entries = front ++ e :: behind ∧ ∀ x ∈ front ++ behind, x.count < e.count

theorem StrictlyGreatest.mem_count (h : StrictlyGreatest entries e) :
    e ∈ entries ∧ entries.countP (fun x => e.count ≤ x.count) = 1 := by
  obtain ⟨front, behind, rfl, hbelow⟩ := h
  have hr : (front ++ behind).countP (fun x => e.count ≤ x.count) = 0 := by
    rw [List.countP_eq_zero]
    simpa using hbelow
  rw [List.countP_append] at hr
  simp [List.countP_append]
  omega

def trusted (entries : List ExtentEntry) : List ExtentEntry :=
  entries.filter fun e => e.broken ≠ e.count

theorem findMostRightLoop_trusted (best prev : Option ExtentEntry) (entries : List ExtentEntry) :
    findMostRightLoop best prev entries = findMostRightLoop best prev (trusted entries) := by
  induction entries generalizing best prev with
  | nil => rfl
  | cons e entries ih =>
    by_cases he : e.broken = e.count
    · simp [findMostRightLoop, trusted, he, ih]
    · have hc : trusted (e :: entries) = e :: trusted entries := by simp [trusted, he]
      rw [hc]
      simp [findMostRightLoop, ih]

/-- The scan has met the greatest count of the list: `best` has it, or after a tie `prev`. -/
def AtPeak (m : ℕ) : Option ExtentEntry → Option ExtentEntry → Prop
  | some b, some _ => b.count = m
  | none, some p => p.count = m
  | _, none => False

/-- The scan has not met it yet. -/
structure BelowPeak (m : ℕ) (best prev : Option ExtentEntry) : Prop where
  best_lt : ∀ b, best = some b → b.count < m
  prev_lt : ∀ p, prev = some p → p.count < m
  started : prev = none → best = none

variable {m : ℕ} {best prev : Option ExtentEntry} {init mid tail ties front : List ExtentEntry}

theorem BelowPeak.step (h : BelowPeak m best prev) (he : e.broken ≠ e.count) (hlt : e.count < m) :
    ∃ best' prev', BelowPeak m best' prev' ∧
      ∀ rest, findMostRightLoop best prev (e :: rest) = findMostRightLoop best' prev' rest := by
  obtain ⟨hbest, hprev, hstart⟩ := h
  cases prev with
  | none => exact ⟨some e, some e, ⟨by simp [hlt], by simp [hlt], by simp⟩,
      fun rest => by simp [findMostRightLoop, he]⟩
  | some p =>
    have hp := hprev p rfl
    cases best with
    | none =>
      by_cases hskip : p.broken = 0 ∧ p.count = e.count
      · exact ⟨none, some p, ⟨by simp, by simp [hp], by simp⟩,
          fun rest => by rw [findMostRightLoop, if_neg he]; simp only [hskip, and_self, if_true]⟩
      · refine ⟨some (if p.count > e.count then p else e), some e, ⟨?_, by simp [hlt], by simp⟩,
          fun rest => by rw [findMostRightLoop, if_neg he]; simp only [hskip, if_false]⟩
        intro b hb
        obtain rfl := Option.some.inj hb
        split_ifs <;> assumption
    | some b =>
      have hb := hbest b rfl
      by_cases htie : b.count = e.count
      · exact ⟨none, some e, ⟨by simp, by simp [hlt], by simp⟩,
          fun rest => by rw [findMostRightLoop, if_neg he]; simp only [htie, if_true]⟩
      by_cases hskip : p.broken = 0 ∧ p.count = e.count
      · exact ⟨some b, some p, ⟨by simp [hb], by simp [hp], by simp⟩,
          fun rest => by rw [findMostRightLoop, if_neg he]; simp only [htie, hskip, and_self, if_true,
            if_false]⟩
      · refine ⟨some (if b.count < e.count then e else b), some e, ⟨?_, by simp [hlt], by simp⟩,
          fun rest => by rw [findMostRightLoop, if_neg he]; simp only [htie, hskip, if_false]⟩
        intro c hc
        obtain rfl := Option.some.inj hc
        split_ifs <;> assumption

/-- The first entry of the greatest count becomes `best`. -/
theorem BelowPeak.peak (h : BelowPeak m best prev) (he : e.broken ≠ e.count) (heq : e.count = m) :
    findMostRightLoop best prev (e :: rest) = findMostRightLoop (some e) (some e) rest := by
  obtain ⟨hbest, hprev, hstart⟩ := h
  cases prev with
  | none =>
    obtain rfl := hstart rfl
    rw [findMostRightLoop, if_neg he]
  | some p =>
    have hp := hprev p rfl
    have hskip : ¬ (p.broken = 0 ∧ p.count = e.count) := by omega
    cases best with
    | none =>
      rw [findMostRightLoop, if_neg he]
      simp only [hskip, if_false, if_neg (show ¬ p.count > e.count by omega)]
    | some b =>
      have hb := hbest b rfl
      rw [findMostRightLoop, if_neg he]
      simp only [if_neg (show b.count ≠ e.count by omega), hskip, if_false,
        if_pos (show b.count < e.count by omega)]

theorem BelowPeak.run (h : BelowPeak m best prev) (hinit : ∀ x ∈ init, x.count < m)
    (htrust : ∀ x ∈ init ++ e :: rest, x.broken ≠ x.count) (heq : e.count = m) :
    findMostRightLoop best prev (init ++ e :: rest) = findMostRightLoop (some e) (some e) rest := by
  induction init generalizing best prev with
  | nil => exact h.peak (htrust e (by simp)) heq
  | cons x init ih =>
    obtain ⟨hx, hinit⟩ := List.forall_mem_cons.mp hinit
    obtain ⟨best', prev', hbelow, hstep⟩ := h.step (htrust x (by simp)) hx
    rw [List.cons_append, hstep]
    exact ih hbelow hinit fun y hy => htrust y (by simp_all)

/-- A smaller entry ends a tie: one of the tied entries is the best again. -/
theorem AtPeak.step_lt (h : AtPeak m best prev) (he : e.broken ≠ e.count) (hlt : e.count < m) :
    ∃ b p, b.count = m ∧ (best = some b ∨ best = none) ∧
      ∀ rest, findMostRightLoop best prev (e :: rest) = findMostRightLoop (some b) (some p) rest := by
  cases prev with
  | none => cases best <;> exact h.elim
  | some p =>
    cases best with
    | none =>
      have hp : p.count = m := h
      refine ⟨p, e, hp, Or.inr rfl, fun rest => ?_⟩
      rw [findMostRightLoop, if_neg he]
      simp only [if_neg (show ¬ (p.broken = 0 ∧ p.count = e.count) by omega),
        if_pos (show p.count > e.count by omega)]
    | some b =>
      have hb : b.count = m := h
      by_cases hskip : p.broken = 0 ∧ p.count = e.count
      · refine ⟨b, p, hb, Or.inl rfl, fun rest => ?_⟩
        rw [findMostRightLoop, if_neg he]
        simp only [if_neg (show b.count ≠ e.count by omega), hskip, and_self, if_true]
      · refine ⟨b, e, hb, Or.inl rfl, fun rest => ?_⟩
        rw [findMostRightLoop, if_neg he]
        simp only [if_neg (show b.count ≠ e.count by omega), hskip, if_false,
          if_neg (show ¬ b.count < e.count by omega)]

theorem AtPeak.step (h : AtPeak m best prev) (he : e.broken ≠ e.count) (hle : e.count ≤ m) :
    ∃ best' prev', AtPeak m best' prev' ∧
      ∀ rest, findMostRightLoop best prev (e :: rest) = findMostRightLoop best' prev' rest := by
  rcases hle.lt_or_eq with hlt | heq
  · obtain ⟨b, p, hb, -, hstep⟩ := h.step_lt he hlt
    exact ⟨some b, some p, hb, hstep⟩
  cases prev with
  | none => cases best <;> exact h.elim
  | some p =>
    cases best with
    | none =>
      have hp : p.count = m := h
      by_cases hskip : p.broken = 0 ∧ p.count = e.count
      · refine ⟨none, some p, hp, fun rest => ?_⟩
        rw [findMostRightLoop, if_neg he]
        simp only [hskip, and_self, if_true]
      · refine ⟨some e, some e, heq, fun rest => ?_⟩
        rw [findMostRightLoop, if_neg he]
        simp only [hskip, if_false, if_neg (show ¬ p.count > e.count by omega)]
    | some b =>
      have hb : b.count = m := h
      refine ⟨none, some e, heq, fun rest => ?_⟩
      rw [findMostRightLoop, if_neg he]
      simp only [if_pos (show b.count = e.count by omega)]

theorem AtPeak.run (h : AtPeak m best prev) (hle : ∀ x ∈ mid, x.count ≤ m)
    (htrust : ∀ x ∈ mid, x.broken ≠ x.count) : ∃ best' prev', AtPeak m best' prev' ∧
      ∀ rest, findMostRightLoop best prev (mid ++ rest) = findMostRightLoop best' prev' rest := by
  induction mid generalizing best prev with
  | nil => exact ⟨best, prev, h, fun rest => rfl⟩
  | cons x mid ih =>
    obtain ⟨hx, hle⟩ := List.forall_mem_cons.mp hle
    obtain ⟨hxt, htrust⟩ := List.forall_mem_cons.mp htrust
    obtain ⟨best', prev', hpeak, hstep⟩ := h.step hxt hx
    obtain ⟨best'', prev'', hpeak', hrun⟩ := ih hpeak hle htrust
    exact ⟨best'', prev'', hpeak', fun rest => by rw [List.cons_append, hstep, hrun]⟩

/-- Behind the greatest count, smaller entries change nothing. -/
theorem findMostRightLoop_smaller (hb : b.count = m) (hlt : ∀ x ∈ tail, x.count < m)
    (htrust : ∀ x ∈ tail, x.broken ≠ x.count) :
    findMostRightLoop (some b) (some p) tail = some b := by
  induction tail generalizing p with
  | nil => rfl
  | cons x tail ih =>
    obtain ⟨hx, hlt⟩ := List.forall_mem_cons.mp hlt
    obtain ⟨hxt, htrust⟩ := List.forall_mem_cons.mp htrust
    obtain ⟨b', p', -, hsame, hstep⟩ := AtPeak.step_lt (show AtPeak m (some b) (some p) from hb) hxt hx
    obtain rfl : b = b' := by simpa using hsame
    rw [hstep]
    exact ih hlt htrust

/-! A run of tied entries at the end of the list is seen as a tie if it has an odd length, or as soon
as an entry in an even place is not broken. -/

def Alternates (ties : List ExtentEntry) : Prop :=
  ties.length % 2 = 1 ∨ ∃ i e, ties[2 * i]? = some e ∧ e.broken = 0

theorem alternates_cons_cons {x y : ExtentEntry} :
    Alternates (x :: y :: ties) ↔ x.broken = 0 ∨ Alternates ties := by
  simp only [Alternates, List.length_cons, Nat.add_assoc, Nat.reduceAdd, Nat.add_mod_right]
  constructor
  · rintro (hodd | ⟨_ | i, e, hi, he⟩)
    · exact Or.inr (Or.inl hodd)
    · obtain rfl : x = e := by simpa using hi
      exact Or.inl he
    · exact Or.inr (Or.inr ⟨i, e, by simpa [Nat.mul_add] using hi, he⟩)
  · rintro (hx | hodd | ⟨i, e, hi, he⟩)
    · exact Or.inr ⟨0, x, rfl, hx⟩
    · exact Or.inl hodd
    · exact Or.inr ⟨i + 1, e, by simpa [Nat.mul_add] using hi, he⟩

theorem findMostRightLoop_unbroken (hp : p.count = m) (hbroken : p.broken = 0)
    (hties : ∀ x ∈ ties, x.count = m) (htrust : ∀ x ∈ ties, x.broken ≠ x.count) :
    findMostRightLoop none (some p) ties = none := by
  induction ties with
  | nil => rfl
  | cons x ties ih =>
    obtain ⟨hx, hties⟩ := List.forall_mem_cons.mp hties
    obtain ⟨hxt, htrust⟩ := List.forall_mem_cons.mp htrust
    rw [findMostRightLoop, if_neg hxt]
    simp only [hbroken, hp, hx, and_self, if_true]
    exact ih hties htrust

theorem findMostRightLoop_ties (ties : List ExtentEntry) (hb : b.count = m)
    (hties : ∀ x ∈ ties, x.count = m) (htrust : ∀ x ∈ ties, x.broken ≠ x.count) :
    findMostRightLoop (some b) (some p) ties = none ↔ Alternates ties := by
  induction ties using List.twoStepInduction generalizing b p with
  | nil => simp [findMostRightLoop, Alternates]
  | singleton x =>
    have htie : b.count = x.count := by rw [hb, hties x (by simp)]
    simp [findMostRightLoop, htrust x (by simp), htie, Alternates]
  | cons_cons x y ties ih _ =>
    have hx := hties x (by simp)
    have hy := hties y (by simp)
    rw [alternates_cons_cons, findMostRightLoop, if_neg (htrust x (by simp))]
    simp only [if_pos (show b.count = x.count by omega)]
    by_cases hbroken : x.broken = 0
    · rw [findMostRightLoop_unbroken hx hbroken (fun z hz => hties z (by simp_all))
        fun z hz => htrust z (by simp_all)]
      simp [hbroken]
    · rw [findMostRightLoop, if_neg (htrust y (by simp))]
      simp only [hbroken, false_and, if_false, if_neg (show ¬ x.count > y.count by omega), false_or]
      exact ih hy (fun z hz => hties z (by simp_all)) fun z hz => htrust z (by simp_all)

/-- The list up to its last run of entries with the greatest count, without the first entry that has
it. -/
structure Peaked (m : ℕ) (init : List ExtentEntry) (x : ExtentEntry) (ties : List ExtentEntry) :
    Prop where
  le : ∀ y ∈ init ++ x :: ties, y.count ≤ m
  ties_eq : ∀ y ∈ ties, y.count = m
  front : (x.count = m ∧ ∀ y ∈ init, y.count < m) ∨ x.count < m ∧ ∃ y ∈ init, y.count = m

theorem exists_peaked {l : List ExtentEntry} (hle : ∀ y ∈ l, y.count ≤ m)
    (hpeak : ∃ y ∈ l, y.count = m) :
    ∃ init x ties, l = init ++ x :: ties ∧ Peaked m init x ties := by
  induction l using List.reverseRecOn with
  | nil => simp at hpeak
  | append_singleton l z ih =>
    have hz := hle z (by simp)
    by_cases hbefore : ∃ y ∈ l, y.count = m
    · rcases hz.lt_or_eq with hlt | heq
      · exact ⟨l, z, [], rfl, hle, by simp, Or.inr ⟨hlt, hbefore⟩⟩
      · obtain ⟨init, x, ties, rfl, -, hties, hfront⟩ := ih (fun y hy => hle y (by simp [hy])) hbefore
        refine ⟨init, x, ties ++ [z], by simp, by simpa using hle, fun y hy => ?_, hfront⟩
        rcases List.mem_append.mp hy with hy | hy
        · exact hties y hy
        · rw [List.mem_singleton.mp hy, heq]
    · have hlast : z.count = m := by
        obtain ⟨y, hy, heq⟩ := hpeak
        rcases List.mem_append.mp hy with hy | hy
        · exact absurd ⟨y, hy, heq⟩ hbefore
        · rwa [← List.mem_singleton.mp hy]
      refine ⟨l, z, [], rfl, hle, by simp, Or.inl ⟨hlast, fun y hy => ?_⟩⟩
      exact lt_of_le_of_ne (hle y (by simp [hy])) fun heq => hbefore ⟨y, hy, heq⟩

theorem belowPeak_start : BelowPeak m none none :=
  ⟨by simp, by simp, fun _ => rfl⟩

theorem Peaked.loop (h : Peaked m init e ties)
    (htrust : ∀ y ∈ init ++ e :: ties, y.broken ≠ y.count) :
    findMostRightLoop none none (init ++ e :: ties) = none ↔ Alternates ties := by
  have hties : ∀ y ∈ ties, y.broken ≠ y.count := fun y hy => htrust y (by simp [hy])
  rcases h.front with ⟨heq, hbelow⟩ | ⟨hlt, hpeak⟩
  · rw [belowPeak_start.run hbelow htrust heq]
    exact findMostRightLoop_ties ties heq h.ties_eq hties
  · -- up to the first entry of the greatest count, and from there to the last smaller one
    obtain ⟨before, top, behind, rfl, hsplit⟩ : ∃ before top behind, init = before ++ top :: behind ∧
        top.count = m ∧ ∀ y ∈ before, y.count < m := by
      obtain ⟨y, hy, heq⟩ := hpeak
      have hfind : (init.find? fun y => y.count = m).isSome := by simpa using ⟨y, hy, heq⟩
      obtain ⟨top, htop⟩ := Option.isSome_iff_exists.mp hfind
      obtain ⟨htopm, before, behind, hinit, hnot⟩ := List.find?_eq_some_iff_append.mp htop
      refine ⟨before, top, behind, hinit, by simpa using htopm, fun y hy => ?_⟩
      exact lt_of_le_of_ne (h.le y (by simp [hinit, hy])) (by simpa using hnot y hy)
    rw [List.append_assoc, List.cons_append] at htrust ⊢
    rw [belowPeak_start.run hsplit.2 htrust hsplit.1]
    obtain ⟨best, prev, hat, hrun⟩ := @AtPeak.run m (some top) (some top) behind hsplit.1
      (fun y hy => h.le y (by simp [hy])) fun y hy => htrust y (by simp [hy])
    obtain ⟨b, p, hb, -, hstep⟩ := hat.step_lt (htrust e (by simp)) hlt
    rw [hrun, hstep]
    exact findMostRightLoop_ties ties hb h.ties_eq hties

theorem StrictlyGreatest.loop (h : StrictlyGreatest entries e)
    (htrust : ∀ x ∈ entries, x.broken ≠ x.count) : findMostRightLoop none none entries = some e := by
  obtain ⟨front, behind, rfl, hbelow⟩ := h
  rw [belowPeak_start.run (fun x hx => hbelow x (by simp [hx])) htrust rfl]
  exact findMostRightLoop_smaller rfl (fun x hx => hbelow x (by simp [hx]))
    fun x hx => htrust x (by simp [hx])

/-- The answer follows a strict majority. -/
def FollowsMajority (entries : List ExtentEntry) (found : Option ExtentEntry) : Prop :=
  (∀ e, found = some e → StrictlyGreatest (trusted entries) e) ∧
    (found = none → ¬ ∃ e, StrictlyGreatest (trusted entries) e)

/-- The trusted entries have one with the strictly greatest count, or they end in ties that the scan
sees. -/
def Decided (entries : List ExtentEntry) : Prop :=
  trusted entries = [] ∨ (∃ e, StrictlyGreatest (trusted entries) e) ∨
    ∃ m init x ties, trusted entries = init ++ x :: ties ∧ Peaked m init x ties ∧ Alternates ties

theorem followsMajority_iff_decided :
    FollowsMajority entries (findMostRightEntry entries) ↔ Decided entries := by
  rw [findMostRightEntry, findMostRightLoop_trusted, FollowsMajority, Decided]
  have htrust : ∀ x ∈ trusted entries, x.broken ≠ x.count := by simp [trusted]
  generalize trusted entries = l at htrust
  by_cases hempty : l = []
  · subst hempty
    simp [findMostRightLoop, StrictlyGreatest]
  by_cases hgreatest : ∃ e, StrictlyGreatest l e
  · obtain ⟨e, he⟩ := hgreatest
    rw [he.loop htrust]
    exact iff_of_true (by simp [he]) (Or.inr (Or.inl ⟨e, he⟩))
  -- no count is the strictly greatest: the answer has to be none
  have hright : ((∀ e, findMostRightLoop none none l = some e → StrictlyGreatest l e) ∧
      (findMostRightLoop none none l = none → ¬ ∃ e, StrictlyGreatest l e)) ↔
      findMostRightLoop none none l = none := by
    constructor
    · intro h
      cases hfound : findMostRightLoop none none l with
      | none => rfl
      | some e => exact absurd ⟨e, h.1 e hfound⟩ hgreatest
    · intro h
      exact ⟨by simp [h], fun _ => hgreatest⟩
  rw [hright]
  simp only [hempty, hgreatest, false_or]
  constructor
  · intro h
    obtain ⟨top, htop, hmax⟩ : ∃ top ∈ l, ∀ y ∈ l, y.count ≤ top.count := by
      obtain ⟨top, htop, hmax⟩ := l.toFinset.exists_max_image ExtentEntry.count
        (by simpa [List.toFinset_nonempty_iff] using hempty)
      exact ⟨top, by simpa using htop, fun y hy => hmax y (by simpa using hy)⟩
    obtain ⟨init, x, ties, rfl, hpeaked⟩ := exists_peaked hmax ⟨top, htop, rfl⟩
    exact ⟨_, init, x, ties, rfl, hpeaked, (hpeaked.loop htrust).mp h⟩
  · rintro ⟨m, init, x, ties, rfl, hpeaked, hties⟩
    exact (hpeaked.loop htrust).mpr hties

/-! ### What the references are rewritten to -/

/-- The entries among which a repair chooses: those of the references, and those with the record. -/
def ballots (record : ExtentRecord) (backrefs : List Backref) : List (List ExtentEntry) :=
  let refs := backrefs.filter Backref.considered
  [collectEntries refs, countEntry record.start record.nr 0 (collectEntries refs)]

theorem chooseEntry_found {record : ExtentRecord} {backrefs : List Backref}
    (h : chooseEntry record (backrefs.filter Backref.considered) = some e) :
    ∃ l ∈ ballots record backrefs, findMostRightEntry l = some e := by
  rw [chooseEntry] at h
  split at h
  next best hbest => exact ⟨_, by simp [ballots], hbest.trans h⟩
  next =>
    split_ifs at h
    exact ⟨_, by simp [ballots], h⟩

theorem verifyBackrefs_found {repairRef : ExtentEntry → Backref → ℤ} {record : ExtentRecord}
    {backrefs : List Backref} {back : Backref}
    (h : (back, e) ∈ (verifyBackrefs repairRef record backrefs).2) :
    ∃ l ∈ ballots record backrefs, findMostRightEntry l = some e := by
  simp only [verifyBackrefs] at h
  split_ifs at h
  · simp at h
  · simp at h
  split at h
  next => simp at h
  next best hbest =>
    split_ifs at h
    · simp at h
    · obtain ⟨_, _, heq⟩ := List.mem_map.mp h
      obtain rfl := (Prod.mk.inj heq).2
      exact chooseEntry_found hbest

end

/-! ## Duplicate records -/

section

variable {record good : ExtentRecord} {dups deleted front behind : List ExtentRecord}
  {started commit ret : ℤ} {outcome : ExtentRecord → ℤ}

def ExtentRecord.Contains (c r : ExtentRecord) : Prop :=
  c.start ≤ r.start ∧ r.start + r.nr ≤ c.start + c.nr

theorem ExtentRecord.Contains.trans {a b c : ExtentRecord} (hab : a.Contains b)
    (hbc : b.Contains c) : a.Contains c :=
  ⟨hab.1.trans hbc.1, hbc.2.trans hab.2⟩

variable {out : List ExtentRecord × ExtentRecord × List ExtentRecord} {records : List ExtentRecord}

theorem findGood_records (h : findGood front good behind dups = .ok out) :
    out.1 ++ out.2.1 :: out.2.2 = front ++ good :: behind ++ dups := by
  induction dups generalizing front good behind with
  | nil =>
    cases h
    simp
  | cons tmp dups ih =>
    simp only [findGood] at h
    split_ifs at h
    · simpa using ih h
    · simpa using ih h

/-- A record that contains all the others is the candidate from its turn on. -/
theorem findGood_contains (hg : good ∈ records) (hdups : ∀ r ∈ dups, r ∈ records)
    (hcovered : ∃ c ∈ good :: dups, ∀ r ∈ records, c.Contains r)
    (h : findGood front good behind dups = .ok out) : ∀ r ∈ records, out.2.1.Contains r := by
  induction dups generalizing front good behind with
  | nil =>
    cases h
    simpa using hcovered
  | cons tmp dups ih =>
    obtain ⟨c, hc, hall⟩ := hcovered
    obtain ⟨htmp, hdups⟩ := List.forall_mem_cons.mp hdups
    have hcgood := hall good hg
    have hctmp := hall tmp htmp
    simp only [ExtentRecord.Contains] at hcgood hctmp
    simp only [findGood] at h
    split_ifs at h with hskip
    · refine ih hg hdups ⟨c, ?_, hall⟩ h
      rcases List.mem_cons.mp hc with rfl | hc
      · simp
      · rcases List.mem_cons.mp hc with rfl | hc
        · omega
        · simp [hc]
    · rcases List.mem_cons.mp hc with rfl | hc
      · have hs : tmp.Contains c := by
          simp only [ExtentRecord.Contains]
          omega
        exact ih htmp hdups ⟨tmp, by simp, fun r hr => hs.trans (hall r hr)⟩ h
      · exact ih htmp hdups ⟨c, hc, hall⟩ h

/-- A duplicate begins at or before the record, is at least as long and ends before it; records that
begin at or before it, are as long and do not end before it take its place. -/
def Overtaken (good : ExtentRecord) : List ExtentRecord → Prop
  | [] => False
  | tmp :: dups =>
    if good.start < tmp.start ∨ good.nr > tmp.nr then Overtaken good dups
    else wrap64 (tmp.start + tmp.nr) < wrap64 (good.start + good.nr) ∨ Overtaken tmp dups

theorem findGood_overtaken : (∃ fault, findGood front good behind dups = .error fault) ↔
    Overtaken good dups := by
  induction dups generalizing front good behind with
  | nil => simp [findGood, Overtaken]
  | cons tmp dups ih =>
    simp only [findGood, Overtaken]
    split_ifs with hskip hends
    · exact ih
    · simp [hends]
    · simp only [hends, false_or]
      exact ih

theorem findGood_error {fault : Fault} (h : findGood front good behind dups = .error fault) :
    fault = .bug := by
  induction dups generalizing front good behind with
  | nil => cases h
  | cons tmp dups ih =>
    simp only [findGood] at h
    split_ifs at h
    · exact ih h
    · cases h
      rfl
    · exact ih h

theorem mem_of_mem_deleteRecords {r : ExtentRecord} (h : r ∈ (deleteRecords outcome records).1) :
    r ∈ records := by
  induction records with
  | nil => simp [deleteRecords] at h
  | cons tmp rest ih =>
    simp only [deleteRecords] at h
    split_ifs at h
    · exact List.mem_cons_of_mem _ (ih h)
    · simp at h
    · simp at h
    · rcases List.mem_cons.mp h with rfl | h
      · simp
      · exact List.mem_cons_of_mem _ (ih h)

theorem deleteRecords_returns (h : ∀ r ∈ records, r.foundRec = true → r.metadata = false) :
    ∃ ret, (deleteRecords outcome records).2 = .ok ret := by
  induction records with
  | nil => exact ⟨0, rfl⟩
  | cons tmp rest ih =>
    obtain ⟨htmp, hrest⟩ := List.forall_mem_cons.mp h
    simp only [deleteRecords]
    split_ifs with hrec hmeta hout
    · exact ih hrest
    · exact absurd hmeta (by simp [htmp (by simpa using hrec)])
    · exact ⟨_, rfl⟩
    · exact ih hrest

/-- Once the scan has its candidate, only other records are deleted and the candidate is kept. -/
theorem deleteDuplicateRecords_found (h : findGood [] record [] dups = .ok (front, good, behind)) :
    (∀ r ∈ (deleteDuplicateRecords started commit outcome record dups).1, r ∈ front ++ behind) ∧
      ∀ kept ret, (deleteDuplicateRecords started commit outcome record dups).2 = .ok (kept, ret) →
        kept = good := by
  simp only [deleteDuplicateRecords, h]
  split_ifs with hstarted
  · refine ⟨by simp, fun kept ret hkept => ?_⟩
    exact (Prod.mk.inj (Except.ok.inj hkept)).1.symm
  · refine ⟨fun r hr => mem_of_mem_deleteRecords hr, fun kept ret hkept => ?_⟩
    cases hresult : (deleteRecords outcome (front ++ behind)).2 with
    | error fault => simp [hresult, Except.map] at hkept
    | ok last =>
      simp only [hresult, Except.map] at hkept
      exact (Prod.mk.inj (Except.ok.inj hkept)).1.symm

theorem deleteDuplicateRecords_returns (h : findGood [] record [] dups = .ok (front, good, behind))
    (hdata : ∀ r ∈ front ++ behind, r.foundRec = true → r.metadata = false) :
    ∃ result, (deleteDuplicateRecords started commit outcome record dups).2 = .ok result := by
  obtain ⟨last, hlast⟩ := @deleteRecords_returns outcome (front ++ behind) hdata
  simp only [deleteDuplicateRecords, h]
  split_ifs with hstarted
  · exact ⟨_, rfl⟩
  · exact ⟨_, by simp only [hlast, Except.map]; rfl⟩

/-- What a repair that deletes duplicates should do: keep a record that contains all it deletes, and
abort with nothing deleted where no record contains all of them. -/
structure KeepsCover (record : ExtentRecord) (dups deleted : List ExtentRecord)
    (result : Call (ExtentRecord × ℤ)) : Prop where
  kept : ∀ good ret, result = .ok (good, ret) → good ∈ record :: dups ∧
    ∀ r ∈ deleted, r ∈ record :: dups ∧ good.Contains r
  aborts : (¬ ∃ c ∈ record :: dups, ∀ r ∈ record :: dups, c.Contains r) →
    deleted = [] ∧ result = .error .bug

end

end Btrfs.Check
