import Btrfs.Verification.ExtentIo.SetBits
import Btrfs.Verification.ExtentIo.ClearBits

/-! # Runs of `set_extent_bits` and `clear_extent_bits` on an empty tree -/

namespace Btrfs.ExtentIo

/-- The trees that calls on an empty tree can produce. A range to set is not empty and does
not hold `(u64)-1`, which is the `end` of no range in the range tree. -/
inductive Reachable : StateTree → Prop where
  | empty : Reachable []
  | set {tree tree' : StateTree} {start last : ℕ} {bits : StateBits} :
      Reachable tree → start ≤ last → last < u64Max →
      setExtentBits tree start last bits = .ok tree' → Reachable tree'
  | clear {tree tree' : StateTree} {start last : ℕ} {bits ret : StateBits} :
      Reachable tree → start ≤ u64Max → last ≤ u64Max →
      clearExtentBits tree start last bits = .ok (ret, tree') → Reachable tree'

variable {tree : StateTree} {start last : ℕ}

theorem Reachable.ordered (h : Reachable tree) : Ordered tree := by
  induction h with
  | empty => exact ordered_nil
  | @set tree tree' start last bits _ hle hl hc ih =>
    obtain ⟨out, hout, hresult⟩ := setExtentBits_spec bits ih hle hl
    rw [hc] at hout
    cases hout
    exact hresult.ordered
  | @clear tree tree' start last bits ret _ _ _ hc ih =>
    obtain ⟨ret', out, hout, hresult, -⟩ := clearExtentBits_spec ih start last bits
    rw [hc] at hout
    cases hout
    exact hresult.ordered

/-- A straddling state keeps its flags at the end of the range, so the call cannot have set
them there. -/
theorem SetResult.not_setOn {tree' : StateTree} {bits : StateBits} (h : Ordered tree)
    (hresult : SetResult tree start last bits tree') (hle : start ≤ last)
    (hstripe : Straddled tree last bits) : ¬ SetOn tree tree' start last bits := by
  intro hset
  have hl := hset last
  rw [if_pos ⟨hle, le_rfl⟩, hresult.wrong hstripe] at hl
  obtain ⟨s, hs, hlo, hhi, hm⟩ := hstripe
  rw [h.stateAt_eq hs hlo hhi.le] at hl
  exact hm hl.symm

/-- On every reachable tree the call returns, and it sets the flags on exactly its range if
and only if no state that lacks one of them covers both the end of the range and the offset
behind it. -/
theorem setExtentBits_pointwise_iff {tree : StateTree} {start last : ℕ} (bits : StateBits)
    (h : Reachable tree) (hle : start ≤ last) (hlast : last < u64Max) :
    (∃ tree', setExtentBits tree start last bits = .ok tree' ∧
      SetOn tree tree' start last bits) ↔ ¬ Straddled tree last bits := by
  obtain ⟨tree', hc, hresult⟩ := setExtentBits_spec bits h.ordered hle hlast
  constructor
  · rintro ⟨out, hout, hset⟩ hstripe
    rw [hc] at hout
    cases hout
    exact hresult.not_setOn h.ordered hle hstripe hset
  · intro hno
    exact ⟨tree', hc, hresult.right hno⟩

private theorem reachable_five_ten : Reachable [⟨5, 10, 1, 0⟩] :=
  Reachable.set .empty (by decide : 5 ≤ 10) (by decide)
    (rfl : setExtentBits [] 5 10 1 = .ok [⟨5, 10, 1, 0⟩])

private theorem reachable_five_ten_three : Reachable [⟨5, 10, 3, 0⟩] :=
  Reachable.set .empty (by decide : 5 ≤ 10) (by decide)
    (rfl : setExtentBits [] 5 10 3 = .ok [⟨5, 10, 3, 0⟩])

/-- Flags set from within a state up to its end, and beyond. -/
theorem setExtentBits_pointwise_overlap :
    ∃ tree', setExtentBits [⟨5, 10, 1, 0⟩] 7 12 2 = .ok tree' ∧
      SetOn [⟨5, 10, 1, 0⟩] tree' 7 12 2 :=
  (setExtentBits_pointwise_iff 2 reachable_five_ten (by decide) (by decide)).mpr (by
    rintro ⟨s, hs, hlo, hhi, -⟩
    rw [List.mem_singleton] at hs
    subst hs
    revert hhi
    decide)

/-- Setting a flag inside a state marks what lies behind the range instead. -/
theorem setExtentBits_marks_upper_half : Reachable [⟨5, 10, 1, 0⟩] ∧
    setExtentBits [⟨5, 10, 1, 0⟩] 7 8 2 = .ok [⟨5, 8, 1, 0⟩, ⟨9, 10, 3, 0⟩] ∧
    ¬ SetOn [⟨5, 10, 1, 0⟩] [⟨5, 8, 1, 0⟩, ⟨9, 10, 3, 0⟩] 7 8 2 := by
  refine ⟨reachable_five_ten, rfl, ?_⟩
  intro hset
  have h7 := hset 7
  revert h7
  decide

/-! ## Clearing on any ordered tree -/

/-- The union of the flags among `bits` of the states that meet the range. -/
def touchedBits (tree : StateTree) (start last : ℕ) (bits : StateBits) : StateBits :=
  (tree.filter fun s => decide (s.start ≤ last ∧ start ≤ s.last)).foldr
    (fun s union => (s.state &&& bits) ||| union) 0

theorem getLsbD_foldr_or (states : StateTree) (bits : StateBits) (i : ℕ) :
    (states.foldr (fun s union => (s.state &&& bits) ||| union) 0).getLsbD i = true ↔
      ∃ s ∈ states, (s.state &&& bits).getLsbD i = true := by
  induction states with
  | nil => simp
  | cons s rest ih =>
    rw [List.foldr_cons, BitVec.getLsbD_or, Bool.or_eq_true, ih]
    simp

theorem Ordered.getLsbD_touchedBits (h : Ordered tree) (hle : start ≤ last) (bits : StateBits)
    (i : ℕ) :
    (touchedBits tree start last bits).getLsbD i = true ↔
      ∃ x, start ≤ x ∧ x < last + 1 ∧ (stateAt tree x &&& bits).getLsbD i = true := by
  unfold touchedBits
  rw [getLsbD_foldr_or]
  constructor
  · rintro ⟨s, hs, hbit⟩
    simp only [List.mem_filter, decide_eq_true_eq] at hs
    obtain ⟨hmem, hmeets⟩ := hs
    have hproper := (h.proper s hmem).1
    refine ⟨max start s.start, by omega, by omega, ?_⟩
    rw [h.stateAt_eq hmem (by omega) (by omega)]
    exact hbit
  · rintro ⟨x, hlo, hhi, hbit⟩
    have hcovered : ∃ s ∈ tree, s.start ≤ x ∧ x ≤ s.last := by
      by_contra hn
      have hz := (@clears_nothing tree x (x + 1) bits (by
        intro y hy hyx s hs hcover
        obtain rfl : y = x := by omega
        exact hn ⟨s, hs, hcover⟩)).returned i
      have := hz.mpr ⟨x, le_rfl, by omega, hbit⟩
      simp at this
    obtain ⟨s, hs, h1, h2⟩ := hcovered
    rw [h.stateAt_eq hs h1 h2] at hbit
    refine ⟨s, ?_, hbit⟩
    simp only [List.mem_filter, decide_eq_true_eq]
    exact ⟨hs, by omega, by omega⟩

private theorem ordered_five_ten : Ordered [⟨5, 10, 3, 0⟩] := reachable_five_ten_three.ordered

open ExtentCache

variable {tree rest : StateTree} {s : ExtentState} {start last x : ℕ} {bits : StateBits}

def AnyIn (tree : StateTree) (start last : ℕ) (bits : StateBits) : Prop :=
  ∃ x, start ≤ x ∧ x ≤ last ∧ stateAt tree x &&& bits ≠ 0

def AllIn (tree : StateTree) (start last : ℕ) (bits : StateBits) : Prop :=
  ∀ x, start ≤ x → x ≤ last → stateAt tree x &&& bits ≠ 0

/-- The flags from the first state on: none, its own, and those of the others. -/
theorem Ordered.stateAt_first (h : Ordered (s :: rest)) :
    (∀ x < s.start, stateAt (s :: rest) x = 0) ∧
      (∀ x, s.start ≤ x → x ≤ s.last → stateAt (s :: rest) x = s.state) ∧
      ∀ x, s.last < x → stateAt (s :: rest) x = stateAt rest x := by
  have hp := h.proper s (by simp)
  refine ⟨fun x hx => stateAt_of_left _ x fun e he => ?_, fun x hlo hhi => ?_, fun x hx => ?_⟩
  · rcases List.mem_cons.mp he with rfl | he
    · exact hx
    · exact hx.trans_le (hp.1.trans (List.rel_of_pairwise_cons h.disjoint he).le)
  · rw [stateAt_cons, if_pos ⟨hlo, hhi⟩]
  · rw [stateAt_cons, if_neg (by omega)]

theorem Ordered.quiet (h : Ordered (s :: rest)) (hb : s.state &&& bits = 0) (hx : x ≤ s.last) :
    stateAt (s :: rest) x &&& bits = 0 := by
  obtain ⟨hl, hin, -⟩ := h.stateAt_first
  by_cases hlo : x < s.start
  · simp [hl x hlo]
  · rw [hin x (by omega) hx, hb]

theorem Ordered.others (h : Ordered (s :: rest)) :
    Ordered rest ∧ wrap64 (s.last + 1) = s.last + 1 ∧ ∀ e ∈ rest, s.last + 1 ≤ e.last := by
  have hp := (h.proper s (by simp)).2
  refine ⟨⟨fun e he => h.proper e (by simp [he]), h.disjoint.of_cons⟩, wrap64_of_lt ?_, fun e he => ?_⟩
  · rw [u64Max] at hp
    omega
  · exact (List.rel_of_pairwise_cons h.disjoint he).trans_le (h.proper e (by simp [he])).1

theorem testRangeFrom_any (h : Ordered tree) (hs : ∀ s ∈ tree, start ≤ s.last) :
    testRangeFrom last bits false tree start false = true ↔ AnyIn tree start last bits := by
  induction tree generalizing start with
  | nil => simp [testRangeFrom, AnyIn]
  | cons s rest ih =>
    obtain ⟨hl, hin, hr⟩ := h.stateAt_first
    obtain ⟨ho, hw, hlater⟩ := h.others
    have hs := hs s (by simp)
    have hp := (h.proper s (by simp)).1
    simp only [testRangeFrom, hw, Bool.false_and, Bool.not_false, Bool.true_or,
      Bool.false_eq_true, if_false]
    split_ifs with hend hbehind hb hla
    · exact iff_of_false (by simp) fun ⟨x, hx, hle, _⟩ => by omega
    · exact iff_of_false (by simp) fun ⟨x, _, hle, hx⟩ => hx (by simp [hl x (by omega)])
    · refine iff_of_true rfl ⟨max start s.start, by omega, by omega, ?_⟩
      rwa [hin _ (by omega) (by omega)]
    · exact iff_of_false (by simp) fun ⟨x, _, hle, hx⟩ => hx (h.quiet (not_not.mp hb) (by omega))
    · refine (ih ho hlater).trans (exists_congr fun x => ?_)
      by_cases hx : s.last < x
      · simp only [hr x hx, show s.last + 1 ≤ x from hx, show start ≤ x by omega]
      · exact iff_of_false (fun hc => by omega) fun hc =>
          hc.2.2 (h.quiet (not_not.mp hb) (not_lt.mp hx))

theorem testRangeFrom_all (h : Ordered tree) (hs : ∀ s ∈ tree, start ≤ s.last) (hle : start ≤ last)
    (bitset : Bool) :
    testRangeFrom last bits true tree start bitset = true ↔ AllIn tree start last bits := by
  induction tree generalizing start bitset with
  | nil => exact iff_of_false (by simp [testRangeFrom]) fun ha => ha start le_rfl hle (by simp)
  | cons s rest ih =>
    obtain ⟨hl, hin, hr⟩ := h.stateAt_first
    obtain ⟨ho, hw, hlater⟩ := h.others
    have hs := hs s (by simp)
    simp only [testRangeFrom, hw, Bool.true_and, decide_eq_true_eq, Bool.not_true, Bool.false_or,
      if_neg hle.not_gt]
    split_ifs with hgap hbehind hb hla
    · exact iff_of_false (by simp) fun ha => ha start le_rfl hle (by simp [hl start hgap])
    · omega
    · refine iff_of_true rfl fun x hx hxl => ?_
      rwa [hin x (by omega) (by omega)]
    · refine (ih ho hlater (by omega) true).trans (forall_congr' fun x => ?_)
      by_cases hx : s.last < x
      · simp only [hr x hx, show s.last + 1 ≤ x from hx, show start ≤ x by omega]
      · refine iff_of_true (fun hc => by omega) fun hc _ => ?_
        rwa [hin x (by omega) (by omega)]
    · exact iff_of_false (by simp) fun ha => ha start le_rfl hle (h.quiet (not_not.mp hb) hs)

theorem Ordered.testRangeBit_iff (h : Ordered tree) (hle : start ≤ last) :
    (testRangeBit tree start last bits false = true ↔ AnyIn tree start last bits) ∧
      (testRangeBit tree start last bits true = true ↔ AllIn tree start last bits) := by
  rw [testRangeBit, testRangeBit]
  cases hsearch : searchCacheExtent ExtentState.cacheNode tree start with
  | none =>
    have h0 : ∀ x, start ≤ x → stateAt tree x &&& bits = 0 := fun x hx => by
      simp [stateAt_of_right tree x fun s hs => (h.searchCacheExtent_none hsearch s hs).trans_le hx]
    exact ⟨iff_of_false (by simp) fun ⟨x, hx, _, hb⟩ => hb (h0 x hx),
      iff_of_false (by simp) fun ha => ha start le_rfl hle (h0 start le_rfl)⟩
  | some found =>
    obtain ⟨before, s, after⟩ := found
    obtain ⟨rfl, hbefore, hs⟩ := h.searchCacheExtent_some hsearch
    have hafter : Ordered (s :: after) :=
      ⟨(List.forall_mem_append.mp h.proper).2, (List.pairwise_append.mp h.disjoint).2.1⟩
    have hfrom : ∀ e ∈ s :: after, start ≤ e.last := by
      refine List.forall_mem_cons.mpr ⟨hs, fun e he => ?_⟩
      have := hafter.others.2.2 e he
      omega
    have heq : ∀ x, start ≤ x → stateAt (before ++ s :: after) x = stateAt (s :: after) x :=
      fun x hx => stateAt_append_of_right _ _ x fun e he => (hbefore e he).trans_le hx
    exact ⟨(testRangeFrom_any hafter hfrom).trans
        (exists_congr fun x => and_congr_right fun hx => by rw [heq x hx]),
      (testRangeFrom_all hafter hfrom hle false).trans
        (forall_congr' fun x => imp_congr_right fun hx => by rw [heq x hx])⟩

/-- The state found is the lowest one with a flag. -/
theorem Ordered.findFirstExtentBit_lowest (h : Ordered tree) {first end' : ℕ}
    (hf : findFirstExtentBit tree start bits = some (first, end')) :
    ∃ s ∈ tree, s.start = first ∧ s.last = end' ∧ start ≤ end' ∧ s.state &&& bits ≠ 0 ∧
      ∀ e ∈ tree, start ≤ e.last → e.state &&& bits ≠ 0 → first ≤ e.start := by
  obtain ⟨s, hs, rfl, rfl, hend, hb, hbelow⟩ := h.findFirstExtentBit_some hf
  refine ⟨s, hs, rfl, rfl, hend, hb, fun e he hst hset => ?_⟩
  have hval := h.stateAt_eq he (h.proper e he).1 le_rfl
  obtain ⟨before, after, rfl⟩ := List.append_of_mem hs
  obtain ⟨-, -, hp, hbefore, hafter, -⟩ := ordered_middle.mp h
  rcases List.mem_append.mp he with he | he
  · exact absurd (hval ▸ hbelow e.last hst (hbefore e he)) hset
  · rcases List.mem_cons.mp he with rfl | he
    · exact le_rfl
    · exact hp.1.trans (hafter e he).le

/-- The flags that a run of calls has set and not cleared since, offset by offset. -/
inductive Run : StateTree → (ℕ → StateBits) → Prop where
  | empty : Run [] fun _ => 0
  | set {tree tree' f start last bits} (h : Run tree f) (hle : start ≤ last) (hl : last < u64Max)
      (hs : ¬ Straddled tree last bits) (hc : setExtentBits tree start last bits = .ok tree') :
      Run tree' fun x => if start ≤ x ∧ x ≤ last then f x ||| bits else f x
  | clear {tree tree' f start last bits ret} (h : Run tree f)
      (hc : clearExtentBits tree start last bits = .ok (ret, tree')) :
      Run tree' fun x => if start ≤ x ∧ x ≤ last then f x &&& ~~~bits else f x

variable {f : ℕ → StateBits}

theorem Run.refines (h : Run tree f) : Ordered tree ∧ stateAt tree = f := by
  induction h with
  | empty => exact ⟨ordered_nil, rfl⟩
  | set _ hle hl hs hc ih =>
    obtain ⟨ho, rfl⟩ := ih
    obtain ⟨out, hout, hresult⟩ := setExtentBits_spec _ ho hle hl
    cases hc.symm.trans hout
    exact ⟨hresult.ordered, funext (hresult.right hs)⟩
  | clear _ hc ih =>
    obtain ⟨ho, rfl⟩ := ih
    obtain ⟨ret, out, hout, hresult, -⟩ := clearExtentBits_spec ho _ _ _
    cases hc.symm.trans hout
    exact ⟨hresult.ordered, funext hresult.cleared⟩

/-- After every run of calls the queries answer from the flags of the single offsets. -/
theorem run_queries (h : Run tree f) (hle : start ≤ last) :
    (testRangeBit tree start last bits false = true ↔
        ∃ x, start ≤ x ∧ x ≤ last ∧ f x &&& bits ≠ 0) ∧
      (testRangeBit tree start last bits true = true ↔
        ∀ x, start ≤ x → x ≤ last → f x &&& bits ≠ 0) ∧
      match findFirstExtentBit tree start bits with
      | none => ∀ x, start ≤ x → f x &&& bits = 0
      | some (first, end') => start ≤ end' ∧ first ≤ end' ∧
          (∀ x, start ≤ x → x < first → f x &&& bits = 0) ∧
          ∀ x, first ≤ x → x ≤ end' → f x &&& bits ≠ 0 := by
  obtain ⟨ho, rfl⟩ := h.refines
  refine ⟨(ho.testRangeBit_iff hle).1, (ho.testRangeBit_iff hle).2, ?_⟩
  rcases hf : findFirstExtentBit tree start bits with _ | ⟨first, end'⟩
  · exact fun x hx => ho.findFirstExtentBit_none hf hx
  · obtain ⟨s, hs, rfl, rfl, hend, hb, hbelow⟩ := ho.findFirstExtentBit_some hf
    refine ⟨hend, (ho.proper s hs).1, hbelow, fun x hlo hhi => ?_⟩
    rwa [ho.stateAt_eq hs hlo hhi]

theorem run_queries_oneCall : testRangeBit [⟨5, 10, 1, 0⟩] 6 9 1 true = true ↔
    ∀ x, 6 ≤ x → x ≤ 9 → (if 5 ≤ x ∧ x ≤ 10 then 0 ||| 1 else 0 : StateBits) &&& 1 ≠ 0 :=
  (run_queries (.set .empty (by decide) (by decide) (by simp [Straddled])
    (rfl : setExtentBits [] 5 10 1 = .ok [⟨5, 10, 1, 0⟩])) (by decide)).2.1

end Btrfs.ExtentIo
