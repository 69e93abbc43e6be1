import Btrfs.Model.ExtentIo

/-! # Pointwise meaning of an extent state tree -/

namespace Btrfs.ExtentIo

open ExtentCache

variable {tree before after : StateTree} {s : ExtentState} {x start : ℕ} {bits : StateBits}

/-! ## Well-formed trees -/

/-- The state holds at least one offset, and none of them is `(u64)-1`. -/
def ExtentState.Proper (s : ExtentState) : Prop := s.start ≤ s.last ∧ s.last < u64Max

/-- The states are proper, in order and pairwise disjoint. -/
structure Ordered (tree : StateTree) : Prop where
  proper : ∀ s ∈ tree, s.Proper
  disjoint : tree.Pairwise fun a b => a.last < b.start

theorem ordered_nil : Ordered [] := ⟨by simp, List.Pairwise.nil⟩

/-- The flags recorded for an offset: those of the state covering it, or none. -/
def stateAt (tree : StateTree) (x : ℕ) : StateBits :=
  match tree with
  | [] => 0
  | s :: rest => if s.start ≤ x ∧ x ≤ s.last then s.state else stateAt rest x

@[simp] theorem stateAt_nil (x : ℕ) : stateAt [] x = 0 := rfl

theorem stateAt_cons (s : ExtentState) (rest : StateTree) (x : ℕ) : stateAt (s :: rest) x =
      if s.start ≤ x ∧ x ≤ s.last then s.state else stateAt rest x := rfl

theorem stateAt_append_of_right (before after : StateTree) (x : ℕ) (h : ∀ s ∈ before, s.last < x) :
    stateAt (before ++ after) x = stateAt after x := by
  induction before with
  | nil => rfl
  | cons s rest ih =>
    have hs : s.last < x := h s (by simp)
    rw [List.cons_append, stateAt_cons, if_neg (by omega)]
    exact ih fun e he => h e (by simp [he])

theorem stateAt_append_of_left (before after : StateTree) (x : ℕ) (h : ∀ s ∈ after, x < s.start) :
    stateAt (before ++ after) x = stateAt before x := by
  induction before with
  | nil =>
    induction after with
    | nil => rfl
    | cons s rest ih =>
      have hs : x < s.start := h s (by simp)
      rw [List.nil_append, stateAt_cons, if_neg (by omega)]
      exact ih fun e he => h e (by simp [he])
  | cons s rest ih => rw [List.cons_append, stateAt_cons, stateAt_cons, ih]

theorem stateAt_of_left (tree : StateTree) (x : ℕ) (h : ∀ s ∈ tree, x < s.start) :
    stateAt tree x = 0 := by
  simpa using stateAt_append_of_left [] tree x h

theorem stateAt_of_right (tree : StateTree) (x : ℕ) (h : ∀ s ∈ tree, s.last < x) :
    stateAt tree x = 0 := by
  simpa using stateAt_append_of_right tree [] x h

theorem Ordered.stateAt_eq (h : Ordered tree) (hs : s ∈ tree) (hlo : s.start ≤ x) (hhi : x ≤ s.last)
    :
    stateAt tree x = s.state := by
  obtain ⟨before, after, rfl⟩ := List.append_of_mem hs
  have hd := List.pairwise_append.mp h.disjoint
  rw [stateAt_append_of_right]
  · rw [stateAt_cons, if_pos ⟨hlo, hhi⟩]
  · intro e he
    exact lt_of_lt_of_le (hd.2.2 e he s (by simp)) hlo

/-! ## Ordered trees around one state -/

theorem ordered_middle : Ordered (before ++ s :: after) ↔
      Ordered before ∧ Ordered after ∧ s.Proper ∧
      (∀ e ∈ before, e.last < s.start) ∧ (∀ e ∈ after, s.last < e.start) ∧
      (∀ e ∈ before, ∀ f ∈ after, e.last < f.start) := by
  constructor
  · rintro ⟨hp, hd⟩
    rw [List.pairwise_append, List.pairwise_cons] at hd
    obtain ⟨hb, ⟨hs, ha⟩, hba⟩ := hd
    refine ⟨⟨fun e he => hp e (by simp [he]), hb⟩, ⟨fun e he => hp e (by simp [he]), ha⟩,
      hp s (by simp), fun e he => hba e he s (by simp), hs, ?_⟩
    intro e he f hf
    exact hba e he f (by simp [hf])
  · rintro ⟨hb, ha, hs, hbs, hsa, hba⟩
    refine ⟨?_, ?_⟩
    · refine List.forall_mem_append.mpr ⟨hb.proper, fun e he => ?_⟩
      rcases List.mem_cons.mp he with rfl | he
      · exact hs
      · exact ha.proper e he
    · rw [List.pairwise_append, List.pairwise_cons]
      refine ⟨hb.disjoint, ⟨hsa, ha.disjoint⟩, ?_⟩
      intro e he f hf
      rcases List.mem_cons.mp hf with rfl | hf
      · exact hbs e he
      · exact hba e he f hf

theorem ordered_cons {rest : StateTree} :
    Ordered (s :: rest) ↔ Ordered rest ∧ s.Proper ∧ ∀ e ∈ rest, s.last < e.start := by
  rw [← List.nil_append (s :: rest), ordered_middle]
  simp [ordered_nil]

theorem Ordered.stateAt_middle (h : Ordered (before ++ s :: after)) (x : ℕ) :
    stateAt (before ++ s :: after) x =
      if x < s.start then stateAt before x
      else if x ≤ s.last then s.state else stateAt after x := by
  obtain ⟨-, -, -, hbs, hsa, hba⟩ := ordered_middle.mp h
  split_ifs with h1 h2
  · apply stateAt_append_of_left
    refine List.forall_mem_cons.mpr ⟨h1, fun e he => ?_⟩
    have hp := h.proper s (by simp)
    have := hsa e he
    exact lt_of_lt_of_le h1 (le_of_lt (lt_of_le_of_lt hp.1 this))
  · rw [stateAt_append_of_right _ _ _ fun e he => by have := hbs e he; omega, stateAt_cons,
      if_pos (by omega)]
  · rw [stateAt_append_of_right _ _ _ fun e he => by have := hbs e he; omega, stateAt_cons,
      if_neg (by omega)]

/-! ## Searching and inserting -/

theorem ExtentState.Proper.comp (hs : s.Proper) (start size : ℕ) :
    cacheTreeCompRange s.cacheNode start size =
      if s.last < start then 1 else if wrap64 (start + size) ≤ s.start then -1 else 0 := by
  obtain ⟨h1, h2⟩ := hs
  unfold u64Max at h2
  have hsi : wrap64 (s.last + 1 - s.start) = s.last + 1 - s.start := wrap64_of_lt (by omega)
  have hend : wrap64 (s.start + (s.last + 1 - s.start)) = s.last + 1 := by
    rw [wrap64_of_lt (by omega)]
    omega
  simp only [cacheTreeCompRange, ExtentState.cacheNode, hsi, hend, Nat.succ_le_iff]

theorem Ordered.splitCacheTree_eq (h : Ordered tree) (start size : ℕ) :
    splitCacheTree ExtentState.cacheNode start size tree =
      tree.span fun s => decide (s.last < start) := by
  unfold splitCacheTree
  have key : ∀ s ∈ tree, decide (0 < cacheTreeCompRange s.cacheNode start size) =
      decide (s.last < start) := by
    intro s hs
    rw [(h.proper s hs).comp]
    split_ifs with h1 h2 <;> simp [h1]
  clear h
  rw [List.span_eq_takeWhile_dropWhile, List.span_eq_takeWhile_dropWhile]
  induction tree with
  | nil => rfl
  | cons s rest ih =>
    have hs := key s (by simp)
    have hr := ih fun e he => key e (by simp [he])
    rw [Prod.mk.injEq] at hr
    simp only [List.takeWhile_cons, List.dropWhile_cons, hs, hr.1, hr.2]

theorem Ordered.span_spec (h : Ordered tree) (start : ℕ) :
    ∃ before after, (tree.span fun s => decide (s.last < start)) = (before, after) ∧
      tree = before ++ after ∧ (∀ e ∈ before, e.last < start) ∧ (∀ e ∈ after, start ≤ e.last) := by
  refine ⟨tree.takeWhile fun s => decide (s.last < start),
    tree.dropWhile fun s => decide (s.last < start), List.span_eq_takeWhile_dropWhile _ _,
    List.takeWhile_append_dropWhile.symm, ?_, ?_⟩
  · intro e he
    simpa using List.mem_takeWhile_imp he
  · induction tree with
    | nil => simp
    | cons s rest ih =>
      obtain ⟨hr, -, hs⟩ := ordered_cons.mp h
      rw [List.dropWhile_cons]
      split
      · exact ih hr
      · rename_i hl
        have hle : start ≤ s.last := by simpa using hl
        refine List.forall_mem_cons.mpr ⟨hle, fun e he => ?_⟩
        have h1 := hs e he
        have h2 := (hr.proper e he).1
        omega

theorem Ordered.searchCacheExtent_none (h : Ordered tree)
    (hsearch : searchCacheExtent ExtentState.cacheNode tree start = none) :
    ∀ s ∈ tree, s.last < start := by
  obtain ⟨before, after, hspan, rfl, hb, -⟩ := h.span_spec start
  rw [searchCacheExtent, h.splitCacheTree_eq, hspan] at hsearch
  cases after with
  | nil => simpa using hb
  | cons s rest => simp at hsearch

theorem Ordered.searchCacheExtent_some (h : Ordered tree)
    (hsearch : searchCacheExtent ExtentState.cacheNode tree start = some (before, s, after)) :
    tree = before ++ s :: after ∧ (∀ e ∈ before, e.last < start) ∧ start ≤ s.last := by
  obtain ⟨before', after', hspan, rfl, hb, ha⟩ := h.span_spec start
  rw [searchCacheExtent, h.splitCacheTree_eq, hspan] at hsearch
  cases after' with
  | nil => simp at hsearch
  | cons s' rest =>
    simp only [Option.some.injEq, Prod.mk.injEq] at hsearch
    obtain ⟨rfl, rfl, rfl⟩ := hsearch
    exact ⟨rfl, hb, ha s' (by simp)⟩

theorem Ordered.searchCacheExtent_start (h : Ordered tree) (hs : s ∈ tree) : ∃ before after,
      searchCacheExtent ExtentState.cacheNode tree s.start = some (before, s, after) := by
  have hp := (h.proper s hs).1
  cases hsearch : searchCacheExtent ExtentState.cacheNode tree s.start with
  | none =>
    have := h.searchCacheExtent_none hsearch s hs
    omega
  | some found =>
    obtain ⟨before, e, after⟩ := found
    obtain ⟨rfl, hb, he⟩ := h.searchCacheExtent_some hsearch
    rcases List.mem_append.mp hs with hs | hs
    · have := hb s hs
      omega
    · rcases List.mem_cons.mp hs with rfl | hs
      · exact ⟨before, after, rfl⟩
      · have := (ordered_middle.mp h).2.2.2.2.1 s hs
        omega

theorem Ordered.insertCacheExtent_eq (h : Ordered (before ++ after)) (hs : s.Proper)
    (hb : ∀ e ∈ before, e.last < s.start) (ha : ∀ e ∈ after, s.last < e.start) :
    insertCacheExtent ExtentState.cacheNode (before ++ after) s = some (before, after) := by
  have hsi : wrap64 (s.start + wrap64 (s.last + 1 - s.start)) = s.last + 1 := by
    have h2 := hs.2
    have h1 := hs.1
    unfold u64Max at h2
    rw [wrap64_of_lt (n := s.last + 1 - s.start) (by omega), wrap64_of_lt (by omega)]
    omega
  have hspan : ((before ++ after).span fun e => decide (e.last < s.start)) = (before, after) := by
    rw [List.span_eq_takeWhile_dropWhile]
    have hfirst : ∀ e ∈ before, decide (e.last < s.start) = true := by
      intro e he
      simpa using hb e he
    rw [List.takeWhile_append_of_pos hfirst, List.dropWhile_append_of_pos hfirst]
    cases after with
    | nil => simp
    | cons e rest =>
      have he := ha e (by simp)
      have hp := h.proper e (by simp)
      have hnot : ¬ e.last < s.start := by
        have := hs.1
        have := hp.1
        omega
      simp [hnot]
  have hsplit : splitCacheTree ExtentState.cacheNode s.cacheNode.start s.cacheNode.size
      (before ++ after) = (before, after) := by
    rw [h.splitCacheTree_eq]
    exact hspan
  rw [insertCacheExtent, hsplit]
  cases after with
  | nil => rfl
  | cons e rest =>
    have he := ha e (by simp)
    have hp := h.proper e (by simp)
    have hneg : cacheTreeCompRange e.cacheNode s.cacheNode.start s.cacheNode.size ≠ 0 := by
      rw [hp.comp]
      have h3 : wrap64 (s.cacheNode.start + s.cacheNode.size) = s.last + 1 := hsi
      split_ifs <;> omega
    simp [hneg]

/-! ## Merging -/

theorem mergePrev_spec (h : Ordered (before ++ s :: after)) :
    Ordered ((mergePrev before s).1 ++ (mergePrev before s).2 :: after) ∧
    (∀ x, stateAt ((mergePrev before s).1 ++ (mergePrev before s).2 :: after) x =
      stateAt (before ++ s :: after) x) := by
  unfold mergePrev
  cases hl : before.getLast? with
  | none => exact ⟨h, fun x => rfl⟩
  | some other =>
    simp only
    split
    · rename_i hmerge
      obtain ⟨front, rfl⟩ := List.getLast?_eq_some_iff.mp hl
      have hsplit := ordered_middle.mp h
      obtain ⟨hb, ha, hs, hbs, hsa, hba⟩ := hsplit
      have hbo := ordered_middle.mp hb
      have hother : other.last < s.start := hbs other (by simp)
      have hadj : other.last + 1 = s.start := by
        have h1 := hmerge.1
        have h2 := hs.1
        have h3 := hs.2
        unfold u64Max at h1 h3
        unfold wrap64 at h1
        omega
      have hpo := (hb.proper other (by simp)).1
      have hmid : Ordered (front ++ { s with start := other.start } :: after) := by
        refine ordered_middle.mpr ⟨hbo.1, ha, ⟨?_, hs.2⟩, hbo.2.2.2.1, hsa, ?_⟩
        · have := hs.1
          change other.start ≤ s.last
          omega
        · intro e he f hf
          exact hba e (by simp [he]) f hf
      rw [List.dropLast_concat]
      refine ⟨hmid, ?_⟩
      intro x
      rw [hmid.stateAt_middle, h.stateAt_middle, hb.stateAt_middle, ← hmerge.2]
      simp only [stateAt_nil]
      have := hs.1
      split_ifs <;> first | rfl | omega
    · exact ⟨h, fun x => rfl⟩

theorem mergeNext_spec (h : Ordered (before ++ s :: after)) :
    Ordered (before ++ mergeNext s after) ∧
    (∀ x, stateAt (before ++ mergeNext s after) x = stateAt (before ++ s :: after) x) := by
  unfold mergeNext
  cases after with
  | nil => exact ⟨h, fun x => rfl⟩
  | cons other rest =>
    simp only
    split
    · rename_i hmerge
      obtain ⟨hb, ha, hs, hbs, hsa, hba⟩ := ordered_middle.mp h
      obtain ⟨hr, hother, hor⟩ := ordered_cons.mp ha
      have hadj : other.start = s.last + 1 := by
        have h1 := hmerge.1
        have h3 := hs.2
        unfold u64Max at h3
        rwa [wrap64_of_lt (by omega)] at h1
      have hmid : Ordered (before ++ { other with start := s.start } :: rest) := by
        refine ordered_middle.mpr ⟨hb, hr, ⟨?_, hother.2⟩, hbs, hor, ?_⟩
        · have := hs.1
          have := hother.1
          change s.start ≤ other.last
          omega
        · intro e he f hf
          exact hba e he f (by simp [hf])
      refine ⟨hmid, ?_⟩
      intro x
      rw [hmid.stateAt_middle, h.stateAt_middle, stateAt_cons, ← hmerge.2]
      have := hother.1
      simp only
      split_ifs <;> first | rfl | omega
    · exact ⟨h, fun x => rfl⟩

/-- Merging keeps the order and the meaning of the tree. -/
theorem mergeState_spec (h : Ordered (before ++ s :: after)) : Ordered (mergeState before s after) ∧
    (∀ x, stateAt (mergeState before s after) x = stateAt (before ++ s :: after) x) := by
  unfold mergeState
  split
  · exact ⟨h, fun x => rfl⟩
  · obtain ⟨hp, hprevAt⟩ := mergePrev_spec h
    obtain ⟨hn, hnextAt⟩ := mergeNext_spec hp
    exact ⟨hn, fun x => (hnextAt x).trans (hprevAt x)⟩

theorem mem_mergeState {e : ExtentState} (he : e.state ≠ s.state) :
    e ∈ mergeState before s after ↔ e ∈ before ++ after := by
  have hes : e ≠ s := fun h => he (by rw [h])
  have hp : (mergePrev before s).2.state = s.state ∧ (e ∈ (mergePrev before s).1 ↔ e ∈ before) := by
    unfold mergePrev
    cases hl : before.getLast? with
    | none => simp
    | some other =>
      simp only
      split
      · rename_i hmerge
        obtain ⟨front, rfl⟩ := List.getLast?_eq_some_iff.mp hl
        have : e ≠ other := fun h => he (by rw [h, hmerge.2])
        simp [this]
      · simp
  have hn : ∀ t : ExtentState, t.state = s.state → (e ∈ mergeNext t after ↔ e ∈ after) := by
    intro t ht
    have het : e ≠ t := fun h => he (by rw [h, ht])
    unfold mergeNext
    cases after with
    | nil => simp [het]
    | cons other rest =>
      simp only
      split
      · rename_i hmerge
        have h1 : e ≠ other := fun h => he (by rw [h, hmerge.2, ht])
        have h2 : e ≠ { other with start := t.start } := by
          intro h
          apply he
          rw [h, ← ht, ← hmerge.2]
        simp [h1, h2]
      · simp [het]
  unfold mergeState
  split
  · simp [hes]
  · simp [hp.2, hn _ hp.1]

/-! ## Removing and splitting -/

theorem Ordered.remove (h : Ordered (before ++ s :: after)) : Ordered (before ++ after) ∧
    (∀ x, stateAt (before ++ after) x =
      if s.start ≤ x ∧ x ≤ s.last then 0 else stateAt (before ++ s :: after) x) := by
  obtain ⟨hb, ha, hs, hbs, hsa, hba⟩ := ordered_middle.mp h
  constructor
  · constructor
    · intro e he
      apply h.proper e
      rcases List.mem_append.mp he with he | he <;> simp [he]
    · exact List.pairwise_append.mpr ⟨hb.disjoint, ha.disjoint, hba⟩
  · intro x
    rw [h.stateAt_middle]
    by_cases hlow : x < s.start
    · have hl : ∀ e ∈ after, x < e.start := by
        intro e he
        have := hsa e he
        have := hs.1
        omega
      rw [stateAt_append_of_left _ _ _ hl, if_neg (by omega), if_pos hlow]
    · have hright : ∀ e ∈ before, e.last < x := by
        intro e he
        have := hbs e he
        omega
      rw [stateAt_append_of_right _ _ _ hright, if_neg hlow]
      by_cases hhigh : x ≤ s.last
      · rw [if_pos (by omega)]
        apply stateAt_of_left
        intro e he
        have := hsa e he
        omega
      · rw [if_neg (by omega), if_neg hhigh]

variable {split first last : ℕ}

/-- Splitting a state keeps the order and the meaning of the tree. -/
theorem Ordered.split_spec (h : Ordered (before ++ s :: after)) (prealloc : ExtentState)
    (hlo : s.start < split) (hhi : split ≤ s.last) :
    Ordered (before ++ splitLow s prealloc split :: splitHigh s split :: after) ∧
    (∀ x, stateAt (before ++ splitLow s prealloc split :: splitHigh s split :: after) x =
      stateAt (before ++ s :: after) x) := by
  obtain ⟨hb, ha, hs, hbs, hsa, hba⟩ := ordered_middle.mp h
  have hhigh : Ordered (splitHigh s split :: after) := ordered_cons.mpr ⟨ha, ⟨hhi, hs.2⟩, hsa⟩
  have hmid : Ordered (before ++ splitLow s prealloc split :: splitHigh s split :: after) := by
    refine ordered_middle.mpr ⟨hb, hhigh, ⟨?_, ?_⟩, hbs, ?_, ?_⟩
    · change s.start ≤ split - 1
      omega
    · have := hs.2
      change split - 1 < u64Max
      omega
    · intro e he
      change split - 1 < e.start
      rcases List.mem_cons.mp he with rfl | he
      · change split - 1 < split
        omega
      · have := hsa e he
        omega
    · intro e he f hf
      rcases List.mem_cons.mp hf with rfl | hf
      · exact (hbs e he).trans hlo
      · exact hba e he f hf
  refine ⟨hmid, ?_⟩
  intro x
  rw [hmid.stateAt_middle, h.stateAt_middle]
  change (if x < s.start then stateAt before x else if x ≤ split - 1 then s.state
    else if split ≤ x ∧ x ≤ s.last then s.state else stateAt after x) = _
  split_ifs <;> first | rfl | omega

theorem Ordered.splitState_eq (h : Ordered (before ++ s :: after)) (prealloc : ExtentState)
    (hlo : s.start < split) (hhi : split ≤ s.last) :
    splitState before s after prealloc split =
      .ok (before, splitLow s prealloc split, splitHigh s split, after) := by
  have hmid := (h.split_spec prealloc hlo hhi).1
  obtain ⟨-, -, hlow, hbefore, hbehind, -⟩ := ordered_middle.mp hmid
  simp [splitState, Ordered.insertCacheExtent_eq hmid.remove.1 hlow hbefore hbehind]

/-! ## Replacing the flags of one state -/

theorem Ordered.replace (h : Ordered (before ++ s :: after)) (flags : StateBits) :
    Ordered (before ++ { s with state := flags } :: after) ∧
    (∀ x, stateAt (before ++ { s with state := flags } :: after) x =
      if s.start ≤ x ∧ x ≤ s.last then flags else stateAt (before ++ s :: after) x) := by
  have hmid : Ordered (before ++ { s with state := flags } :: after) := by
    obtain ⟨hb, ha, hs, hbs, hsa, hba⟩ := ordered_middle.mp h
    exact ordered_middle.mpr ⟨hb, ha, hs, hbs, hsa, hba⟩
  refine ⟨hmid, ?_⟩
  intro x
  rw [hmid.stateAt_middle, h.stateAt_middle]
  change (if x < s.start then stateAt before x else if x ≤ s.last then flags
    else stateAt after x) = _
  split_ifs <;> first | rfl | omega

theorem behind_eq (tree : StateTree) {lastEnd : ℕ} (h : lastEnd < u64Max) :
    behind tree lastEnd = .searchAgain tree (lastEnd + 1) := by
  rw [behind, if_neg (by omega)]

/-! ## The first state with a flag -/

theorem findFirstFrom_none (hf : findFirstFrom start bits tree = none) (hx : start ≤ x) :
    stateAt tree x &&& bits = 0 := by
  induction tree with
  | nil => exact BitVec.zero_and
  | cons s rest ih =>
    rw [findFirstFrom] at hf
    split_ifs at hf with hfirst
    rw [stateAt_cons]
    split_ifs with hcovered
    · by_contra hne
      exact hfirst ⟨hx.trans hcovered.2, hne⟩
    · exact ih hf

theorem findFirstFrom_some (h : Ordered tree)
    (hf : findFirstFrom start bits tree = some (first, last)) :
    ∃ s ∈ tree, s.start = first ∧ s.last = last ∧ start ≤ last ∧ s.state &&& bits ≠ 0 ∧
      ∀ x, start ≤ x → x < first → stateAt tree x &&& bits = 0 := by
  induction tree with
  | nil => cases hf
  | cons s rest ih =>
    obtain ⟨hr, hproper, hlater⟩ := ordered_cons.mp h
    rw [findFirstFrom] at hf
    split_ifs at hf with hfirst
    · cases hf
      refine ⟨s, by simp, rfl, rfl, hfirst.1, hfirst.2, fun x _ hlt => ?_⟩
      have hl : ∀ e ∈ rest, x < e.start := by
        intro e he
        have := hlater e he
        have := hproper.1
        omega
      rw [stateAt_cons, if_neg (by omega), stateAt_of_left rest x hl]
      exact BitVec.zero_and
    · obtain ⟨e, he, hst, hla, hle, hstate, hbefore⟩ := ih hr hf
      refine ⟨e, by simp [he], hst, hla, hle, hstate, fun x hx hlt => ?_⟩
      rw [stateAt_cons]
      split_ifs with hcovered
      · by_contra hne
        exact hfirst ⟨hx.trans hcovered.2, hne⟩
      · exact hbefore x hx hlt

theorem Ordered.findFirstExtentBit_none (h : Ordered tree)
    (hf : findFirstExtentBit tree start bits = none) (hx : start ≤ x) :
    stateAt tree x &&& bits = 0 := by
  rw [findFirstExtentBit] at hf
  cases hsearch : searchCacheExtent ExtentState.cacheNode tree start with
  | none =>
    rw [stateAt_of_right tree x fun s hs => (h.searchCacheExtent_none hsearch s hs).trans_le hx]
    exact BitVec.zero_and
  | some found =>
    obtain ⟨rfl, hbefore, -⟩ := h.searchCacheExtent_some hsearch
    rw [hsearch] at hf
    rw [stateAt_append_of_right _ _ x fun e he => (hbefore e he).trans_le hx]
    exact findFirstFrom_none hf hx

theorem Ordered.findFirstExtentBit_some (h : Ordered tree)
    (hf : findFirstExtentBit tree start bits = some (first, last)) :
    ∃ s ∈ tree, s.start = first ∧ s.last = last ∧ start ≤ last ∧ s.state &&& bits ≠ 0 ∧
      ∀ x, start ≤ x → x < first → stateAt tree x &&& bits = 0 := by
  rw [findFirstExtentBit] at hf
  cases hsearch : searchCacheExtent ExtentState.cacheNode tree start with
  | none =>
    rw [hsearch] at hf
    cases hf
  | some found =>
    obtain ⟨before, s, after⟩ := found
    obtain ⟨rfl, hbefore, -⟩ := h.searchCacheExtent_some hsearch
    rw [hsearch] at hf
    have hafter : Ordered (s :: after) :=
      ⟨(List.forall_mem_append.mp h.proper).2, (List.pairwise_append.mp h.disjoint).2.1⟩
    obtain ⟨e, he, hst, hl, hle, hstate, hfirst⟩ := findFirstFrom_some hafter hf
    refine ⟨e, by simp [he], hst, hl, hle, hstate, fun x hx hlt => ?_⟩
    rw [stateAt_append_of_right _ _ x fun e he => (hbefore e he).trans_le hx]
    exact hfirst x hx hlt

end Btrfs.ExtentIo
