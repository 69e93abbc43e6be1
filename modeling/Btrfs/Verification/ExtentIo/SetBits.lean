import Btrfs.Verification.ExtentIo.Semantics

/-! # What `set_extent_bits` does

Every round of the loop is right except the last one of the source, which splits a state
reaching beyond the range and then sets the flags on the upper half. -/

namespace Btrfs.ExtentIo

open ExtentCache

variable {tree before after : StateTree} {s : ExtentState} {start last : ℕ} {tree' : StateTree}

/-- Some state covers both the last offset of the range and the offset behind it, and
lacks one of the flags. -/
def Straddled (tree : StateTree) (last : ℕ) (bits : StateBits) : Prop :=
  ∃ s ∈ tree, s.start ≤ last ∧ last < s.last ∧ s.state ||| bits ≠ s.state

/-- The flags after setting `bits` on `[start, last]` as the function promises. -/
def SetOn (tree tree' : StateTree) (start last : ℕ) (bits : StateBits) : Prop :=
  ∀ x, stateAt tree' x =
    if start ≤ x ∧ x ≤ last then stateAt tree x ||| bits else stateAt tree x

theorem Ordered.straddled_iff (h : Ordered tree) (hs : s ∈ tree) (hlo : s.start ≤ last)
    (hhi : last < s.last) (bits : StateBits) :
    Straddled tree last bits ↔ s.state ||| bits ≠ s.state := by
  constructor
  · rintro ⟨e, he, helo, hehi, hm⟩
    have heq : e.state = s.state :=
      (h.stateAt_eq he helo hehi.le).symm.trans (h.stateAt_eq hs hlo hhi.le)
    rwa [heq] at hm
  · intro hm
    exact ⟨s, hs, hlo, hhi, hm⟩

theorem straddled_congr {bits : StateBits}
    (h : ∀ e : ExtentState, e.state ||| bits ≠ e.state → e.start ≤ last → last < e.last →
      (e ∈ tree' ↔ e ∈ tree)) :
    Straddled tree' last bits ↔ Straddled tree last bits := by
  constructor
  · rintro ⟨e, he, hlo, hhi, hm⟩
    exact ⟨e, (h e hm hlo hhi).mp he, hlo, hhi, hm⟩
  · rintro ⟨e, he, hlo, hhi, hm⟩
    exact ⟨e, (h e hm hlo hhi).mpr he, hlo, hhi, hm⟩

private theorem or_or_self (a b : StateBits) : (a ||| b) ||| b = a ||| b := by
  rw [BitVec.or_assoc, BitVec.or_self]

/-- A state that lacks a flag is not one whose flags have just been set. -/
private theorem state_ne_of_missing {e : ExtentState} {a bits : StateBits}
    (h : e.state ||| bits ≠ e.state) : e.state ≠ a ||| bits := by
  intro heq
  exact h (by rw [heq, or_or_self])

/-! ## Setting flags on one state -/

theorem Ordered.set_merge (h : Ordered (before ++ s :: after)) (bits : StateBits) :
    let tree' := mergeState before { s with state := s.state ||| bits } after
    Ordered tree' ∧ SetOn (before ++ s :: after) tree' s.start s.last bits ∧
    (∀ e : ExtentState, e.state ||| bits ≠ e.state → e ≠ s →
      (e ∈ tree' ↔ e ∈ before ++ s :: after)) ∧
    (∀ e ∈ tree', e.state ||| bits ≠ e.state → e ∈ before ++ after) := by
  obtain ⟨hrep, hrepAt⟩ := h.replace (s.state ||| bits)
  obtain ⟨hmerge, hmergeAt⟩ := mergeState_spec hrep
  have hmem : ∀ e : ExtentState, e.state ||| bits ≠ e.state →
      (e ∈ mergeState before { s with state := s.state ||| bits } after ↔ e ∈ before ++ after) := by
    intro e hm
    exact mem_mergeState (state_ne_of_missing hm)
  refine ⟨hmerge, ?_, ?_, fun e he hm => (hmem e hm).mp he⟩
  · intro x
    rw [hmergeAt, hrepAt]
    by_cases hx : s.start ≤ x ∧ x ≤ s.last
    · simp [h.stateAt_eq (by simp) hx.1 hx.2]
    · simp [if_neg hx]
  · intro e hm hne
    rw [hmem e hm]
    simp [hne]

/-! ## Filling a hole -/

theorem Ordered.insertState_spec (h : Ordered (before ++ after)) (hle : start ≤ last)
    (hl : last < u64Max) (hb : ∀ e ∈ before, e.last < start) (ha : ∀ e ∈ after, last < e.start)
    (bits : StateBits) :
    ∃ tree', insertState (before ++ after) allocExtentState start last bits = .ok tree' ∧
      Ordered tree' ∧ SetOn (before ++ after) tree' start last bits ∧
      (∀ e : ExtentState, e.state ||| bits ≠ e.state → (e ∈ tree' ↔ e ∈ before ++ after)) := by
  let s : ExtentState := ⟨start, last, 0 ||| bits, 0⟩
  have hs : s.Proper := ⟨hle, hl⟩
  have hmid : Ordered (before ++ s :: after) := by
    obtain ⟨hp, hd⟩ := h
    rw [List.pairwise_append] at hd
    exact ordered_middle.mpr ⟨⟨fun e he => hp e (by simp [he]), hd.1⟩,
      ⟨fun e he => hp e (by simp [he]), hd.2.1⟩, hs, hb, ha, hd.2.2⟩
  have hinside := Ordered.insertCacheExtent_eq h hs hb ha
  obtain ⟨hmerge, hmergeAt⟩ := mergeState_spec hmid
  refine ⟨mergeState before s after, ?_, hmerge, ?_, ?_⟩
  · have hbug : decide (last < start) = false := by simpa using hle
    rw [insertState, hbug]
    dsimp only
    rw [show insertCacheExtent ExtentState.cacheNode (before ++ after) ⟨start, last,
      allocExtentState.state ||| bits, allocExtentState.xprivate⟩ = _ from hinside]
    rfl
  · intro x
    rw [hmergeAt, hmid.remove.2 x]
    by_cases hx : start ≤ x ∧ x ≤ last
    · rw [if_pos hx, if_pos hx, hmid.stateAt_eq (s := s) (by simp) hx.1 hx.2]
    · rw [if_neg hx, if_neg hx]
  · intro e hm
    exact mem_mergeState (state_ne_of_missing hm)

/-! ## One round -/

/-- A round that goes on: flags are set up to the new start, and whether some state
straddles the end of the range is not touched. -/
structure SetProgress (tree : StateTree) (start last : ℕ) (bits : StateBits)
    (tree' : StateTree) (start' : ℕ) : Prop where
  ordered : Ordered tree'
  bound : start ≤ start' ∧ start' ≤ last + 1
  done : ∀ x, stateAt tree' x =
    if start ≤ x ∧ x < start' then stateAt tree x ||| bits else stateAt tree x
  straddled : Straddled tree' last bits ↔ Straddled tree last bits
  advance : start < start' ∨ start' = start ∧ ∃ s ∈ tree', s.start = start ∧ last < s.last

/-- What the call and its last round leave behind: the result is right unless some state
straddles the end of the range, and then the last offset keeps its flags. -/
structure SetResult (tree : StateTree) (start last : ℕ) (bits : StateBits)
    (tree' : StateTree) : Prop where
  ordered : Ordered tree'
  right : ¬ Straddled tree last bits → SetOn tree tree' start last bits
  wrong : Straddled tree last bits → stateAt tree' last = stateAt tree last

section

variable (bits : StateBits)

section

variable (h : Ordered tree)

include h

theorem setExtentBitsRound_none (hle : start ≤ last) (hl : last < u64Max)
    (hsearch : searchCacheExtent ExtentState.cacheNode tree start = none) :
    ∃ tree', setExtentBitsRound tree start last bits = .ok (.out tree') ∧
      SetResult tree start last bits tree' := by
  have hbelow := h.searchCacheExtent_none hsearch
  have h' : Ordered (tree ++ []) := by simpa using h
  obtain ⟨tree', hinside, horder, hset, -⟩ := h'.insertState_spec hle hl hbelow (by simp) bits
  rw [List.append_nil] at hinside hset
  refine ⟨tree', ?_, horder, fun _ => hset, ?_⟩
  · rw [setExtentBitsRound, hsearch]
    simp only [hinside]
    rfl
  · rintro ⟨e, he, -, hhi, -⟩
    have := hbelow e he
    omega

section

variable (hsearch : searchCacheExtent ExtentState.cacheNode tree start = some (before, s, after))

include hsearch

theorem setExtentBitsRound_whole (hst : s.start = start) (hwhole : s.last ≤ last) :
    ∃ tree', setExtentBitsRound tree start last bits = .ok (.searchAgain tree' (s.last + 1)) ∧
      SetProgress tree start last bits tree' (s.last + 1) := by
  obtain ⟨rfl, -, hsl⟩ := h.searchCacheExtent_some hsearch
  obtain ⟨horder, hset, hmem, -⟩ := h.set_merge bits
  have hprop := h.proper s (by simp)
  refine ⟨_, ?_, horder, ?_, ?_, ?_, ?_⟩
  · rw [setExtentBitsRound, hsearch]
    simp only [hst, hwhole, and_self, if_true]
    rw [behind_eq _ hprop.2]
  · omega
  · intro x
    rw [hset x, hst]
    simp
  · apply straddled_congr
    intro e hm _ hhi
    apply hmem e hm
    rintro rfl
    omega
  · omega

theorem setExtentBitsRound_left (hst : s.start < start) (hin : s.last ≤ last) :
    ∃ tree', setExtentBitsRound tree start last bits = .ok (.searchAgain tree' (s.last + 1)) ∧
      SetProgress tree start last bits tree' (s.last + 1) := by
  obtain ⟨rfl, -, hsl⟩ := h.searchCacheExtent_some hsearch
  have hsplit := h.splitState_eq allocExtentState hst hsl
  obtain ⟨horder, hat⟩ := h.split_spec allocExtentState hst hsl
  have hprop := h.proper s (by simp)
  have horder' : Ordered ((before ++ [splitLow s allocExtentState start]) ++
      splitHigh s start :: after) := by simpa using horder
  obtain ⟨hmerge, hset, hmem, hold⟩ := horder'.set_merge bits
  refine ⟨_, ?_, hmerge, ?_, ?_, ?_, ?_⟩
  · rw [setExtentBitsRound, hsearch]
    simp only [hst, hst.ne, hsplit]
    change (if s.last ≤ last then _ else _) = _
    rw [if_pos hin, behind_eq _ hprop.2]
  · omega
  · intro x
    rw [hset x]
    simp only [List.append_assoc, List.singleton_append]
    rw [hat x]
    change (if start ≤ x ∧ x ≤ s.last then _ else _) = _
    simp
  · apply straddled_congr
    intro e hm _ hhi
    have hne : e ≠ splitHigh s start := by
      rintro rfl
      change last < s.last at hhi
      omega
    rw [hmem e hm hne]
    have hlow : e ≠ splitLow s allocExtentState start := by
      rintro rfl
      change last < start - 1 at hhi
      omega
    have hs : e ≠ s := by
      rintro rfl
      omega
    simp [hne, hlow, hs]
  · omega

end

theorem setExtentBitsRound_inside (hle : start ≤ last)
    (hsearch : searchCacheExtent ExtentState.cacheNode tree start = some (before, s, after))
    (hst : s.start < start) (hout : last < s.last) :
    ∃ tree', setExtentBitsRound tree start last bits = .ok (.searchAgain tree' start) ∧
      SetProgress tree start last bits tree' start := by
  obtain ⟨rfl, -, hsl⟩ := h.searchCacheExtent_some hsearch
  have hsplit := h.splitState_eq allocExtentState hst hsl
  obtain ⟨horder, hat⟩ := h.split_spec allocExtentState hst hsl
  refine ⟨before ++ splitLow s allocExtentState start :: splitHigh s start :: after, ?_, horder,
    ?_, ?_, ?_, ?_⟩
  · rw [setExtentBitsRound, hsearch]
    simp only [hst, hst.ne, hsplit]
    change (if s.last ≤ last then _ else _) = _
    rw [if_neg (by omega)]
    rfl
  · omega
  · intro x
    rw [hat x, if_neg (by omega)]
  · rw [horder.straddled_iff (s := splitHigh s start) (by simp) hle hout,
      h.straddled_iff (s := s) (by simp) (by omega) hout]
    rfl
  · exact Or.inr ⟨rfl, splitHigh s start, by simp, rfl, hout⟩

theorem setExtentBitsRound_hole (hle : start ≤ last) (hl : last < u64Max)
    (hsearch : searchCacheExtent ExtentState.cacheNode tree start = some (before, s, after))
    (hst : start < s.start) :
    ∃ tree' start', setExtentBitsRound tree start last bits = .ok (.searchAgain tree' start') ∧
      SetProgress tree start last bits tree' start' := by
  obtain ⟨rfl, hb, -⟩ := h.searchCacheExtent_some hsearch
  let thisEnd := if last < s.start then last else s.start - 1
  have hthis : start ≤ thisEnd ∧ thisEnd ≤ last ∧ thisEnd < s.start := by
    simp only [thisEnd]
    split_ifs <;> omega
  have hsa := (ordered_middle.mp h).2.2.2.2.1
  have hp := (h.proper s (by simp)).1
  obtain ⟨tree', hinside, horder, hset, hmem⟩ :=
    h.insertState_spec hthis.1 (lt_of_le_of_lt hthis.2.1 hl) hb (by
      refine List.forall_mem_cons.mpr ⟨hthis.2.2, fun e he => ?_⟩
      have := hsa e he
      omega) bits
  refine ⟨tree', thisEnd + 1, ?_, horder, ?_, ?_, ?_, ?_⟩
  · rw [setExtentBitsRound, hsearch]
    have h1 : ¬ (s.start = start ∧ s.last ≤ last) := by omega
    have h2 : ¬ s.start < start := by omega
    simp only [h1, h2, hst]
    change (do let tree ← insertState _ _ start thisEnd bits; _) = _
    rw [hinside]
    rfl
  · omega
  · intro x
    rw [hset x]
    simp
  · exact straddled_congr fun e hm _ _ => hmem e hm
  · omega

/-- The round that sets the flags on the wrong half. -/
theorem setExtentBitsRound_right (hle : start ≤ last)
    (hsearch : searchCacheExtent ExtentState.cacheNode tree start = some (before, s, after))
    (hst : s.start = start) (hout : last < s.last) :
    ∃ tree', setExtentBitsRound tree start last bits = .ok (.out tree') ∧
      SetResult tree start last bits tree' := by
  obtain ⟨rfl, -, -⟩ := h.searchCacheExtent_some hsearch
  subst hst
  have hlo : s.start < last + 1 := by omega
  have hsplit := h.splitState_eq allocExtentState hlo hout
  obtain ⟨horder, hat⟩ := h.split_spec allocExtentState hlo hout
  let low := splitLow s allocExtentState (last + 1)
  let high := splitHigh s (last + 1)
  have horder' : Ordered ((before ++ [low]) ++ high :: after) := by simpa using horder
  obtain ⟨hrep, hrepAt⟩ := horder'.replace (high.state ||| bits)
  rw [List.append_assoc, List.singleton_append] at hrep hrepAt
  obtain ⟨hmerge, hmergeAt⟩ := mergeState_spec hrep
  have hstates : ∀ x, stateAt (mergeState before low
      ({ high with state := high.state ||| bits } :: after)) x =
        if last < x ∧ x ≤ s.last then s.state ||| bits else stateAt (before ++ s :: after) x := by
    intro x
    rw [hmergeAt x, hrepAt x, List.append_assoc, List.singleton_append, hat x]
    rfl
  refine ⟨_, ?_, hmerge, ?_, ?_⟩
  · rw [setExtentBitsRound, hsearch]
    have h1 : ¬ s.last ≤ last := by omega
    simp only [h1, lt_irrefl, hsplit]
    rfl
  · intro hno x
    rw [h.straddled_iff (s := s) (by simp) hle hout, not_not] at hno
    rw [hstates x]
    by_cases hx : s.start ≤ x ∧ x ≤ s.last
    · have hsx := h.stateAt_eq (s := s) (by simp) hx.1 hx.2
      rw [hsx, hno]
      simp
    · rw [if_neg (by omega), if_neg (by omega)]
  · intro _
    rw [hstates last, if_neg (by omega)]

theorem setExtentBitsRound_spec (hle : start ≤ last) (hl : last < u64Max) :
    (∃ tree', setExtentBitsRound tree start last bits = .ok (.out tree') ∧
      SetResult tree start last bits tree') ∨
    (∃ tree' start', setExtentBitsRound tree start last bits = .ok (.searchAgain tree' start') ∧
      SetProgress tree start last bits tree' start') := by
  cases hsearch : searchCacheExtent ExtentState.cacheNode tree start with
  | none => exact Or.inl (setExtentBitsRound_none bits h hle hl hsearch)
  | some found =>
    obtain ⟨before, s, after⟩ := found
    rcases lt_trichotomy s.start start with hlt | heq | hgt
    · by_cases hin : s.last ≤ last
      · obtain ⟨tree', hr, hp⟩ := setExtentBitsRound_left bits h hsearch hlt hin
        exact Or.inr ⟨tree', _, hr, hp⟩
      · obtain ⟨tree', hr, hp⟩ :=
          setExtentBitsRound_inside bits h hle hsearch hlt (by omega)
        exact Or.inr ⟨tree', _, hr, hp⟩
    · by_cases hin : s.last ≤ last
      · obtain ⟨tree', hr, hp⟩ := setExtentBitsRound_whole bits h hsearch heq hin
        exact Or.inr ⟨tree', _, hr, hp⟩
      · exact Or.inl (setExtentBitsRound_right bits h hle hsearch heq (by omega))
    · exact Or.inr (setExtentBitsRound_hole bits h hle hl hsearch hgt)

end

end

/-! ## The whole loop -/

theorem SetProgress.result {mid : StateTree} {start' : ℕ} {bits : StateBits}
    (hp : SetProgress tree start last bits mid start')
    (hn : SetResult mid start' last bits tree') (hle : start' ≤ last) :
    SetResult tree start last bits tree' := by
  have hb := hp.bound
  refine ⟨hn.ordered, ?_, ?_⟩
  · intro hno x
    rw [hn.right (fun h => hno (hp.straddled.mp h)) x, hp.done x]
    split_ifs <;> first | rfl | omega
  · intro hyes
    rw [hn.wrong (hp.straddled.mpr hyes), hp.done last, if_neg (by omega)]

theorem SetProgress.finished {start' : ℕ} {bits : StateBits}
    (hp : SetProgress tree start last bits tree' start') (hle : start ≤ last)
    (hlt : last < start') : SetResult tree start last bits tree' := by
  have hb := hp.bound
  have hset : SetOn tree tree' start last bits := by
    intro x
    rw [hp.done x]
    have : start' = last + 1 := by omega
    simp [this]
  refine ⟨hp.ordered, fun _ => hset, ?_⟩
  intro hyes
  -- a straddling state would still lack a flag at `last`, which has just been set there
  obtain ⟨s, hs, hlo, hhi, hm⟩ := hp.straddled.mpr hyes
  have hat := hp.ordered.stateAt_eq hs hlo hhi.le
  rw [hset last, if_pos ⟨hle, le_rfl⟩] at hat
  rw [← hat, or_or_self] at hm
  exact absurd rfl hm

theorem setExtentBitsLoop_spec (n : ℕ) {bits : StateBits} (h : Ordered tree) (hle : start ≤ last)
    (hla : last < u64Max) (hn : last + 2 ≤ n + start ∨
      1 ≤ n ∧ ∃ s ∈ tree, s.start = start ∧ last < s.last) :
    ∃ tree', setExtentBitsLoop last bits n tree start = .ok tree' ∧
      SetResult tree start last bits tree' := by
  induction n generalizing tree start with
  | zero => omega
  | succ n ih =>
    rcases setExtentBitsRound_spec bits h hle hla with
      ⟨tree', hround, hout⟩ | ⟨mid, start', hround, hp⟩
    · refine ⟨tree', ?_, hout⟩
      simp only [setExtentBitsLoop, hround]
      rfl
    · by_cases hlt : last < start'
      · refine ⟨mid, ?_, hp.finished hle hlt⟩
        simp only [setExtentBitsLoop, hround]
        exact if_pos hlt
      · have hfuel : last + 2 ≤ n + start' ∨
            1 ≤ n ∧ ∃ s ∈ mid, s.start = start' ∧ last < s.last := by
          rcases hn with hn | ⟨-, s, hs, hss, hsl⟩
          · rcases hp.advance with hadv | ⟨heq, s, hs, hss, hsl⟩
            · omega
            · right
              exact ⟨by omega, s, hs, by omega, hsl⟩
          · obtain ⟨before, after, hsearch⟩ := h.searchCacheExtent_start hs
            rw [hss] at hsearch
            obtain ⟨tree', hr, -⟩ := setExtentBitsRound_right bits h hle hsearch hss hsl
            rw [hr] at hround
            cases hround
        obtain ⟨tree', hl, hresult⟩ := ih hp.ordered (by omega) hfuel
        refine ⟨tree', ?_, hp.result hresult (by omega)⟩
        simp only [setExtentBitsLoop, hround]
        exact (if_neg hlt).trans hl

theorem setExtentBits_spec (bits : StateBits) (h : Ordered tree) (hle : start ≤ last)
    (hl : last < u64Max) :
    ∃ tree', setExtentBits tree start last bits = .ok tree' ∧
      SetResult tree start last bits tree' :=
  setExtentBitsLoop_spec _ h hle hl (Or.inl (by unfold rounds; omega))

end Btrfs.ExtentIo
