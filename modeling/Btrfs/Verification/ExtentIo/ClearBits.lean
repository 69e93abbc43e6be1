import Btrfs.Verification.ExtentIo.Semantics

/-! # What `clear_extent_bits` does -/

namespace Btrfs.ExtentIo

open ExtentCache

variable {tree' mid : StateTree} {ret : StateBits} {start' stop : ℕ} {tree before after : StateTree}
  {s : ExtentState} {start last : ℕ}

/-- The flags after clearing `bits` on `[start, last]`. -/
def ClearOn (tree tree' : StateTree) (start last : ℕ) (bits : StateBits) : Prop :=
  ∀ x, stateAt tree' x =
    if start ≤ x ∧ x ≤ last then stateAt tree x &&& ~~~bits else stateAt tree x

def ZeroAt (tree : StateTree) (x : ℕ) : Prop := ∃ e ∈ tree, e.start ≤ x ∧ x ≤ e.last ∧ e.state = 0

/-- What clearing the offsets from `start` up to `stop` returns, and that it leaves no state
without flags there. -/
structure Clears (tree : StateTree) (start stop : ℕ) (bits ret : StateBits) (tree' : StateTree) :
    Prop where
  returned : ∀ i, ret.getLsbD i = true ↔
    ∃ x, start ≤ x ∧ x < stop ∧ (stateAt tree x &&& bits).getLsbD i = true
  zero : ∀ x, ZeroAt tree' x ↔ ZeroAt tree x ∧ ¬ (start ≤ x ∧ x < stop)

theorem clears_nothing {tree : StateTree} {start stop : ℕ} (bits : StateBits)
    (hn : ∀ x, start ≤ x → x < stop → ∀ e ∈ tree, ¬ (e.start ≤ x ∧ x ≤ e.last)) :
    Clears tree start stop bits 0 tree := by
  have hflags : ∀ x, start ≤ x → x < stop → stateAt tree x = 0 := by
    intro x hlo hhi
    have hx := hn x hlo hhi
    clear hn
    induction tree with
    | nil => rfl
    | cons e rest ih =>
      rw [stateAt_cons, if_neg (hx e (by simp))]
      exact ih fun f hf => hx f (by simp [hf])
  constructor
  · intro i
    constructor
    · simp
    · rintro ⟨x, hlo, hhi, hbit⟩
      simp [hflags x hlo hhi] at hbit
  · intro x
    constructor
    · intro hz
      refine ⟨hz, ?_⟩
      rintro ⟨hlo, hhi⟩
      obtain ⟨e, he, h1, h2, -⟩ := hz
      exact hn x hlo hhi e he ⟨h1, h2⟩
    · exact fun h => h.1

theorem Clears.trans {stop' : ℕ} {bits ret' : StateBits} (h : Clears tree start stop bits ret mid)
    (h' : Clears mid stop stop' bits ret' tree') (hle : start ≤ stop) (hle' : stop ≤ stop')
    (hk : ∀ x, stop ≤ x → stateAt mid x = stateAt tree x) :
    Clears tree start stop' bits (ret ||| ret') tree' := by
  constructor
  · intro i
    rw [BitVec.getLsbD_or, Bool.or_eq_true, h.returned, h'.returned]
    constructor
    · rintro (⟨x, hlo, hhi, hbit⟩ | ⟨x, hlo, hhi, hbit⟩)
      · exact ⟨x, hlo, by omega, hbit⟩
      · rw [hk x hlo] at hbit
        exact ⟨x, by omega, hhi, hbit⟩
    · rintro ⟨x, hlo, hhi, hbit⟩
      by_cases hx : x < stop
      · exact Or.inl ⟨x, hlo, hx, hbit⟩
      · rw [← hk x (by omega)] at hbit
        exact Or.inr ⟨x, by omega, hhi, hbit⟩
  · intro x
    rw [h'.zero, h.zero, and_assoc]
    apply and_congr_right
    omega

/-! ## Clearing one state -/

section

variable (h : Ordered (before ++ s :: after))

include h

theorem Ordered.clearStateBit_spec (bits : StateBits) :
    Ordered (clearStateBit before s after bits).2 ∧
    ClearOn (before ++ s :: after) (clearStateBit before s after bits).2 s.start s.last bits := by
  have hflags : ∀ x, s.start ≤ x ∧ x ≤ s.last → stateAt (before ++ s :: after) x = s.state := by
    intro x hx
    exact h.stateAt_eq (by simp) hx.1 hx.2
  unfold clearStateBit
  simp only
  split
  · rename_i hz
    obtain ⟨horder, hat⟩ := h.remove
    refine ⟨horder, ?_⟩
    intro x
    rw [hat x]
    split
    · rename_i hx
      rw [hflags x hx, hz]
    · rfl
  · obtain ⟨hrep, hrepAt⟩ := h.replace (s.state &&& ~~~bits)
    obtain ⟨horder, hat⟩ := mergeState_spec hrep
    refine ⟨horder, ?_⟩
    intro x
    rw [hat x, hrepAt x]
    split
    · rename_i hx
      rw [hflags x hx]
    · rfl

theorem Ordered.zeroAt_around (x : ℕ) : ZeroAt (before ++ after) x ↔
      ZeroAt (before ++ s :: after) x ∧ ¬ (s.start ≤ x ∧ x < s.last + 1) := by
  obtain ⟨-, -, -, hbs, hsa, -⟩ := ordered_middle.mp h
  constructor
  · rintro ⟨e, he, h1, h2, h3⟩
    rcases List.mem_append.mp he with he | he
    · have := hbs e he
      exact ⟨⟨e, by simp [he], h1, h2, h3⟩, by omega⟩
    · have := hsa e he
      exact ⟨⟨e, by simp [he], h1, h2, h3⟩, by omega⟩
  · rintro ⟨⟨e, he, h1, h2, h3⟩, hout⟩
    rcases List.mem_append.mp he with he | he
    · exact ⟨e, by simp [he], h1, h2, h3⟩
    · rcases List.mem_cons.mp he with rfl | he
      · omega
      · exact ⟨e, by simp [he], h1, h2, h3⟩

theorem Ordered.clearStateBit_clears (bits : StateBits) :
    Clears (before ++ s :: after) s.start (s.last + 1) bits (clearStateBit before s after bits).1
      (clearStateBit before s after bits).2 := by
  have hs := (h.proper s (by simp)).1
  constructor
  · intro i
    constructor
    · intro hbit
      refine ⟨s.start, le_rfl, by omega, ?_⟩
      rw [h.stateAt_eq (by simp) le_rfl hs]
      exact hbit
    · rintro ⟨x, hlo, hhi, hbit⟩
      rw [h.stateAt_eq (s := s) (by simp) hlo (by omega)] at hbit
      exact hbit
  · intro x
    rw [← h.zeroAt_around x]
    unfold clearStateBit
    simp only
    split
    · rfl
    · rename_i hflags
      -- a merge takes no state without flags
      have hmem : ∀ e : ExtentState, e.state = 0 →
          (e ∈ mergeState before { s with state := s.state &&& ~~~bits } after ↔
            e ∈ before ++ after) := by
        intro e he
        apply mem_mergeState
        rw [he]
        exact fun heq => hflags heq.symm
      constructor
      · rintro ⟨e, he, h1, h2, h3⟩
        exact ⟨e, (hmem e h3).mp he, h1, h2, h3⟩
      · rintro ⟨e, he, h1, h2, h3⟩
        exact ⟨e, (hmem e h3).mpr he, h1, h2, h3⟩

end

theorem zeroAt_split (prealloc : ExtentState) {split : ℕ} (hlo : s.start < split)
    (hhi : split ≤ s.last) (x : ℕ) :
    ZeroAt (before ++ splitLow s prealloc split :: splitHigh s split :: after) x ↔
      ZeroAt (before ++ s :: after) x := by
  constructor
  · rintro ⟨e, he, h1, h2, h3⟩
    rcases List.mem_append.mp he with he | he
    · exact ⟨e, by simp [he], h1, h2, h3⟩
    · rcases List.mem_cons.mp he with rfl | he
      · change x ≤ split - 1 at h2
        exact ⟨s, by simp, h1, by omega, h3⟩
      · rcases List.mem_cons.mp he with rfl | he
        · change split ≤ x at h1
          exact ⟨s, by simp, by omega, h2, h3⟩
        · exact ⟨e, by simp [he], h1, h2, h3⟩
  · rintro ⟨e, he, h1, h2, h3⟩
    rcases List.mem_append.mp he with he | he
    · exact ⟨e, by simp [he], h1, h2, h3⟩
    · rcases List.mem_cons.mp he with rfl | he
      · by_cases hx : x < split
        · refine ⟨splitLow e prealloc split, by simp, h1, ?_, h3⟩
          change x ≤ split - 1
          omega
        · refine ⟨splitHigh e split, by simp, ?_, h2, h3⟩
          change split ≤ x
          omega
      · exact ⟨e, by simp [he], h1, h2, h3⟩

theorem Clears.congr {bits : StateBits} (h : Clears mid start stop bits ret tree')
    (hat : ∀ x, stateAt mid x = stateAt tree x) (hz : ∀ x, ZeroAt mid x ↔ ZeroAt tree x) :
    Clears tree start stop bits ret tree' := by
  constructor
  · intro i
    rw [h.returned]
    simp only [hat]
  · intro x
    rw [h.zero, hz]

/-! ## One round -/

/-- A round that goes on: flags are cleared up to the new start. -/
structure ClearProgress (tree : StateTree) (start last : ℕ) (bits : StateBits)
    (tree' : StateTree) (start' : ℕ) : Prop where
  ordered : Ordered tree'
  done : ∀ x, stateAt tree' x =
    if start ≤ x ∧ x < start' then stateAt tree x &&& ~~~bits else stateAt tree x
  advance : start < start' ∧ start' ≤ last + 1 ∨
    start' = start ∧ ∃ s ∈ tree', s.start = start ∧ last < s.last

/-- What the call and its last round leave behind. -/
structure ClearResult (tree : StateTree) (start last : ℕ) (bits : StateBits)
    (tree' : StateTree) : Prop where
  ordered : Ordered tree'
  cleared : ClearOn tree tree' start last bits

section

variable (h : Ordered (before ++ s :: after)) (hb : ∀ e ∈ before, e.last < start)

include h hb

theorem Ordered.stateAt_hole {x : ℕ} (hx : start ≤ x) (hxs : x < s.start) :
    stateAt (before ++ s :: after) x = 0 := by
  rw [h.stateAt_middle, if_pos hxs]
  apply stateAt_of_right
  intro e he
  have := hb e he
  omega

theorem Ordered.hole :
    ∀ x, start ≤ x → x < s.start → ∀ e ∈ before ++ s :: after, ¬ (e.start ≤ x ∧ x ≤ e.last) := by
  intro x hx hxs e he
  obtain ⟨-, -, hs, -, hsa, -⟩ := ordered_middle.mp h
  have := hs.1
  rcases List.mem_append.mp he with he | he
  · have := hb e he
    omega
  · rcases List.mem_cons.mp he with rfl | he
    · omega
    · have := hsa e he
      omega

/-- The search skips the offsets before the state it finds. -/
theorem Ordered.clears_behind_hole {bits : StateBits} (hle : start ≤ s.start) (hs : s.start ≤ stop)
    (hclear : Clears (before ++ s :: after) s.start stop bits ret tree') :
    Clears (before ++ s :: after) start stop bits ret tree' := by
  have hskip := clears_nothing bits (h.hole hb)
  have hret : (0 : StateBits) ||| ret = ret := BitVec.zero_or
  rw [← hret]
  exact hskip.trans hclear hle hs fun _ _ => rfl

end

/-- Clearing reaches no further when the rest of the range carries no flags. -/
theorem ClearOn.widen {last' : ℕ} {bits : StateBits} (h : ClearOn tree tree' start' last' bits)
    (hlo : start ≤ start') (hhi : last' ≤ last)
    (hn : ∀ x, start ≤ x → x ≤ last → ¬ (start' ≤ x ∧ x ≤ last') → stateAt tree x = 0) :
    ClearOn tree tree' start last bits := by
  intro x
  rw [h x]
  by_cases hin : start' ≤ x ∧ x ≤ last'
  · rw [if_pos hin, if_pos (by omega)]
  · rw [if_neg hin]
    split
    · rename_i hx
      rw [hn x hx.1 hx.2 hin]
      exact BitVec.zero_and.symm
    · rfl

theorem clearOn_nothing (bits : StateBits) (hn : ∀ x, start ≤ x → x ≤ last → stateAt tree x = 0) :
    ClearOn tree tree start last bits := by
  intro x
  split
  · rename_i hx
    rw [hn x hx.1 hx.2]
    exact BitVec.zero_and.symm
  · rfl

section

variable (bits : StateBits)

section

variable (h : Ordered tree)

include h

theorem clearExtentBitsRound_none
    (hsearch : searchCacheExtent ExtentState.cacheNode tree start = none) :
    clearExtentBitsRound tree start last bits = .ok (0, .out tree) ∧
      ClearResult tree start last bits tree ∧ Clears tree start (last + 1) bits 0 tree := by
  have hright := h.searchCacheExtent_none hsearch
  refine ⟨by rw [clearExtentBitsRound, hsearch], ⟨h, clearOn_nothing bits ?_⟩, clears_nothing bits ?_⟩
  · intro x hx _
    apply stateAt_of_right
    intro e he
    exact lt_of_lt_of_le (hright e he) hx
  · intro x hx _ e he
    have := hright e he
    omega

section

variable (hsearch : searchCacheExtent ExtentState.cacheNode tree start = some (before, s, after))

include hsearch

theorem clearExtentBitsRound_beyond (hout : last < s.start) :
    clearExtentBitsRound tree start last bits = .ok (0, .out tree) ∧
      ClearResult tree start last bits tree ∧ Clears tree start (last + 1) bits 0 tree := by
  obtain ⟨rfl, hb, -⟩ := h.searchCacheExtent_some hsearch
  refine ⟨?_, ⟨h, clearOn_nothing bits ?_⟩, clears_nothing bits ?_⟩
  · rw [clearExtentBitsRound, hsearch]
    simp [hout]
  · intro x hx hxl
    exact h.stateAt_hole hb hx (by omega)
  · intro x hx hxl
    exact h.hole hb x hx (by omega)

theorem clearExtentBitsRound_left (hst : s.start < start) (hin : s.last ≤ last) :
    ∃ ret tree', clearExtentBitsRound tree start last bits =
        .ok (ret, .searchAgain tree' (s.last + 1)) ∧
      ClearProgress tree start last bits tree' (s.last + 1) ∧
      Clears tree start (s.last + 1) bits ret tree' := by
  obtain ⟨rfl, -, hsl⟩ := h.searchCacheExtent_some hsearch
  have hsplit := h.splitState_eq allocExtentState hst hsl
  obtain ⟨horder, hat⟩ := h.split_spec allocExtentState hst hsl
  have hprop := h.proper s (by simp)
  have horder' : Ordered ((before ++ [splitLow s allocExtentState start]) ++
      splitHigh s start :: after) := by simpa using horder
  obtain ⟨hcle, hclearAt⟩ := horder'.clearStateBit_spec bits
  have hclear := horder'.clearStateBit_clears bits
  refine ⟨s.state &&& bits, _, ?_, ⟨hcle, ?_, Or.inl (by omega)⟩,
    hclear.congr (by simpa using hat) (by simpa using zeroAt_split allocExtentState hst hsl)⟩
  · rw [clearExtentBitsRound, hsearch]
    have h1 : ¬ last < s.start := by omega
    simp only [h1, hst, hsplit]
    change (if s.last ≤ last then _ else _) = _
    rw [if_pos hin, behind_eq _ hprop.2]
    rfl
  · intro x
    rw [hclearAt x]
    simp only [List.append_assoc, List.singleton_append]
    rw [hat x]
    change (if start ≤ x ∧ x ≤ s.last then _ else _) = _
    simp

theorem clearExtentBitsRound_inside
    (hst : s.start < start) (hreach : s.start ≤ last) (hout : last < s.last) :
    ∃ tree', clearExtentBitsRound tree start last bits = .ok (0, .searchAgain tree' start) ∧
      ClearProgress tree start last bits tree' start ∧ Clears tree start start bits 0 tree' := by
  obtain ⟨rfl, -, hsl⟩ := h.searchCacheExtent_some hsearch
  have hsplit := h.splitState_eq allocExtentState hst hsl
  obtain ⟨horder, hat⟩ := h.split_spec allocExtentState hst hsl
  have hn := @clears_nothing
    (before ++ splitLow s allocExtentState start :: splitHigh s start :: after) start start bits
    (by omega)
  refine ⟨before ++ splitLow s allocExtentState start :: splitHigh s start :: after, ?_, ⟨horder,
    ?_, Or.inr ⟨rfl, splitHigh s start, by simp, rfl, hout⟩⟩,
    hn.congr hat (zeroAt_split allocExtentState hst hsl)⟩
  · rw [clearExtentBitsRound, hsearch]
    have h1 : ¬ last < s.start := by omega
    simp only [h1, hst, hsplit]
    change (if s.last ≤ last then _ else _) = _
    rw [if_neg (by omega)]
    rfl
  · intro x
    rw [hat x, if_neg (by omega)]

theorem clearExtentBitsRound_right
    (hst : start ≤ s.start) (hreach : s.start ≤ last) (hout : last < s.last) :
    ∃ ret tree', clearExtentBitsRound tree start last bits = .ok (ret, .out tree') ∧
      ClearResult tree start last bits tree' ∧ Clears tree start (last + 1) bits ret tree' := by
  obtain ⟨rfl, hb, -⟩ := h.searchCacheExtent_some hsearch
  have hlo : s.start < last + 1 := by omega
  have hsplit := h.splitState_eq allocExtentState hlo hout
  obtain ⟨horder, hat⟩ := h.split_spec allocExtentState hlo hout
  obtain ⟨hcle, hclearAt⟩ := horder.clearStateBit_spec bits
  have hlow : ClearOn (before ++ s :: after) (clearStateBit before
      (splitLow s allocExtentState (last + 1)) (splitHigh s (last + 1) :: after) bits).2
      s.start last bits := by
    intro x
    rw [hclearAt x, hat x]
    rfl
  have hclear : Clears (before ++ s :: after) s.start (last + 1) bits (s.state &&& bits) _ :=
    (horder.clearStateBit_clears bits).congr hat (zeroAt_split allocExtentState hlo hout)
  refine ⟨s.state &&& bits, _, ?_, ⟨hcle, hlow.widen hst le_rfl ?_⟩,
    h.clears_behind_hole hb hst (by omega) hclear⟩
  · rw [clearExtentBitsRound, hsearch]
    have h1 : ¬ last < s.start := by omega
    have h2 : ¬ s.start < start := by omega
    simp only [h1, h2, hreach, hout, hsplit]
    rfl
  · intro x hx hxl hnot
    exact h.stateAt_hole hb hx (by omega)

theorem clearExtentBitsRound_whole (hst : start ≤ s.start) (hwhole : s.last ≤ last) :
    ∃ ret tree', clearExtentBitsRound tree start last bits =
        .ok (ret, .searchAgain tree' (s.last + 1)) ∧
      ClearProgress tree start last bits tree' (s.last + 1) ∧
      Clears tree start (s.last + 1) bits ret tree' := by
  obtain ⟨rfl, hb, hsl⟩ := h.searchCacheExtent_some hsearch
  have hprop := h.proper s (by simp)
  obtain ⟨hclear, hclearAt⟩ := h.clearStateBit_spec bits
  have hle := hprop.1
  have hwide : ClearOn _ _ start s.last bits := hclearAt.widen hst le_rfl (by
    intro x hx hxl hnot
    exact h.stateAt_hole hb hx (by omega))
  refine ⟨s.state &&& bits, _, ?_, ⟨hclear, ?_, Or.inl (by omega)⟩,
    h.clears_behind_hole hb hst (by omega) (h.clearStateBit_clears bits)⟩
  · rw [clearExtentBitsRound, hsearch]
    have h1 : ¬ last < s.start := by omega
    have h2 : ¬ s.start < start := by omega
    have h3 : ¬ (s.start ≤ last ∧ last < s.last) := by omega
    simp only [h1, h2, h3]
    rw [behind_eq _ hprop.2]
    rfl
  · intro x
    rw [hwide x]
    simp

end

theorem clearExtentBitsRound_spec (start last : ℕ) :
    (∃ ret tree', clearExtentBitsRound tree start last bits = .ok (ret, .out tree') ∧
      ClearResult tree start last bits tree' ∧ Clears tree start (last + 1) bits ret tree') ∨
    (∃ ret tree' start', clearExtentBitsRound tree start last bits =
        .ok (ret, .searchAgain tree' start') ∧
      ClearProgress tree start last bits tree' start' ∧ Clears tree start start' bits ret tree') := by
  cases hsearch : searchCacheExtent ExtentState.cacheNode tree start with
  | none => exact Or.inl ⟨0, tree, clearExtentBitsRound_none bits h hsearch⟩
  | some found =>
    obtain ⟨before, s, after⟩ := found
    by_cases hbeyond : last < s.start
    · exact Or.inl ⟨0, tree, clearExtentBitsRound_beyond bits h hsearch hbeyond⟩
    have hreach : s.start ≤ last := by omega
    by_cases hst : s.start < start
    · by_cases hin : s.last ≤ last
      · obtain ⟨ret, tree', hr⟩ := clearExtentBitsRound_left bits h hsearch hst hin
        exact Or.inr ⟨ret, tree', _, hr⟩
      · have hout : last < s.last := by omega
        obtain ⟨tree', hr⟩ := clearExtentBitsRound_inside bits h hsearch hst hreach hout
        exact Or.inr ⟨0, tree', _, hr⟩
    · have hst' : start ≤ s.start := by omega
      by_cases hin : s.last ≤ last
      · obtain ⟨ret, tree', hr⟩ := clearExtentBitsRound_whole bits h hsearch hst' hin
        exact Or.inr ⟨ret, tree', _, hr⟩
      · have hout : last < s.last := by omega
        exact Or.inl (clearExtentBitsRound_right bits h hsearch hst' hreach hout)

end

end

/-! ## The whole loop -/

theorem ClearProgress.result {bits : StateBits} (hp : ClearProgress tree start last bits mid start')
    (hn : ClearResult mid start' last bits tree') (hle : start' ≤ last) :
    ClearResult tree start last bits tree' := by
  refine ⟨hn.ordered, ?_⟩
  intro x
  have hb : start ≤ start' := by rcases hp.advance with hadv | hs <;> omega
  rw [hn.cleared x, hp.done x]
  split_ifs <;> first | rfl | omega

theorem ClearProgress.finished {bits : StateBits}
    (hp : ClearProgress tree start last bits tree' start') (hlt : last < start') :
    ClearResult tree start last bits tree' := by
  refine ⟨hp.ordered, ?_⟩
  intro x
  rw [hp.done x]
  rcases hp.advance with hadv | ⟨hs, -⟩ <;> split_ifs <;> first | rfl | omega

theorem ClearProgress.finished_clears {bits : StateBits}
    (hp : ClearProgress tree start last bits tree' start')
    (hclear : Clears tree start start' bits ret tree') (hlt : last < start') :
    Clears tree start (last + 1) bits ret tree' := by
  rcases hp.advance with hadv | ⟨rfl, -⟩
  · obtain rfl : start' = last + 1 := by omega
    exact hclear
  · constructor
    · intro i
      rw [hclear.returned]
      constructor
      · omega
      · omega
    · intro x
      rw [hclear.zero]
      apply and_congr_right
      omega

theorem ClearProgress.result_clears {bits ret' : StateBits}
    (hp : ClearProgress tree start last bits mid start')
    (hclear : Clears tree start start' bits ret mid)
    (hn : Clears mid start' (last + 1) bits ret' tree') (hle : start' ≤ last) :
    Clears tree start (last + 1) bits (ret ||| ret') tree' := by
  have hb : start ≤ start' := by rcases hp.advance with hadv | hs <;> omega
  apply hclear.trans hn hb (by omega)
  intro x hx
  rw [hp.done x, if_neg (by omega)]

theorem clearExtentBitsLoop_spec (n : ℕ) {tree : StateTree} {start last : ℕ}
    (bits set : StateBits) (h : Ordered tree) (hpos : 1 ≤ n)
    (hn : last + 2 ≤ n + start ∨ ∃ s ∈ tree, s.start = start ∧ last < s.last) :
    ∃ ret tree', clearExtentBitsLoop last bits n set tree start = .ok (set ||| ret, tree') ∧
      ClearResult tree start last bits tree' ∧ Clears tree start (last + 1) bits ret tree' := by
  induction n generalizing tree start set with
  | zero => omega
  | succ n ih =>
    rcases clearExtentBitsRound_spec bits h start last with
      ⟨ret, tree', hround, hout⟩ | ⟨ret, mid, start', hround, hp, hclear⟩
    · refine ⟨ret, tree', ?_, hout⟩
      simp only [clearExtentBitsLoop, hround]
      rfl
    · by_cases hlt : last < start'
      · refine ⟨ret, mid, ?_, hp.finished hlt, hp.finished_clears hclear hlt⟩
        simp only [clearExtentBitsLoop, hround]
        exact if_pos hlt
      · have hfuel : 1 ≤ n ∧ (last + 2 ≤ n + start' ∨
            ∃ s ∈ mid, s.start = start' ∧ last < s.last) := by
          rcases hn with hn | ⟨s, hs, hss, hsl⟩
          · rcases hp.advance with hadv | ⟨heq, s, hs, hss, hsl⟩
            · exact ⟨by omega, Or.inl (by omega)⟩
            · exact ⟨by omega, Or.inr ⟨s, hs, by omega, hsl⟩⟩
          · -- the state starting at `start` is found and the round ends the search
            obtain ⟨before, after, hsearch⟩ := h.searchCacheExtent_start hs
            rw [hss] at hsearch
            have hle : start ≤ last := by rcases hp.advance with hadv | ⟨heq, -⟩ <;> omega
            obtain ⟨ret', tree', hr, -⟩ :=
              clearExtentBitsRound_right bits h hsearch hss.ge (by omega) hsl
            rw [hr] at hround
            cases hround
        obtain ⟨ret', tree', hl, hresult, hre⟩ := ih (set ||| ret) hp.ordered hfuel.1 hfuel.2
        refine ⟨ret ||| ret', tree', ?_, hp.result hresult (by omega),
          hp.result_clears hclear hre (by omega)⟩
        rw [BitVec.or_assoc] at hl
        simp only [clearExtentBitsLoop, hround]
        exact (if_neg hlt).trans hl

theorem clearExtentBits_spec (h : Ordered tree) (start last : ℕ) (bits : StateBits) :
    ∃ ret tree', clearExtentBits tree start last bits = .ok (ret, tree') ∧
      ClearResult tree start last bits tree' ∧ Clears tree start (last + 1) bits ret tree' := by
  obtain ⟨ret, tree', hl, hresult⟩ := @clearExtentBitsLoop_spec (rounds start last) tree start last
    bits 0 h (by unfold rounds; omega) (Or.inl (by unfold rounds; omega))
  have hret : (0 : StateBits) ||| ret = ret := BitVec.zero_or
  rw [hret] at hl
  exact ⟨ret, tree', hl, hresult⟩

end Btrfs.ExtentIo
