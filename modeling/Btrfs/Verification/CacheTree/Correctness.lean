import Btrfs.Verification.CacheTree.Ranges

/-! # `add_merge_cache_extent` -/

namespace Btrfs.CacheTree

open ExtentCache RbTree

variable {n p : Loc CacheExtent} {prev next : Option (Loc CacheExtent)} {tree : CacheTree}
  {below above : List CacheExtent} {start size : ℕ}

def Covered (xs : List CacheExtent) (x : ℕ) : Prop := ∃ e ∈ xs, e.start ≤ x ∧ x < e.start + e.size

theorem covered_append (xs ys : List CacheExtent) (x : ℕ) :
    Covered (xs ++ ys) x ↔ Covered xs x ∨ Covered ys x := by
  simp only [Covered]
  grind

theorem covered_cons (e : CacheExtent) (xs : List CacheExtent) (x : ℕ) :
    Covered (e :: xs) x ↔ (e.start ≤ x ∧ x < e.start + e.size) ∨ Covered xs x := by
  simp only [Covered]
  grind

theorem not_covered_nil (x : ℕ) : ¬ Covered [] x := by
  rintro ⟨e, he, -⟩
  cases he

def IsPrev (tree : CacheTree) (below above : List CacheExtent) : Option (Loc CacheExtent) → Prop
  | none => below = []
  | some p => p.root = tree ∧ p.before ++ [p.entry] = below ∧ p.after = above

def IsNext (tree : CacheTree) (below above : List CacheExtent) : Option (Loc CacheExtent) → Prop
  | none => above = []
  | some n => n.root = tree ∧ n.before = below ∧ n.entry :: n.after = above

theorem isPrev_prev (n : Loc CacheExtent) :
    IsPrev n.root n.before (n.entry :: n.after) (prevCacheExtent n) := by
  have h := rbPrev_spec n
  rw [prevCacheExtent]
  cases hc : rbPrev n with
  | none =>
    rw [hc] at h
    exact h
  | some p =>
    rw [hc] at h
    exact ⟨h.1, h.2.2, h.2.1⟩

theorem isNext_next (n : Loc CacheExtent) :
    IsNext n.root (n.before ++ [n.entry]) n.after (nextCacheExtent n) := by
  have h := rbNext_spec n
  rw [nextCacheExtent]
  cases hc : rbNext n with
  | none =>
    rw [hc] at h
    exact h
  | some p =>
    rw [hc] at h
    exact h

theorem isPrev_last (tree : CacheTree) : IsPrev tree (inorder tree) [] (lastCacheExtent tree) := by
  have h := rbLast_spec tree
  rw [lastCacheExtent]
  cases hc : rbLast tree with
  | none =>
    rw [hc] at h
    rw [h]
    rfl
  | some p =>
    rw [hc] at h
    obtain ⟨rfl, hafter⟩ := h
    refine ⟨rfl, ?_, hafter⟩
    rw [Loc.inorder_root, hafter]

/-- Where `add_merge_cache_extent` looks for neighbours: a cut of the entries, with everything
before it ending at or before the offset, but for an entry that has the offset inside. -/
theorem Holds.mergeNeighbours (h : Holds tree) (start : ℕ) :
    ∃ below above, inorder tree = below ++ above ∧
      IsPrev tree below above (mergeNeighbours tree start).1 ∧
      IsNext tree below above (mergeNeighbours tree start).2 ∧
      (∀ e ∈ above, start ≤ e.start) ∧
      ((∀ e ∈ below, e.start + e.size ≤ start) ∨
        ∃ front e, below = front ++ [e] ∧ start < e.start + e.size ∧ e.start < start) := by
  have hsearch := h.search start
  rw [CacheTree.mergeNeighbours]
  cases hc : searchCacheExtent tree start with
  | none =>
    rw [hc] at hsearch
    exact ⟨inorder tree, [], (List.append_nil _).symm, isPrev_last tree, rfl, by simp, .inl hsearch⟩
  | some cache =>
    rw [hc] at hsearch
    obtain ⟨rfl, hbefore, hend⟩ := hsearch
    have hdisjoint := h.ranges.disjoint
    rw [Loc.inorder_root] at hdisjoint
    have hafter := (List.pairwise_cons.mp (List.pairwise_append.mp hdisjoint).2.1).1
    simp only
    split_ifs with hle
    · refine ⟨cache.before, cache.entry :: cache.after, cache.inorder_root, isPrev_prev cache,
        ⟨rfl, rfl, rfl⟩, ?_, .inl hbefore⟩
      intro e he
      obtain rfl | he := List.mem_cons.mp he
      · exact hle
      · exact (hle.trans (Nat.le_add_right _ _)).trans (hafter e he)
    · refine ⟨cache.before ++ [cache.entry], cache.after, ?_, ⟨rfl, rfl, rfl⟩, isNext_next cache,
        ?_, .inr ⟨cache.before, cache.entry, rfl, hend, by omega⟩⟩
      · rw [cache.inorder_root, List.append_assoc]
        rfl
      · intro e he
        have := hafter e he
        omega

/-- No two entries touch. -/
def Separated (xs : List CacheExtent) : Prop := xs.Pairwise fun a b => a.start + a.size < b.start

/-- What adding a range that overlaps none makes of a tree. -/
structure Added (tree tree' : CacheTree) (start size : ℕ) : Prop where
  holds : Holds tree'
  covered : ∀ x, Covered (inorder tree') x ↔
    Covered (inorder tree) x ∨ (start ≤ x ∧ x < start + size)
  separated : Separated (inorder tree) → Separated (inorder tree')
  /-- An entry that was not there before holds the new range. -/
  entries : ∀ e ∈ inorder tree', e ∈ inorder tree ∨ e.start ≤ start ∧ start + size ≤ e.start + e.size

/-- A free range and its place between the entries. -/
structure Free (tree : CacheTree) (below above : List CacheExtent) (start size : ℕ) : Prop where
  holds : Holds tree
  entries : inorder tree = below ++ above
  below_le : ∀ e ∈ below, e.start + e.size ≤ start
  le_above : ∀ e ∈ above, start + size ≤ e.start
  size_pos : 0 < size
  end_lt : start + size < 2 ^ 64

section

variable (h : Free tree below above start size)

include h

theorem Free.not_overlaps : ∀ e ∈ inorder tree, ¬ Overlaps e start size := by
  rintro e he ⟨hlo, hhi⟩
  rw [h.entries, List.mem_append] at he
  obtain he | he := he
  · have := h.below_le e he
    omega
  · have := h.le_above e he
    omega

theorem Free.add (hbelow : ∀ e ∈ below, e.start + e.size < start)
    (habove : ∀ e ∈ above, start + size < e.start) :
    ∃ tree', addCacheExtent tree start size = .ok (0, tree') ∧ Added tree tree' start size := by
  obtain ⟨⟨e, he, ho⟩, -⟩ | ⟨-, tree', b, a, hsplit, hc, hholds, horder⟩ :=
    h.holds.insert ⟨start, size⟩ h.size_pos h.end_lt
  · exact absurd ho (h.not_overlaps e he)
  · have hdisjoint := hholds.ranges.disjoint
    rw [horder, List.pairwise_append, List.pairwise_cons] at hdisjoint
    obtain ⟨-, ⟨hafter, -⟩, hbefore⟩ := hdisjoint
    have hplace : ∀ e ∈ b ++ a, e.start + e.size < start ∨ start + size < e.start := by
      intro e he
      rw [← hsplit, h.entries] at he
      exact (List.mem_append.mp he).imp (hbelow e) (habove e)
    refine ⟨tree', hc, hholds, ?_, ?_, ?_⟩
    · intro x
      rw [horder, hsplit, covered_append, covered_append, covered_cons]
      grind
    · intro hsep
      rw [hsplit] at hsep
      rw [horder]
      apply pairwise_insert hsep
      · intro e he
        have hle := hbefore e he _ List.mem_cons_self
        have hfar := hplace e (by simp [he])
        simp only at hle ⊢
        omega
      · intro e he
        have hle := hafter e he
        have hfar := hplace e (by simp [he])
        simp only at hle ⊢
        omega
    · intro e he
      rw [horder] at he
      rw [hsplit]
      rcases List.mem_append.mp he with he | he
      · exact .inl (by simp [he])
      · rcases List.mem_cons.mp he with rfl | he
        · exact .inr ⟨le_rfl, le_rfl⟩
        · exact .inl (by simp [he])

/-- The new range and the neighbours `mid` that it touches become one entry. -/
theorem Free.added {tree' : CacheTree} {front mid back : List CacheExtent} {lo hi : ℕ}
    (hval : Valid tree') (hold : inorder tree = front ++ (mid ++ back))
    (hnew : inorder tree' = front ++ ⟨lo, hi - lo⟩ :: back) (hlo : lo ≤ start)
    (hhi : start + size ≤ hi) (hlt : hi < 2 ^ 64)
    (hmid : ∀ x, Covered mid x ↔ (lo ≤ x ∧ x < start) ∨ (start + size ≤ x ∧ x < hi))
    (hfr : ∀ e ∈ front, e.start + e.size ≤ lo) (hback : ∀ e ∈ back, hi ≤ e.start)
    (hsep : Separated (inorder tree) →
      (∀ e ∈ front, e.start + e.size < lo) ∧ ∀ e ∈ back, hi < e.start) :
    Added tree tree' start size := by
  have hpos := h.size_pos
  have hsub : (front ++ back).Sublist (inorder tree) := by
    rw [hold]
    exact (List.Sublist.refl _).append (List.sublist_append_right _ _)
  have hend : lo + (hi - lo) = hi := by omega
  refine ⟨⟨hval, ?_⟩, ?_, ?_, ?_⟩
  · rw [hnew]
    apply ranges_insert _ (h.holds.ranges.sublist hsub) _ _ hfr
    · simpa only [hend] using hback
    · simp only
      omega
    · simpa only [hend] using hlt
  · intro x
    rw [hold, hnew, covered_append, covered_append, covered_append, covered_cons, hmid, hend]
    have hjoin : lo ≤ x ∧ x < hi ↔ ((lo ≤ x ∧ x < start) ∨ (start + size ≤ x ∧ x < hi)) ∨
        (start ≤ x ∧ x < start + size) := by
      omega
    simp only [hjoin, or_assoc, or_comm, or_left_comm]
  · intro hold
    obtain ⟨hfr', hback'⟩ := hsep hold
    rw [hnew]
    apply pairwise_insert (hold.sublist hsub) hfr'
    simpa only [hend] using hback'
  · intro e he
    rw [hnew] at he
    rcases List.mem_append.mp he with he | he
    · exact .inl (hsub.mem (by simp [he]))
    · rcases List.mem_cons.mp he with rfl | he
      · exact .inr ⟨hlo, by simpa only [hend] using hhi⟩
      · exact .inl (hsub.mem (by simp [he]))

theorem Free.merge_next (hn : IsNext tree below above (some n))
    (htouch : start + size = n.entry.start) (hbelow : ∀ e ∈ below, e.start + e.size < start) :
    Added tree (setExtent n start (n.entry.start + n.entry.size - start)).root start size := by
  obtain ⟨rfl, rfl, rfl⟩ := hn
  have hold : inorder n.root = n.before ++ ([n.entry] ++ n.after) := n.inorder_root
  have hranges := h.holds.ranges
  have hdisjoint := hranges.disjoint
  rw [hold, List.pairwise_append, List.singleton_append, List.pairwise_cons] at hdisjoint
  apply h.added (h.holds.valid.setEntry _) hold (Loc.inorder_root _) le_rfl (by omega)
    (hranges.end_lt _ n.entry_mem)
  · simp only [covered_cons, not_covered_nil, or_false]
    omega
  · exact h.below_le
  · exact hdisjoint.2.1.1
  · intro hsep
    rw [hold, Separated, List.pairwise_append, List.singleton_append, List.pairwise_cons] at hsep
    exact ⟨hbelow, hsep.2.1.1⟩

theorem Free.merge_prev (hp : IsPrev tree below above (some p))
    (htouch : p.entry.start + p.entry.size = start)
    (habove : ∀ e ∈ above, start + size < e.start) :
    Added tree (setExtent p p.entry.start (start + size - p.entry.start)).root start size := by
  obtain ⟨rfl, rfl, rfl⟩ := hp
  have hold : inorder p.root = p.before ++ ([p.entry] ++ p.after) := p.inorder_root
  have hdisjoint := h.holds.ranges.disjoint
  rw [hold, List.pairwise_append] at hdisjoint
  apply h.added (h.holds.valid.setEntry _) hold (Loc.inorder_root _) (by omega) le_rfl h.end_lt
  · simp only [covered_cons, not_covered_nil, or_false]
    omega
  · exact fun e he => hdisjoint.2.2 e he _ (by simp)
  · exact h.le_above
  · intro hsep
    rw [hold, Separated, List.pairwise_append] at hsep
    exact ⟨fun e he => hsep.2.2 e he _ (by simp), habove⟩

theorem Free.merge_both (hp : IsPrev tree below above (some p))
    (hn : IsNext tree below above (some n)) (hpr : p.entry.start + p.entry.size = start)
    (hne : start + size = n.entry.start) :
    ∃ prev tree', prevCacheExtent (setExtent n p.entry.start
        (n.entry.start + n.entry.size - p.entry.start)) = some prev ∧
      removeCacheExtent prev = .ok tree' ∧ Added tree tree' start size := by
  obtain ⟨hproot, rfl, hpafter⟩ := hp
  obtain ⟨hnroot, hnbefore, rfl⟩ := hn
  have hp' := isPrev_prev (setExtent n p.entry.start (n.entry.start + n.entry.size - p.entry.start))
  generalize hca : prevCacheExtent (setExtent n p.entry.start
    (n.entry.start + n.entry.size - p.entry.start)) = prev at hp'
  cases prev with
  | none =>
    have hnil : n.before = [] := hp'
    exact absurd (hnbefore.symm.trans hnil) (List.append_ne_nil_of_right_ne_nil _ (by simp))
  | some prev =>
    obtain ⟨hr, hbefore, hafter⟩ := hp'
    have hs : prev.before ++ [prev.entry] = p.before ++ [p.entry] := hbefore.trans hnbefore
    have hval : Valid prev.root := by
      rw [hr]
      exact (hnroot ▸ h.holds.valid : Valid n.root).setEntry _
    obtain ⟨tree', hc, hval', horder⟩ := rbErase_spec hval
    have hentries : inorder tree' = p.before ++
        ⟨p.entry.start, n.entry.start + n.entry.size - p.entry.start⟩ :: n.after := by
      rw [horder, hafter, (List.append_inj_left' hs rfl)]
      rfl
    have hold : inorder tree = p.before ++ ([p.entry, n.entry] ++ n.after) := by
      rw [h.entries, List.append_assoc]
      rfl
    have hranges := h.holds.ranges
    have hsi := hranges.size_pos n.entry (by simp [hold])
    have hdisjoint := hranges.disjoint
    rw [hold, List.cons_append, List.pairwise_append, List.pairwise_cons, List.cons_append,
      List.pairwise_cons] at hdisjoint
    refine ⟨prev, tree', rfl, hc, h.added hval' hold hentries (by omega) (by omega)
      (hranges.end_lt n.entry (by simp [hold])) ?_ ?_ hdisjoint.2.1.2.1 ?_⟩
    · simp only [covered_cons, not_covered_nil, or_false]
      omega
    · exact fun e he => hdisjoint.2.2 e he _ (by simp)
    · intro hsep
      rw [hold, Separated, List.cons_append, List.pairwise_append, List.pairwise_cons,
        List.cons_append, List.pairwise_cons] at hsep
      exact ⟨fun e he => hsep.2.2 e he _ (by simp), hsep.2.1.2.1⟩

theorem Free.mergeExtent (hpr : IsPrev tree below above prev)
    (hnext : IsNext tree below above next) :
    ∃ tree', mergeExtent tree prev next start size = .ok (0, tree') ∧
      Added tree tree' start size := by
  have hend := h.end_lt
  have hst : wrap64 (start + size) = start + size := wrap64_of_lt hend
  -- the ends of the neighbours do not wrap
  have hpend : ∀ p, prev = some p → rangeEnd p.entry = p.entry.start + p.entry.size := by
    rintro p rfl
    refine h.holds.ranges.rangeEnd_eq ?_
    rw [h.entries, ← hpr.2.1]
    simp
  have hnend : ∀ n, next = some n → n.entry.start + n.entry.size < 2 ^ 64 := by
    rintro n rfl
    refine h.holds.ranges.end_lt _ ?_
    rw [h.entries, ← hnext.2.2]
    simp
  have hp : ∀ p, prev.filter (fun p => rangeEnd p.entry = start) = some p →
      prev = some p ∧ p.entry.start + p.entry.size = start := by
    intro p hp
    obtain ⟨rfl, heq⟩ := Option.filter_eq_some_iff.mp hp
    exact ⟨rfl, (hpend p rfl).symm.trans (of_decide_eq_true heq)⟩
  have hn : ∀ n, next.filter (fun n => wrap64 (start + size) = n.entry.start) = some n →
      next = some n ∧ start + size = n.entry.start := by
    intro n hn
    obtain ⟨rfl, heq⟩ := Option.filter_eq_some_iff.mp hn
    exact ⟨rfl, hst.symm.trans (of_decide_eq_true heq)⟩
  -- a neighbour that is not merged does not touch the range, and no other entry does
  have hbelow : prev.filter (fun p => rangeEnd p.entry = start) = none →
      ∀ e ∈ below, e.start + e.size < start := by
    intro hno e he
    cases prev with
    | none => exact absurd he (hpr ▸ by simp)
    | some p =>
      have hend := hpend p rfl
      obtain ⟨rfl, rfl, rfl⟩ := hpr
      have hne := Option.filter_eq_none_iff.mp hno p rfl
      have hle := h.below_le p.entry (by simp)
      have hdisjoint := h.holds.ranges.disjoint
      rw [p.inorder_root, List.pairwise_append] at hdisjoint
      rw [decide_eq_true_eq] at hne
      rcases List.mem_append.mp he with he | he
      · have := hdisjoint.2.2 e he _ List.mem_cons_self
        omega
      · rw [List.mem_singleton.mp he]
        omega
  have habove : next.filter (fun n => wrap64 (start + size) = n.entry.start) = none →
      ∀ e ∈ above, start + size < e.start := by
    intro hno e he
    cases next with
    | none => exact absurd he (hnext ▸ by simp)
    | some n =>
      obtain ⟨rfl, rfl, rfl⟩ := hnext
      have hne := Option.filter_eq_none_iff.mp hno n rfl
      have hle := h.le_above n.entry (by simp)
      have hdisjoint := h.holds.ranges.disjoint
      rw [n.inorder_root, List.pairwise_append, List.pairwise_cons] at hdisjoint
      rw [decide_eq_true_eq, hst] at hne
      rcases List.mem_cons.mp he with rfl | he
      · omega
      · have := hdisjoint.2.1.1 e he
        omega
  rw [CacheTree.mergeExtent]
  split
  · rename_i hp' hn'
    exact h.add (hbelow hp') (habove hn')
  · rename_i n hp' hn'
    obtain ⟨rfl, htouch⟩ := hn n hn'
    have hlt := hnend n rfl
    rw [rangeEnd, wrap64_of_lt hlt, sub64_of_le (by omega) hlt]
    exact ⟨_, rfl, h.merge_next hnext htouch (hbelow hp')⟩
  · rename_i p hp' hn'
    obtain ⟨rfl, htouch⟩ := hp p hp'
    rw [hst, sub64_of_le (by omega) hend]
    exact ⟨_, rfl, h.merge_prev hpr htouch (habove hn')⟩
  · rename_i p n hp' hn'
    obtain ⟨rfl, hptouch⟩ := hp p hp'
    obtain ⟨rfl, hntouch⟩ := hn n hn'
    have hlt := hnend n rfl
    obtain ⟨prev, tree', hc, hca, hadd⟩ := h.merge_both hpr hnext hptouch hntouch
    refine ⟨tree', ?_, hadd⟩
    have hs : sub64 (rangeEnd ⟨start, sub64 (rangeEnd n.entry) start⟩) p.entry.start =
        n.entry.start + n.entry.size - p.entry.start := by
      rw [rangeEnd, rangeEnd, wrap64_of_lt hlt, sub64_of_le (by omega) hlt]
      have hsum : start + (n.entry.start + n.entry.size - start) = n.entry.start + n.entry.size := by
        omega
      rw [hsum, wrap64_of_lt hlt, sub64_of_le (by omega) hlt]
    simp only [setExtent] at hc ⊢
    simp only [hs, hc, hca]
    rfl

end

theorem checkedMerge_next (hlt : start + size < 2 ^ 64) (hn : n.entry.start < start + size) :
    checkedMerge tree prev (some n) start size = .error .bug := by
  have hbug : decide (n.entry.start < wrap64 (start + size)) = true := by
    rw [wrap64_of_lt hlt]
    exact decide_eq_true hn
  simp only [checkedMerge, Option.any_some, hbug]
  rfl

theorem checkedMerge_prev (hp : start < rangeEnd p.entry) :
    checkedMerge tree (some p) next start size = .error .bug := by
  simp only [checkedMerge, Option.any_some, decide_eq_true hp]
  cases next.any fun next => next.entry.start < wrap64 (start + size) <;> rfl

theorem Free.checkedMerge (h : Free tree below above start size)
    (hpr : IsPrev tree below above prev) (hne : IsNext tree below above next) :
    ∃ tree', checkedMerge tree prev next start size = .ok (0, tree') ∧
      Added tree tree' start size := by
  have hn : (next.any fun next => next.entry.start < wrap64 (start + size)) = false := by
    cases next with
    | none => rfl
    | some n =>
      rw [Option.any_some, wrap64_of_lt h.end_lt, decide_eq_false_iff_not, not_lt]
      exact h.le_above n.entry (hne.2.2 ▸ by simp)
  have hp : (prev.any fun prev => start < rangeEnd prev.entry) = false := by
    cases prev with
    | none => rfl
    | some p =>
      have hmem : p.entry ∈ below := by
        rw [← hpr.2.1]
        exact by simp
      have hall : p.entry ∈ inorder tree := by
        rw [h.entries]
        exact by simp [hmem]
      rw [Option.any_some, h.holds.ranges.rangeEnd_eq hall, decide_eq_false_iff_not, not_lt]
      exact h.below_le p.entry hmem
  obtain ⟨tree', hc, hadd⟩ := h.mergeExtent hpr hne
  refine ⟨tree', ?_, hadd⟩
  simp only [CacheTree.checkedMerge, hn, hp]
  exact hc

/-- `add_merge_cache_extent` runs into a `BUG_ON` exactly on an overlap; otherwise it adds the
range. -/
theorem Holds.addMerge (h : Holds tree) (hpos : 0 < size) (hlt : start + size < 2 ^ 64) :
    (∃ e ∈ inorder tree, Overlaps e start size) ∧
        addMergeCacheExtent tree start size = .error .bug ∨
      (∀ e ∈ inorder tree, ¬ Overlaps e start size) ∧
        ∃ tree', addMergeCacheExtent tree start size = .ok (0, tree') ∧
          Added tree tree' start size := by
  cases ht : tree with
  | nil =>
    subst ht
    have hf : Free .nil [] [] start size := ⟨h, rfl, List.forall_mem_nil _, by simp, hpos, hlt⟩
    exact .inr ⟨hf.not_overlaps, hf.add (by simp) (by simp)⟩
  | node c l e r =>
    rw [← ht]
    have hc : addMergeCacheExtent tree start size = CacheTree.checkedMerge tree
        (CacheTree.mergeNeighbours tree start).1 (CacheTree.mergeNeighbours tree start).2 start
        size := by
      rw [ht]
      rfl
    rw [hc]
    obtain ⟨below, above, hentries, hp, hn, habove, hbelow⟩ := h.mergeNeighbours start
    generalize (CacheTree.mergeNeighbours tree start).1 = prev at hp ⊢
    generalize (CacheTree.mergeNeighbours tree start).2 = next at hn ⊢
    by_cases hov : ∃ e ∈ inorder tree, Overlaps e start size
    · refine .inl ⟨hov, ?_⟩
      obtain ⟨x, hx, hlo, hhi⟩ := hov
      rw [hentries, List.mem_append] at hx
      obtain hx | hx := hx
      · obtain hbelow | ⟨front, last, rfl, hend, -⟩ := hbelow
        · exact absurd (hbelow x hx) (by omega)
        · -- the last entry before the cut has the offset inside
          cases prev with
          | none => exact absurd hp (List.append_ne_nil_of_right_ne_nil _ (by simp))
          | some p =>
            have hl : p.entry = last := by
              have := List.append_inj_right' hp.2.1 rfl
              exact (List.cons.inj this).1
            refine checkedMerge_prev ?_
            rw [hl, h.ranges.rangeEnd_eq (by simp [hentries])]
            exact hend
      · cases next with
        | none =>
          have hnil : above = [] := hn
          rw [hnil] at hx
          cases hx
        | some n =>
          -- the first entry after the cut starts no later than `x`
          refine checkedMerge_next hlt (lt_of_le_of_lt ?_ hlo)
          obtain ⟨-, -, rfl⟩ := hn
          have hdisjoint := h.ranges.disjoint
          rw [hentries] at hdisjoint
          have hafter := (List.pairwise_cons.mp (List.pairwise_append.mp hdisjoint).2.1).1
          obtain rfl | hx := List.mem_cons.mp hx
          · exact le_rfl
          · exact (Nat.le_add_right _ _).trans (hafter x hx)
    · have hnone : ∀ e ∈ inorder tree, ¬ Overlaps e start size := fun e he ho => hov ⟨e, he, ho⟩
      refine .inr ⟨hnone, Free.checkedMerge ⟨h, hentries, ?_, ?_, hpos, hlt⟩ hp hn⟩
      · obtain hbelow | ⟨front, x, rfl, hend, hst⟩ := hbelow
        · exact hbelow
        · have hmem : x ∈ inorder tree := by simp [hentries]
          exact absurd ⟨by omega, hend⟩ (hnone x hmem)
      · intro x hx
        have hmem : x ∈ inorder tree := by
          rw [hentries]
          exact by simp [hx]
        have hle := habove x hx
        have hs := h.ranges.size_pos x hmem
        have hno := hnone x hmem
        rw [Overlaps] at hno
        omega

/-! ## A cache tree is a set of disjoint ranges -/

variable {tree : CacheTree} {below above : List CacheExtent}

/-- The trees that calls build from an empty one. A call that runs into a `BUG_ON` has no tree
after it. -/
inductive Reachable : CacheTree → Prop where
  | init : Reachable .nil
  | insert {tree tree' : CacheTree} {pe : CacheExtent} {ret : ℤ} (h : Reachable tree)
      (hpos : 0 < pe.size) (hlt : pe.start + pe.size < 2 ^ 64)
      (hcall : insertCacheExtent tree pe = .ok (ret, tree')) : Reachable tree'
  | add {tree tree' : CacheTree} {start size : ℕ} {ret : ℤ} (h : Reachable tree) (hpos : 0 < size)
      (hlt : start + size < 2 ^ 64) (hcall : addCacheExtent tree start size = .ok (ret, tree')) :
      Reachable tree'
  | remove {pe : Loc CacheExtent} {tree' : CacheTree} (h : Reachable pe.root)
      (hcall : removeCacheExtent pe = .ok tree') : Reachable tree'
  | addMerge {tree tree' : CacheTree} {start size : ℕ} {ret : ℤ} (h : Reachable tree)
      (hpos : 0 < size) (hlt : start + size < 2 ^ 64)
      (hcall : addMergeCacheExtent tree start size = .ok (ret, tree')) : Reachable tree'

theorem Holds.of_insert {tree' : CacheTree} {pe : CacheExtent} {ret : ℤ} (h : Holds tree)
    (hpos : 0 < pe.size) (hlt : pe.start + pe.size < 2 ^ 64)
    (hc : insertCacheExtent tree pe = .ok (ret, tree')) : Holds tree' := by
  obtain ⟨-, hfail⟩ | ⟨-, tree'', below, above, -, hok, hholds, -⟩ := h.insert pe hpos hlt
  · obtain ⟨-, rfl⟩ := Prod.mk.inj (Except.ok.inj (hc.symm.trans hfail))
    exact h
  · obtain ⟨-, rfl⟩ := Prod.mk.inj (Except.ok.inj (hc.symm.trans hok))
    exact hholds

theorem Reachable.holds (h : Reachable tree) : Holds tree := by
  induction h with
  | init => exact holds_nil
  | insert _ hpos hlt hc ih => exact ih.of_insert hpos hlt hc
  | add _ hpos hlt hc ih => exact ih.of_insert hpos hlt hc
  | remove _ hc ih =>
    obtain ⟨tree', hok, hholds, -⟩ := ih.remove
    obtain rfl := Except.ok.inj (hc.symm.trans hok)
    exact hholds
  | addMerge _ hpos hlt hc ih =>
    obtain ⟨-, hfail⟩ | ⟨-, tree', hok, hadd⟩ := ih.addMerge hpos hlt
    · cases hc.symm.trans hfail
    · obtain ⟨-, rfl⟩ := Prod.mk.inj (Except.ok.inj (hc.symm.trans hok))
      exact hadd.holds

/-! ## Enumeration -/

/-- The entries met by going on from a node at most `n` times. -/
def entriesFrom (step : Loc CacheExtent → Option (Loc CacheExtent)) :
    ℕ → Option (Loc CacheExtent) → List CacheExtent
  | 0, _ | _, none => []
  | n + 1, some pe => pe.entry :: entriesFrom step n (step pe)

theorem entriesFrom_next (n : ℕ) (pe : Option (Loc CacheExtent)) (h : IsNext tree below above pe)
    (hn : above.length ≤ n) :
    entriesFrom nextCacheExtent n pe = above := by
  induction n generalizing pe tree below above with
  | zero =>
    rw [List.length_eq_zero_iff.mp (Nat.le_zero.mp hn)]
    rfl
  | succ n ih =>
    cases pe with
    | none => exact (h : above = []).symm
    | some pe =>
      obtain ⟨-, -, rfl⟩ := h
      rw [entriesFrom, ih _ (isNext_next pe) (Nat.le_of_succ_le_succ hn)]

theorem entriesFrom_prev (n : ℕ) (pe : Option (Loc CacheExtent)) (h : IsPrev tree below above pe)
    (hn : below.length ≤ n) :
    entriesFrom prevCacheExtent n pe = below.reverse := by
  induction n generalizing pe tree below above with
  | zero =>
    rw [List.length_eq_zero_iff.mp (Nat.le_zero.mp hn)]
    rfl
  | succ n ih =>
    cases pe with
    | none =>
      rw [(h : below = [])]
      rfl
    | some pe =>
      obtain ⟨-, rfl, -⟩ := h
      rw [List.length_append] at hn
      rw [entriesFrom, ih _ (isPrev_prev pe) (Nat.le_of_succ_le_succ hn), List.reverse_append]
      rfl

theorem isNext_first (tree : CacheTree) : IsNext tree [] (inorder tree) (firstCacheExtent tree) := by
  have h := rbFirst_spec tree
  rw [firstCacheExtent]
  cases hc : rbFirst tree with
  | none =>
    rw [hc] at h
    rw [h]
    rfl
  | some n =>
    rw [hc] at h
    obtain ⟨rfl, hbefore⟩ := h
    refine ⟨rfl, hbefore, ?_⟩
    rw [Loc.inorder_root, hbefore]
    rfl

/-! ## The set -/

def Contains (e : CacheExtent) (x : ℕ) : Prop := e.start ≤ x ∧ x < e.start + e.size

/-- The functions of a cache tree, as those of a set of disjoint ranges. -/
structure RangeSet (tree : CacheTree) : Prop where
  disjoint : (inorder tree).Pairwise fun a b => a.start + a.size ≤ b.start
  insert_overlap : ∀ pe : CacheExtent, 0 < pe.size → pe.start + pe.size < 2 ^ 64 →
    (∃ e ∈ inorder tree, Overlaps e pe.start pe.size) →
    insertCacheExtent tree pe = .ok (-EEXIST, tree)
  insert_free : ∀ pe : CacheExtent, 0 < pe.size → pe.start + pe.size < 2 ^ 64 →
    (∀ e ∈ inorder tree, ¬ Overlaps e pe.start pe.size) →
    ∃ tree' below above, insertCacheExtent tree pe = .ok (0, tree') ∧
      inorder tree = below ++ above ∧ inorder tree' = below ++ pe :: above
  remove : ∀ pe : Loc CacheExtent, pe.root = tree → ∃ tree', removeCacheExtent pe = .ok tree' ∧
    inorder tree = pe.before ++ pe.entry :: pe.after ∧ inorder tree' = pe.before ++ pe.after
  add_merge_overlap : ∀ start size, 0 < size → start + size < 2 ^ 64 →
    (∃ e ∈ inorder tree, Overlaps e start size) →
    addMergeCacheExtent tree start size = .error .bug
  add_merge_free : ∀ start size, 0 < size → start + size < 2 ^ 64 →
    (∀ e ∈ inorder tree, ¬ Overlaps e start size) →
    ∃ tree', addMergeCacheExtent tree start size = .ok (0, tree') ∧
      ∀ x, Covered (inorder tree') x ↔ Covered (inorder tree) x ∨ (start ≤ x ∧ x < start + size)
  lookup : ∀ start size, start + size < 2 ^ 64 →
    match lookupCacheExtent tree start size with
    | none => ∀ e ∈ inorder tree, ¬ Overlaps e start size
    | some n => n.root = tree ∧ Overlaps n.entry start size
  search : ∀ start,
    match searchCacheExtent tree start with
    | none => ∀ e ∈ inorder tree, ¬ Contains e start ∧ ¬ start < e.start
    | some n => n.root = tree ∧ (Contains n.entry start ∨
        (∀ e ∈ inorder tree, ¬ Contains e start) ∧ start < n.entry.start ∧
          ∀ e ∈ inorder tree, start < e.start → n.entry.start ≤ e.start)
  forward : entriesFrom nextCacheExtent (inorder tree).length (firstCacheExtent tree) = inorder tree
  backward : entriesFrom prevCacheExtent (inorder tree).length (lastCacheExtent tree) =
    (inorder tree).reverse
  next : ∀ pe : Loc CacheExtent, pe.root = tree →
    IsNext tree (pe.before ++ [pe.entry]) pe.after (nextCacheExtent pe)
  prev : ∀ pe : Loc CacheExtent, pe.root = tree →
    IsPrev tree pe.before (pe.entry :: pe.after) (prevCacheExtent pe)

theorem Holds.search_least (h : Holds tree) (start : ℕ) :
    match searchCacheExtent tree start with
    | none => ∀ e ∈ inorder tree, ¬ Contains e start ∧ ¬ start < e.start
    | some n => n.root = tree ∧ (Contains n.entry start ∨
        (∀ e ∈ inorder tree, ¬ Contains e start) ∧ start < n.entry.start ∧
          ∀ e ∈ inorder tree, start < e.start → n.entry.start ≤ e.start) := by
  have hsearch := h.search start
  generalize searchCacheExtent tree start = found at hsearch ⊢
  cases found with
  | none =>
    intro e he
    have := hsearch e he
    rw [Contains]
    omega
  | some n =>
    obtain ⟨rfl, hbefore, hend⟩ := hsearch
    refine ⟨rfl, ?_⟩
    by_cases hst : n.entry.start ≤ start
    · exact .inl ⟨hst, hend⟩
    · right
      have hdisjoint := h.ranges.disjoint
      rw [Loc.inorder_root] at hdisjoint ⊢
      have hafter := (List.pairwise_cons.mp (List.pairwise_append.mp hdisjoint).2.1).1
      -- an entry ends before the offset, or starts no earlier than the node
      have hcs : ∀ e ∈ n.before ++ n.entry :: n.after,
          e.start + e.size ≤ start ∨ n.entry.start ≤ e.start := by
        intro e he
        obtain he | rfl | he := (List.mem_append.trans (or_congr_right List.mem_cons)).mp he
        · exact .inl (hbefore e he)
        · exact .inr le_rfl
        · exact .inr ((Nat.le_add_right _ _).trans (hafter e he))
      refine ⟨?_, by omega, ?_⟩
      · rintro e he ⟨hlo, hhi⟩
        have := hcs e he
        omega
      · intro e he hlt
        have := hcs e he
        omega

/-- Every tree built by the calls is a set of disjoint ranges. -/
theorem cacheTree_rangeSet {tree : CacheTree} (h : Reachable tree) : RangeSet tree where
  disjoint := h.holds.ranges.disjoint
  insert_overlap := by
    rintro pe hpos hlt ⟨e, he, ho⟩
    obtain ⟨-, hc⟩ | ⟨hf, -⟩ := h.holds.insert pe hpos hlt
    · exact hc
    · exact absurd ho (hf e he)
  insert_free := by
    intro pe hpos hlt hf
    obtain ⟨⟨e, he, ho⟩, -⟩ | ⟨-, tree', below, above, hsplit, hc, -, horder⟩ :=
      h.holds.insert pe hpos hlt
    · exact absurd ho (hf e he)
    · exact ⟨tree', below, above, hc, hsplit, horder⟩
  remove := by
    rintro pe rfl
    obtain ⟨tree', hc, -, horder⟩ := h.holds.remove
    exact ⟨tree', hc, pe.inorder_root, horder⟩
  add_merge_overlap := by
    rintro start size hpos hlt ⟨e, he, ho⟩
    obtain ⟨-, hc⟩ | ⟨hf, -⟩ := h.holds.addMerge hpos hlt
    · exact hc
    · exact absurd ho (hf e he)
  add_merge_free := by
    intro start size hpos hlt hf
    obtain ⟨⟨e, he, ho⟩, -⟩ | ⟨-, tree', hc, hadd⟩ := h.holds.addMerge hpos hlt
    · exact absurd ho (hf e he)
    · exact ⟨tree', hc, hadd.covered⟩
  lookup _ _ hlt := h.holds.lookup hlt
  search := h.holds.search_least
  forward := entriesFrom_next _ _ (isNext_first tree) le_rfl
  backward := entriesFrom_prev _ _ (isPrev_last tree) le_rfl
  next := by
    rintro pe rfl
    exact isNext_next pe
  prev := by
    rintro pe rfl
    exact isPrev_prev pe

/-- Three ranges, in the balanced tree that the insertions make of them. -/
def threeRanges : CacheTree :=
  .node .black (.node .red .nil ⟨4, 2⟩ .nil) ⟨8, 2⟩ (.node .red .nil ⟨12, 2⟩ .nil)

/-- The third range is inserted below the second one, and the tree is rotated. -/
theorem reachable_threeRanges : Reachable threeRanges := by
  have hfirst : insertCacheExtent .nil ⟨4, 2⟩ = .ok (0, .node .black .nil ⟨4, 2⟩ .nil) := rfl
  have hsecond : insertCacheExtent (.node .black .nil ⟨4, 2⟩ .nil) ⟨8, 2⟩ =
      .ok (0, .node .black .nil ⟨4, 2⟩ (.node .red .nil ⟨8, 2⟩ .nil)) := rfl
  have hthird : insertCacheExtent (.node .black .nil ⟨4, 2⟩ (.node .red .nil ⟨8, 2⟩ .nil)) ⟨12, 2⟩ =
      .ok (0, threeRanges) := rfl
  have hone := Reachable.insert .init (by decide) (by decide) hfirst
  have htwo := hone.insert (by decide) (by decide) hsecond
  exact htwo.insert (by decide) (by decide) hthird

theorem cacheTree_rangeSet_threeRanges : Reachable threeRanges ∧ RangeSet threeRanges :=
  ⟨reachable_threeRanges, cacheTree_rangeSet reachable_threeRanges⟩

/-! ## The order of the ranges -/

def addMergeAll : CacheTree → List CacheExtent → Call CacheTree
  | tree, [] => .ok tree
  | tree, range :: ranges => do
    let (_, tree) ← addMergeCacheExtent tree range.start range.size
    addMergeAll tree ranges

def Disjoint (a b : CacheExtent) : Prop := ∀ x, ¬ (Contains a x ∧ Contains b x)

/-- A range inside of a set of offsets that has no offset next to it. -/
structure MaximalRun (offsets : ℕ → Prop) (run : CacheExtent) : Prop where
  size_pos : 0 < run.size
  inside : ∀ x, Contains run x → offsets x
  before : ∀ x, x + 1 = run.start → ¬ offsets x
  behind : ¬ offsets (run.start + run.size)

theorem addMergeAll_spec {ranges : List CacheExtent} (h : Holds tree)
    (hsep : Separated (inorder tree))
    (hranges : ∀ r ∈ ranges, 0 < r.size ∧ r.start + r.size < 2 ^ 64)
    (hdisjoint : ranges.Pairwise Disjoint)
    (hf : ∀ r ∈ ranges, ∀ x, Contains r x → ¬ Covered (inorder tree) x) :
    ∃ tree', addMergeAll tree ranges = .ok tree' ∧ Holds tree' ∧ Separated (inorder tree') ∧
      ∀ x, Covered (inorder tree') x ↔ Covered (inorder tree) x ∨ Covered ranges x := by
  induction ranges generalizing tree with
  | nil => exact ⟨tree, rfl, h, hsep, fun x => by simp [not_covered_nil]⟩
  | cons r ranges ih =>
    obtain ⟨hr, hranges⟩ := List.forall_mem_cons.mp hranges
    obtain ⟨hrfree, hf⟩ := List.forall_mem_cons.mp hf
    obtain ⟨hrdisjoint, hdisjoint⟩ := List.pairwise_cons.mp hdisjoint
    obtain ⟨⟨e, he, hlo, hhi⟩, -⟩ | ⟨-, tree', hc, hadd⟩ := h.addMerge hr.1 hr.2
    · -- the larger of both starts is in the range and in the entry
      have hsi := h.ranges.size_pos e he
      exact absurd ⟨e, he, le_max_left _ _, by omega⟩
        (hrfree (max e.start r.start) ⟨le_max_right _ _, by omega⟩)
    · obtain ⟨final, hall, hholds, hfinal, hcovered⟩ := ih hadd.holds (hadd.separated hsep)
        hranges hdisjoint fun s hs x hx hcov => by
          rcases (hadd.covered x).mp hcov with hold | hnew
          · exact hf s hs x hx hold
          · exact hrdisjoint s hs x ⟨hnew, hx⟩
      refine ⟨final, ?_, hholds, hfinal, ?_⟩
      · simp only [addMergeAll, hc]
        exact hall
      · intro x
        rw [hcovered, hadd.covered, covered_cons, or_assoc]

theorem Holds.maximalRun_iff (h : Holds tree) (hsep : Separated (inorder tree)) (e : CacheExtent) :
    e ∈ inorder tree ↔ MaximalRun (Covered (inorder tree)) e := by
  have hsymm : Std.Symm fun a b : CacheExtent =>
      a.start + a.size < b.start ∨ b.start + b.size < a.start := ⟨fun _ _ => Or.symm⟩
  have hp : (inorder tree).Pairwise fun a b =>
      a.start + a.size < b.start ∨ b.start + b.size < a.start := hsep.imp Or.inl
  have hrun : ∀ e ∈ inorder tree, MaximalRun (Covered (inorder tree)) e := by
    intro e he
    have hpos := h.ranges.size_pos e he
    refine ⟨hpos, fun x hx => ⟨e, he, hx⟩, ?_, ?_⟩
    · rintro x hx ⟨f, hf, hlo, hhi⟩
      have hne : e ≠ f := by
        rintro rfl
        omega
      have := hp.forall he hf hne
      omega
    · rintro ⟨f, hf, hlo, hhi⟩
      have hne : e ≠ f := by
        rintro rfl
        omega
      have := hp.forall he hf hne
      omega
  refine ⟨hrun e, fun hmax => ?_⟩
  have hpos := hmax.size_pos
  obtain ⟨f, hf, hlo, hhi⟩ := hmax.inside e.start ⟨le_rfl, by omega⟩
  have hst : f.start = e.start := by
    by_contra hne
    exact hmax.before (e.start - 1) (by omega) ⟨f, hf, by omega, by omega⟩
  have hend : f.start + f.size = e.start + e.size := by
    rcases lt_trichotomy (f.start + f.size) (e.start + e.size) with hlt | heq | hgt
    · exact absurd (hmax.inside _ ⟨by omega, hlt⟩) (hrun f hf).behind
    · exact heq
    · exact absurd ⟨f, hf, by omega, hgt⟩ hmax.behind
  have hs : e = f := by
    cases e
    cases f
    simp only [CacheExtent.mk.injEq] at hst hend ⊢
    omega
  exact hs ▸ hf

/-- Whatever the order of disjoint ranges, the entries are the maximal runs of their union. -/
theorem addMergeAll_maximalRuns {family order : List CacheExtent} (hpos : ∀ r ∈ family, 0 < r.size)
    (hlt : ∀ r ∈ family, r.start + r.size < 2 ^ 64) (hdisjoint : family.Pairwise Disjoint)
    (horder : order.Perm family) :
    ∃ tree, addMergeAll .nil order = .ok tree ∧ Separated (inorder tree) ∧
      ∀ e, e ∈ inorder tree ↔ MaximalRun (Covered family) e := by
  have hsymm : ∀ a b, Disjoint a b → Disjoint b a := fun a b hab x hx => hab x hx.symm
  obtain ⟨tree, hc, hholds, hsep, hcovered⟩ := addMergeAll_spec holds_nil .nil
    (fun r hr => ⟨hpos r (horder.mem_iff.mp hr), hlt r (horder.mem_iff.mp hr)⟩)
    (horder.symm.pairwise hdisjoint (hsymm _ _)) fun r _ x _ => not_covered_nil x
  have hunion : Covered (inorder tree) = Covered family := by
    funext x
    rw [hcovered]
    simp [Covered, horder.mem_iff]
  refine ⟨tree, hc, hsep, fun e => ?_⟩
  rw [hholds.maximalRun_iff hsep, hunion]

/-- The range in the middle comes last. -/
theorem addMergeAll_threeRanges :
    ∃ tree, addMergeAll .nil [⟨0, 4⟩, ⟨8, 4⟩, ⟨4, 4⟩] = .ok tree ∧ Separated (inorder tree) ∧
      ∀ e, e ∈ inorder tree ↔ MaximalRun (Covered [⟨0, 4⟩, ⟨4, 4⟩, ⟨8, 4⟩]) e := by
  apply addMergeAll_maximalRuns (by decide) (by decide)
  · simp only [List.pairwise_cons, List.mem_cons, List.not_mem_nil, or_false, Disjoint, Contains]
    refine ⟨?_, ?_, ?_, List.Pairwise.nil⟩
    · rintro r (rfl | rfl) x hx <;> simp only at hx <;> omega
    · rintro r rfl x hx
      simp only at hx
      omega
    · rintro r ⟨⟩
  · decide

/-- Every tree built by the calls is a red-black tree, so no search in it takes more steps than
twice the logarithm of its size. -/
theorem Reachable.redBlack (h : Reachable tree) :
    Valid tree ∧ height tree ≤ 2 * Nat.log 2 ((inorder tree).length + 1) := by
  obtain ⟨n, hn⟩ := h.holds.valid
  obtain ⟨hsize, -, hle⟩ := hn.height_le
  have hlog := Nat.le_log_of_pow_le (by decide) hsize
  exact ⟨⟨n, hn⟩, (hle rfl).trans (Nat.mul_le_mul_left 2 hlog)⟩

theorem redBlack_threeRanges : Valid threeRanges ∧ height threeRanges ≤ 2 * Nat.log 2 4 :=
  reachable_threeRanges.redBlack

end Btrfs.CacheTree
