import Btrfs.Model.CacheTree
import Btrfs.Verification.RbTree.Search

/-! # The functions of a cache tree on disjoint ranges -/

namespace Btrfs.CacheTree

open ExtentCache RbTree

variable {start size : ℕ} {pe : Loc CacheExtent}

/-- Disjoint, non-empty ranges in ascending order. -/
structure Ranges (xs : List CacheExtent) : Prop where
  size_pos : ∀ e ∈ xs, 0 < e.size
  end_lt : ∀ e ∈ xs, e.start + e.size < 2 ^ 64
  disjoint : xs.Pairwise fun a b => a.start + a.size ≤ b.start

/-- An entry and a range have an offset in common. -/
def Overlaps (e : CacheExtent) (start size : ℕ) : Prop :=
  e.start < start + size ∧ start < e.start + e.size

theorem ranges_nil : Ranges [] := ⟨by simp, by simp, .nil⟩

theorem Ranges.sublist {xs ys : List CacheExtent} (h : Ranges ys) (hsub : xs.Sublist ys) :
    Ranges xs :=
  ⟨fun e he => h.size_pos e (hsub.subset he), fun e he => h.end_lt e (hsub.subset he),
    h.disjoint.sublist hsub⟩

theorem Ranges.rangeEnd_eq {xs : List CacheExtent} (h : Ranges xs) {e : CacheExtent} (he : e ∈ xs) :
    rangeEnd e = e.start + e.size := wrap64_of_lt (h.end_lt e he)

theorem ranges_insert {below above : List CacheExtent} (pe : CacheExtent)
    (h : Ranges (below ++ above)) (hpos : 0 < pe.size) (hend : pe.start + pe.size < 2 ^ 64)
    (hbelow : ∀ e ∈ below, e.start + e.size ≤ pe.start)
    (habove : ∀ e ∈ above, pe.start + pe.size ≤ e.start) : Ranges (below ++ pe :: above) := by
  refine ⟨?_, ?_, pairwise_insert h.disjoint hbelow habove⟩
  · intro e he
    obtain he | rfl | he := (List.mem_append.trans (or_congr_right List.mem_cons)).mp he
    · exact h.size_pos e (by simp [he])
    · exact hpos
    · exact h.size_pos e (by simp [he])
  · intro e he
    obtain he | rfl | he := (List.mem_append.trans (or_congr_right List.mem_cons)).mp he
    · exact h.end_lt e (by simp [he])
    · exact hend
    · exact h.end_lt e (by simp [he])

/-! ## The comparator -/

section

variable {xs : List CacheExtent} (h : Ranges xs) {e : CacheExtent} (he : e ∈ xs)

include h

/-- The comparator does not order ranges, but along disjoint ones its sign does not increase. -/
theorem Ranges.consistent (start size : ℕ) :
    Consistent (fun e => cacheTreeCompRange e start size) xs := by
  refine h.disjoint.imp_of_mem ?_
  intro a b ha hb hab
  have hea := wrap64_of_lt (h.end_lt a ha)
  have heb := wrap64_of_lt (h.end_lt b hb)
  simp only [cacheTreeCompRange]
  constructor <;> omega

include he

theorem Ranges.comp_pos_iff (start size : ℕ) :
    0 < cacheTreeCompRange e start size ↔ e.start + e.size ≤ start := by
  rw [cacheTreeCompRange, wrap64_of_lt (h.end_lt e he)]
  split_ifs <;> simp_all

theorem Ranges.comp_neg_iff (hlt : start + size < 2 ^ 64) (hpos : 0 < size) :
    cacheTreeCompRange e start size < 0 ↔ start + size ≤ e.start := by
  rw [cacheTreeCompRange, wrap64_of_lt (h.end_lt e he), wrap64_of_lt hlt]
  omega

theorem Ranges.comp_zero_iff (hlt : start + size < 2 ^ 64) :
    cacheTreeCompRange e start size = 0 ↔ Overlaps e start size := by
  rw [cacheTreeCompRange, wrap64_of_lt (h.end_lt e he), wrap64_of_lt hlt, Overlaps]
  split_ifs <;> simp_all

end

/-! ## Trees -/

structure Holds (tree : CacheTree) : Prop where
  valid : Valid tree
  ranges : Ranges (inorder tree)

theorem holds_nil : Holds .nil := ⟨valid_nil, ranges_nil⟩

section

variable {tree : CacheTree} (h : Holds tree)

include h

theorem Holds.insert (pe : CacheExtent) (hpos : 0 < pe.size) (hlt : pe.start + pe.size < 2 ^ 64) :
    (∃ e ∈ inorder tree, Overlaps e pe.start pe.size) ∧
        insertCacheExtent tree pe = .ok (-EEXIST, tree) ∨
      (∀ e ∈ inorder tree, ¬ Overlaps e pe.start pe.size) ∧
        ∃ tree' below above, inorder tree = below ++ above ∧
          insertCacheExtent tree pe = .ok (0, tree') ∧ Holds tree' ∧
          inorder tree' = below ++ pe :: above := by
  have hco := h.ranges.consistent pe.start pe.size
  obtain ⟨⟨e, he, hz⟩, hc⟩ | ⟨tree', below, above, hcut, hc, hval, horder⟩ :=
    rbInsert_spec pe h.valid hco
  · exact .inl ⟨⟨e, he, (h.ranges.comp_zero_iff he hlt).mp hz⟩, hc⟩
  · have hn : ∀ e ∈ inorder tree, ¬ Overlaps e pe.start pe.size := fun e he ho =>
      hcut.ne_zero e he ((h.ranges.comp_zero_iff he hlt).mpr ho)
    refine .inr ⟨hn, tree', below, above, hcut.append, hc, ⟨hval, ?_⟩, horder⟩
    have hmem : ∀ e, e ∈ below ∨ e ∈ above → e ∈ inorder tree := by
      intro e he
      rw [hcut.append]
      exact List.mem_append.mpr he
    rw [horder]
    refine ranges_insert pe (hcut.append ▸ h.ranges) hpos hlt ?_ ?_
    · intro e he
      exact (h.ranges.comp_pos_iff (hmem e (.inl he)) _ _).mp (hcut.below e he)
    · intro e he
      exact (h.ranges.comp_neg_iff (hmem e (.inr he)) hlt hpos).mp (hcut.above e he)

theorem Holds.lookup (hlt : start + size < 2 ^ 64) :
    match lookupCacheExtent tree start size with
    | none => ∀ e ∈ inorder tree, ¬ Overlaps e start size
    | some n => n.root = tree ∧ Overlaps n.entry start size := by
  rw [lookupCacheExtent]
  obtain ⟨n, hc, hr, hz⟩ | ⟨below, above, next, hcut, hc, -⟩ :=
    rbSearch_spec (h.ranges.consistent start size)
  · rw [hc]
    have hmem : n.entry ∈ inorder tree := hr ▸ n.entry_mem
    exact ⟨hr, (h.ranges.comp_zero_iff hmem hlt).mp hz⟩
  · rw [hc]
    exact fun e he ho => hcut.ne_zero e he ((h.ranges.comp_zero_iff he hlt).mpr ho)

/-- `search_cache_extent` returns the first entry that ends after the offset. -/
theorem Holds.search (start : ℕ) :
    match searchCacheExtent tree start with
    | none => ∀ e ∈ inorder tree, e.start + e.size ≤ start
    | some n => n.root = tree ∧ (∀ e ∈ n.before, e.start + e.size ≤ start) ∧
        start < n.entry.start + n.entry.size := by
  have hpos := fun e (he : e ∈ inorder tree) => h.ranges.comp_pos_iff he start 1
  have hmem : ∀ n : Loc CacheExtent, n.root = tree → n.entry ∈ inorder tree := by
    rintro n rfl
    exact n.entry_mem
  rw [searchCacheExtent]
  obtain ⟨n, hc, hr, hz⟩ | ⟨below, above, next, hcut, hc, hn⟩ :=
    rbSearch_spec (h.ranges.consistent start 1)
  · rw [hc]
    have hafter : start < n.entry.start + n.entry.size := by
      rw [← not_le, ← hpos _ (hmem n hr), hz]
      exact Int.lt_irrefl 0
    refine ⟨hr, ?_, hafter⟩
    have hlt : start + 1 < 2 ^ 64 := by
      have := h.ranges.end_lt _ (hmem n hr)
      omega
    have hst := ((h.ranges.comp_zero_iff (hmem n hr) hlt).mp hz).1
    have hdisjoint := h.ranges.disjoint
    rw [← hr, Loc.inorder_root] at hdisjoint
    intro e he
    have := (List.pairwise_append.mp hdisjoint).2.2 e he n.entry (by simp)
    omega
  · rw [hc]
    have hbelow : ∀ e ∈ below, e.start + e.size ≤ start := by
      intro e he
      refine (hpos e ?_).mp (hcut.below e he)
      rw [hcut.append]
      exact by simp [he]
    cases next with
    | none =>
      intro e he
      rw [hcut.append, hn, List.append_nil] at he
      exact hbelow e he
    | some n =>
      obtain ⟨hr, hbefore, habove⟩ := hn
      refine ⟨hr, hbefore ▸ hbelow, ?_⟩
      have hneg := hcut.above n.entry (habove ▸ by simp)
      rw [← not_le, ← hpos _ (hmem n hr)]
      omega

end

theorem Holds.remove (h : Holds pe.root) : ∃ tree', removeCacheExtent pe = .ok tree' ∧ Holds tree' ∧
      inorder tree' = pe.before ++ pe.after := by
  obtain ⟨tree', hc, hval, horder⟩ := rbErase_spec h.valid
  refine ⟨tree', hc, ⟨hval, ?_⟩, horder⟩
  rw [horder]
  refine h.ranges.sublist ?_
  rw [Loc.inorder_root]
  exact (List.Sublist.refl _).append (List.sublist_cons_self _ _)

theorem Holds.setExtent (h : Holds pe.root)
    (hranges : Ranges (pe.before ++ ⟨start, size⟩ :: pe.after)) :
    Holds (setExtent pe start size).root ∧
      inorder (CacheTree.setExtent pe start size).root = pe.before ++ ⟨start, size⟩ :: pe.after := by
  have horder : inorder (CacheTree.setExtent pe start size).root =
      pe.before ++ ⟨start, size⟩ :: pe.after := Loc.inorder_root _
  exact ⟨⟨h.valid.setEntry _, horder ▸ hranges⟩, horder⟩

end Btrfs.CacheTree
