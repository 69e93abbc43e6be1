import Btrfs.Model.Convert
import Btrfs.Verification.CacheTree.Correctness

/-! # Wiping the reserved ranges

The lookup finds one entry for each range. Where that entry is all that overlaps the range, its size
does not wrap when it reaches the end of the range or begins in front of it. -/

namespace Btrfs.Convert

open CacheTree ExtentCache RbTree
open Raid56 (BTRFS_STRIPE_LEN)

variable {tree : CacheTree} {start len : ℕ}

/-- At most one entry overlaps the range, and it begins in front of the range or reaches its end. -/
def Wipeable (entries : List CacheExtent) (start len : ℕ) : Prop :=
  ∀ e ∈ entries, Overlaps e start len → (∀ f ∈ entries, Overlaps f start len → f = e) ∧
    (e.start < start ∨ start + len ≤ e.start + e.size)

/-- What wiping a range makes of a tree. -/
structure Wiped (tree tree' : CacheTree) (start len : ℕ) : Prop where
  holds : Holds tree'
  covered : ∀ x, Covered (inorder tree') x ↔
    Covered (inorder tree) x ∧ ¬ (start ≤ x ∧ x < start + len)
  /-- No entry begins behind the range that did not before. -/
  entries : ∀ e ∈ inorder tree', e ∈ inorder tree ∨ e.start ≤ start + len

/-- Entries that share an offset are the same. -/
theorem ranges_unique {xs : List CacheExtent} (h : Ranges xs) {e f : CacheExtent} (he : e ∈ xs)
    (hf : f ∈ xs) {x : ℕ} (hex : e.start ≤ x ∧ x < e.start + e.size)
    (hfx : f.start ≤ x ∧ x < f.start + f.size) : e = f := by
  obtain ⟨front, behind, rfl⟩ := List.append_of_mem he
  obtain ⟨-, hbehind, hfront⟩ := List.pairwise_append.mp h.disjoint
  rcases List.mem_append.mp hf with hf | hf
  · have hle := hfront f hf e (by simp)
    omega
  · rcases List.mem_cons.mp hf with rfl | hf
    · rfl
    · have hle := (List.pairwise_cons.mp hbehind).1 f hf
      omega

/-! ## One range -/

section

variable {cache : Loc CacheExtent} (h : Holds cache.root)

include h

/-- The entry is replaced by what the range leaves of it. -/
theorem wiped_of_entries {tree' : CacheTree} {mid : List CacheExtent} (hholds : Holds tree')
    (horder : inorder tree' = cache.before ++ (mid ++ cache.after))
    (hbegin : ∀ f ∈ mid, f.start ≤ start + len)
    (hrange : ∀ x, start ≤ x → x < start + len → Covered (inorder cache.root) x →
      cache.entry.start ≤ x ∧ x < cache.entry.start + cache.entry.size)
    (hmid : ∀ x, Covered mid x ↔ (cache.entry.start ≤ x ∧ x < cache.entry.start + cache.entry.size) ∧
      ¬ (start ≤ x ∧ x < start + len)) :
    Wiped cache.root tree' start len := by
  have hdisjoint := h.ranges.disjoint
  rw [cache.inorder_root] at hdisjoint hrange
  obtain ⟨-, hafter, hbefore⟩ := List.pairwise_append.mp hdisjoint
  obtain ⟨hafter, -⟩ := List.pairwise_cons.mp hafter
  refine ⟨hholds, fun x => ?_, fun f hf => ?_⟩
  · rw [horder, cache.inorder_root, covered_append, covered_append, hmid, covered_append,
      covered_cons]
    by_cases hx : Covered cache.before x ∨ Covered cache.after x
    · have hout : x < cache.entry.start ∨ cache.entry.start + cache.entry.size ≤ x := by
        rcases hx with ⟨f, hf, hlo, hhi⟩ | ⟨f, hf, hlo, hhi⟩
        · exact .inl (hhi.trans_le (hbefore f hf _ List.mem_cons_self))
        · exact .inr ((hafter f hf).trans hlo)
      have hcovered : Covered (cache.before ++ cache.entry :: cache.after) x := by
        rw [covered_append, covered_cons]
        tauto
      refine iff_of_true (by tauto) ⟨by tauto, fun hin => ?_⟩
      have := hrange x hin.1 hin.2 hcovered
      omega
    · rw [not_or] at hx
      simp only [hx, false_or, or_false]
  · rw [horder] at hf
    rw [cache.inorder_root]
    rcases List.mem_append.mp hf with hf | hf
    · exact .inl (by simp [hf])
    · rcases List.mem_append.mp hf with hf | hf
      · exact .inr (hbegin f hf)
      · exact .inl (by simp [hf])

theorem wiped_setExtent {s l : ℕ} (hpos : 0 < l) (hlo : cache.entry.start ≤ s)
    (hhi : s + l ≤ cache.entry.start + cache.entry.size) (hbegin : s ≤ start + len)
    (hrange : ∀ x, start ≤ x → x < start + len → Covered (inorder cache.root) x →
      cache.entry.start ≤ x ∧ x < cache.entry.start + cache.entry.size)
    (hcut : ∀ x, s ≤ x ∧ x < s + l ↔ (cache.entry.start ≤ x ∧
      x < cache.entry.start + cache.entry.size) ∧ ¬ (start ≤ x ∧ x < start + len)) :
    Wiped cache.root (setExtent cache s l).root start len := by
  have hend := h.ranges.end_lt _ cache.entry_mem
  have hranges := h.ranges
  rw [cache.inorder_root] at hranges
  obtain ⟨-, hafter, hbefore⟩ := List.pairwise_append.mp hranges.disjoint
  obtain ⟨hholds, horder⟩ := h.setExtent (ranges_insert ⟨s, l⟩
    (hranges.sublist ((List.Sublist.refl _).append (List.sublist_cons_self _ _))) hpos
    (hhi.trans_lt hend) (fun f hf => (hbefore f hf _ (by simp)).trans hlo)
    fun f hf => hhi.trans ((List.pairwise_cons.mp hafter).1 f hf))
  refine wiped_of_entries h hholds (show _ = _ ++ ([⟨s, l⟩] ++ _) from horder) ?_ hrange fun x => ?_
  · simpa using hbegin
  · rw [← hcut, covered_cons, or_iff_left (not_covered_nil x)]

end

theorem wipeOneReservedRange_spec (h : Holds tree) (hlen : 0 < len) (hend : start + len < 2 ^ 64)
    (hstart : start % BTRFS_STRIPE_LEN = 0) (hstop : (start + len) % BTRFS_STRIPE_LEN = 0)
    (hwipe : Wipeable (inorder tree) start len) :
    ∃ tree', wipeOneReservedRange tree start len = .ok (0, tree') ∧ Wiped tree tree' start len := by
  have hlookup := h.lookup hend
  rw [wipeOneReservedRange, decide_eq_false (by omega)]
  cases hcache : lookupCacheExtent tree start len with
  | none =>
    rw [hcache] at hlookup
    refine ⟨tree, rfl, h, fun x => (and_iff_left_of_imp ?_).symm, fun e he => .inl he⟩
    rintro ⟨e, he, hlo, hhi⟩ hx
    exact hlookup e he ⟨by omega, by omega⟩
  | some cache =>
    rw [hcache] at hlookup
    obtain ⟨rfl, hoverlaps⟩ := hlookup
    have hmem := cache.entry_mem
    obtain ⟨honly, hreach⟩ := hwipe _ hmem hoverlaps
    have hrange : ∀ x, start ≤ x → x < start + len → Covered (inorder cache.root) x →
        cache.entry.start ≤ x ∧ x < cache.entry.start + cache.entry.size := by
      rintro x hx hxl ⟨f, hf, hlo, hhi⟩
      obtain rfl := honly f hf ⟨by omega, by omega⟩
      exact ⟨hlo, hhi⟩
    obtain ⟨hlo, hhi⟩ := hoverlaps
    dsimp only
    by_cases hfirst : start ≤ cache.entry.start
    · have := h.ranges.end_lt _ hmem
      rw [if_pos hfirst, decide_eq_false (by omega), sub64_of_le (by omega) (by omega)]
      by_cases hz : cache.entry.size - (start + len - cache.entry.start) = 0
      · obtain ⟨tree', hcall, hholds, horder⟩ := h.remove
        refine ⟨tree', ?_, wiped_of_entries h hholds (show _ = _ ++ ([] ++ _) from horder)
          (by simp) hrange fun x => iff_of_false (not_covered_nil x) (by omega)⟩
        simp only [hz, hcall]
        rfl
      · exact ⟨_, by simp only [hz]; rfl, wiped_setExtent h (by omega)
          (by omega) (by omega) le_rfl hrange fun x => by omega⟩
    · have hhead : Wiped cache.root
          (setExtent cache cache.entry.start (start - cache.entry.start)).root start
          (cache.entry.start + cache.entry.size - start) :=
        wiped_setExtent h (by omega) le_rfl (by omega) (by omega) (fun x _ _ _ => by omega)
          fun x => by omega
      have hentries : ∀ e ∈ inorder (setExtent cache cache.entry.start
          (start - cache.entry.start)).root, e ∈ inorder cache.root ∨ e.start ≤ start + len := by
        intro e he
        rw [show inorder (setExtent cache cache.entry.start (start - cache.entry.start)).root =
          cache.before ++ ⟨cache.entry.start, start - cache.entry.start⟩ :: cache.after from
            Loc.inorder_root _] at he
        rw [cache.inorder_root]
        rcases List.mem_append.mp he with he | he
        · exact .inl (by simp [he])
        · rcases List.mem_cons.mp he with rfl | he
          · exact .inr hlo.le
          · exact .inl (by simp [he])
      rw [if_neg hfirst, h.ranges.rangeEnd_eq hmem]
      by_cases htail : start + len < cache.entry.start + cache.entry.size
      · have hlt := h.ranges.end_lt _ hmem
        rw [if_pos htail, sub64_of_le (show start ≤ _ by omega) hlt,
          sub64_of_le (by omega) (by omega)]
        obtain ⟨⟨e, he, hlo, hhi⟩, -⟩ | ⟨-, tree', hcall, hadd⟩ := @Holds.addMerge _ (start + len)
          (cache.entry.start + cache.entry.size - start - len) hhead.holds (by omega) (by omega)
        · have := hhead.holds.ranges.size_pos e he
          exact absurd ⟨by omega, by omega⟩ ((hhead.covered (max e.start (start + len))).mp
            ⟨e, he, by omega, by omega⟩).2
        · refine ⟨tree', hcall, hadd.holds, fun x => ?_, fun e he => ?_⟩
          · rw [hadd.covered, hhead.covered]
            by_cases hx : start + len ≤ x ∧ x < cache.entry.start + cache.entry.size
            · exact iff_of_true (.inr (by omega)) ⟨⟨_, hmem, by omega, hx.2⟩, by omega⟩
            · exact ⟨fun hc => ⟨(hc.resolve_right (by omega)).1, by omega⟩,
                fun hc => .inl ⟨hc.1, by omega⟩⟩
          · exact (hadd.entries e he).elim (hentries e) fun hnew => .inr hnew.1
      · rw [if_neg htail]
        refine ⟨_, rfl, hhead.holds, fun x => (hhead.covered x).trans ?_, hentries⟩
        refine and_congr_right fun hcovered => not_congr (and_congr_right fun hx => ?_)
        have := fun hxl => hrange x hx hxl hcovered
        omega

/-! ## All ranges -/

/-- Wiping a range leaves what the ranges behind it need. -/
theorem Wiped.wipeable {tree' : CacheTree} {start' len' : ℕ} (h : Wiped tree tree' start len)
    (hbehind : start + len < start') (hlen : 0 < len')
    (hwipe : Wipeable (inorder tree) start' len') : Wipeable (inorder tree') start' len' := by
  -- an entry that overlaps the range shares an offset of it with an old one that overlaps it
  have hshare : ∀ e ∈ inorder tree', Overlaps e start' len' → ∃ g ∈ inorder tree,
      Overlaps g start' len' ∧ ∃ x, (e.start ≤ x ∧ x < e.start + e.size) ∧ start' ≤ x ∧
        g.start ≤ x ∧ x < g.start + g.size := by
    rintro e he ⟨hlo, hhi⟩
    have hsize := h.holds.ranges.size_pos e he
    obtain ⟨g, hg, hgl, hgh⟩ := ((h.covered (max e.start start')).mp
      ⟨e, he, by omega, by omega⟩).1
    exact ⟨g, hg, ⟨by omega, by omega⟩, max e.start start', by omega, by omega, hgl, hgh⟩
  have hunique : ∀ e ∈ inorder tree', ∀ f ∈ inorder tree', Overlaps e start' len' →
      Overlaps f start' len' → e ∈ inorder tree → f = e := by
    intro e he f hf hoe hof hin
    obtain ⟨g, hg, hog, x, hx, -, hgx⟩ := hshare f hf hof
    obtain rfl := (hwipe e hin hoe).1 g hg hog
    exact ranges_unique h.holds.ranges hf he hx hgx
  intro e he hoe
  refine ⟨fun f hf hof => ?_, ?_⟩
  · rcases h.entries e he with hin | hle
    · exact hunique e he f hf hoe hof hin
    rcases h.entries f hf with hin | hle'
    · exact (hunique f hf e he hof hoe hin).symm
    · -- both hold the end of the range that was wiped
      exact ranges_unique h.holds.ranges hf he (x := start + len) ⟨hle', hbehind.trans hof.2⟩
        ⟨hle, hbehind.trans hoe.2⟩
  · rcases h.entries e he with hin | hle
    · exact (hwipe e hin hoe).2
    · exact .inl (hle.trans_lt hbehind)

theorem wipeRanges_spec {ranges : List SimpleRange} (h : Holds tree)
    (hrange : ∀ r ∈ ranges, 0 < r.len ∧ r.start + r.len < 2 ^ 64 ∧
      r.start % BTRFS_STRIPE_LEN = 0 ∧ (r.start + r.len) % BTRFS_STRIPE_LEN = 0)
    (hascending : ranges.Pairwise fun r s => r.start + r.len < s.start)
    (hwipe : ∀ r ∈ ranges, Wipeable (inorder tree) r.start r.len) :
    ∃ tree', wipeRanges 0 ranges tree = .ok (0, tree') ∧ Holds tree' ∧
      ∀ x, Covered (inorder tree') x ↔ Covered (inorder tree) x ∧
        ∀ r ∈ ranges, ¬ (r.start ≤ x ∧ x < r.start + r.len) := by
  induction ranges generalizing tree with
  | nil => exact ⟨tree, rfl, h, by simp⟩
  | cons r ranges ih =>
    obtain ⟨hlen, hend, hstart, hstop⟩ := hrange r (by simp)
    obtain ⟨mid, hcall, hwiped⟩ :=
      wipeOneReservedRange_spec h hlen hend hstart hstop (hwipe r (by simp))
    obtain ⟨hbehind, hascending⟩ := List.pairwise_cons.mp hascending
    obtain ⟨tree', hloop, hholds, hcovered⟩ := ih hwiped.holds (List.forall_mem_cons.mp hrange).2
      hascending fun s hs => hwiped.wipeable (hbehind s hs) (hrange s (by simp [hs])).1 (hwipe s (by simp [hs]))
    refine ⟨tree', ?_, hholds, fun x => ?_⟩
    · rw [wipeRanges, hcall]
      exact hloop
    · rw [hcovered, hwiped.covered, List.forall_mem_cons, and_assoc]

theorem holds_singleton (e : CacheExtent) (hpos : 0 < e.size) (hend : e.start + e.size < 2 ^ 64) :
    Holds (.node .black .nil e .nil) :=
  ⟨⟨1, .black .nil .nil⟩, List.forall_mem_singleton.mpr hpos, List.forall_mem_singleton.mpr hend,
    by simp⟩

end Btrfs.Convert
