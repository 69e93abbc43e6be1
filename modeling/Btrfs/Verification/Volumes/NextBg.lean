import Btrfs.Model.MapBlock
import Btrfs.Verification.RbTree.Search

/-! # Walking over the block groups

`btrfs_next_bg` goes on from the cursor it returned last. A cursor of 0 also means that nothing was
returned yet, and a chunk that ends at 2^64 compares as if it ended at 0. -/

namespace Btrfs.Volumes

open ExtentCache RbTree

variable {map : MapLookup} {xs post : List MapLookup}

/-- Disjoint chunks in ascending order, up to the end of the address space. -/
structure DisjointTree (tree : MapTree) : Prop where
  size_pos : ∀ map ∈ inorder tree, 0 < map.ce.size
  end_le : ∀ map ∈ inorder tree, map.ce.start + map.ce.size ≤ 2 ^ 64
  disjoint : (inorder tree).Pairwise fun a b => a.ce.start + a.ce.size ≤ b.ce.start

def matching (tree : MapTree) (type : BitVec 64) : List MapLookup :=
  (inorder tree).filter (·.has type)

def bgOf (map : MapLookup) : ℕ × ℕ := (map.ce.start, map.ce.size)

/-- Some number of calls returns every matching chunk once, in order, and then `-ENOENT`. -/
def VisitsAll (tree : MapTree) (type : BitVec 64) : Prop :=
  ∃ calls, nextBgs tree type calls 0 = .ok ((matching tree type).map bgOf, true)

/-- The last chunk ends at the end of the address space. -/
def EndsAtTop (tree : MapTree) : Prop := ∃ map ∈ inorder tree, map.ce.start + map.ce.size = 2 ^ 64

/-- The search for a cursor goes down to the last chunk. -/
def PastEdge (tree : MapTree) (cursor : ℕ) : Prop :=
  ∀ map ∈ (rightEdge tree).dropLast, map.ce.start + map.ce.size ≤ cursor

/-- The search for a cursor compares a chunk whose end has wrapped. -/
def Lost (tree : MapTree) (cursor : ℕ) : Prop := EndsAtTop tree ∧ PastEdge tree cursor

theorem size_eq_length (tree : MapTree) : MapTree.size tree = (inorder tree).length := by
  induction tree with
  | nil => rfl
  | node c l e r ihl ihr =>
    simp only [MapTree.size, inorder_node, List.length_append, List.length_cons]
    omega

/-! ## The loop of one call -/

def remaining (cur : ℕ) : Option (Loc MapLookup) → List MapLookup
  | none => []
  | some ce => if cur ≠ 0 then ce.after else ce.entry :: ce.after

theorem remaining_rbNext (ce : Loc MapLookup) : remaining 0 (rbNext ce) = ce.after := by
  have hn := rbNext_spec ce
  cases hc : rbNext ce with
  | none =>
    rw [hc] at hn
    exact hn.symm
  | some n =>
    rw [hc] at hn
    exact hn.2.2

theorem remaining_step (cur : ℕ) (ce : Loc MapLookup) :
    remaining 0 (if cur ≠ 0 then rbNext ce else some ce) = remaining cur (some ce) := by
  by_cases hcur : cur ≠ 0
  · rw [if_pos hcur, remaining_rbNext, remaining, if_pos hcur]
  · rw [if_neg hcur, remaining, remaining, if_neg hcur, if_neg (by simp)]

theorem remaining_go_on (ce : Loc MapLookup) (cur : ℕ) :
    remaining cur (if cur = 0 then rbNext ce else some ce) = ce.after := by
  by_cases hcur : cur = 0
  · rw [if_pos hcur, hcur, remaining_rbNext]
  · simp [remaining, if_neg hcur]

theorem nextBgLoop_spec (type : BitVec 64) (rounds cur : ℕ) (ce : Option (Loc MapLookup))
    (h : (remaining cur ce).length < rounds) :
    nextBgLoop type rounds cur ce = .ok (((remaining cur ce).filter (·.has type)).head?.map bgOf) := by
  induction rounds generalizing cur ce with
  | zero => cases h
  | succ rounds ih =>
    cases ce with
    | none => rfl
    | some ce =>
      rw [nextBgLoop]
      rw [← remaining_step cur ce] at h ⊢
      generalize (if cur ≠ 0 then rbNext ce else some ce) = looked at h ⊢
      cases looked with
      | none => rfl
      | some n =>
        have hlooked : remaining 0 (some n) = n.entry :: n.after := rfl
        rw [hlooked] at h ⊢
        cases hhas : n.entry.has type with
        | true =>
          simp only [hhas, List.filter_cons_of_pos]
          rfl
        | false =>
          have hr := remaining_go_on n n.entry.ce.start
          have hlen : (remaining n.entry.ce.start
              (if n.entry.ce.start = 0 then rbNext n else some n)).length < rounds := by
            rw [hr]
            exact Nat.lt_of_succ_lt_succ h
          have hn := ih _ _ hlen
          rw [hr] at hn
          simpa only [hhas, List.filter_cons, if_false, Bool.false_eq_true] using hn

/-! ## The search -/

/-- `cache_tree_comp_range` for one byte, without the reduction of the sums. -/
def compByte (logical : ℕ) (map : MapLookup) : ℤ :=
  if map.ce.start + map.ce.size ≤ logical then 1 else if logical < map.ce.start then -1 else 0

theorem comp_eq_compByte {logical : ℕ} (hlog : logical < 2 ^ 64)
    (hend : map.ce.start + map.ce.size < 2 ^ 64) :
    cacheTreeCompRange map.ce logical 1 = compByte logical map := by
  rw [cacheTreeCompRange, compByte, wrap64_of_lt hend]
  by_cases hbelow : map.ce.start + map.ce.size ≤ logical
  · simp [if_pos hbelow]
  · rw [if_neg hbelow, if_neg hbelow, wrap64_of_lt (by omega)]
    rfl

theorem comp_top (logical : ℕ) (hend : map.ce.start + map.ce.size = 2 ^ 64) :
    0 < cacheTreeCompRange map.ce logical 1 := by
  rw [cacheTreeCompRange, hend]
  exact Int.one_pos

theorem filter_cursor_zero (maps : List MapLookup) :
    maps.filter (fun map => 0 = 0 ∨ 0 < map.ce.start) = maps := by
  simp

section

variable {tree : MapTree} (h : DisjointTree tree)

include h

theorem DisjointTree.consistent (logical : ℕ) : Consistent (compByte logical) (inorder tree) := by
  refine h.disjoint.imp_of_mem ?_
  intro a b ha hb hab
  simp only [compByte]
  constructor <;> omega

variable {last : MapLookup} {cursor : ℕ}

theorem DisjointTree.end_lt (hino : inorder tree = xs ++ [last]) :
    ∀ map ∈ xs, map.ce.start + map.ce.size < 2 ^ 64 := by
  intro map hmap
  have hl : last ∈ inorder tree := by simp [hino]
  have hpos := h.size_pos last hl
  have hend := h.end_le last hl
  have hp := h.disjoint
  rw [hino] at hp
  have := (List.pairwise_append.mp hp).2.2 map hmap last (by simp)
  omega

theorem DisjointTree.endsAtTop_last (hino : inorder tree = xs ++ [last]) :
    EndsAtTop tree ↔ last.ce.start + last.ce.size = 2 ^ 64 := by
  constructor
  · rintro ⟨map, hmap, hend⟩
    rw [hino] at hmap
    obtain hmap | hmap := List.mem_append.mp hmap
    · exact absurd hend (h.end_lt hino map hmap).ne
    · rwa [← List.mem_singleton.mp hmap]
  · intro hend
    exact ⟨last, by simp [hino], hend⟩

/-- A search that compares the wrapped chunk finds nothing. -/
theorem DisjointTree.searchMapping_lost (hcursor : cursor < 2 ^ 64) (hl : Lost tree cursor) :
    searchMapping tree cursor = none := by
  obtain ⟨htop, hpast⟩ := hl
  have hne : tree ≠ .nil := by
    rintro rfl
    obtain ⟨map, hmap, -⟩ := htop
    cases hmap
  obtain ⟨xs, edge, last, hino, hedge, hsub⟩ := rightEdge_last hne
  rw [h.endsAtTop_last hino] at htop
  rw [PastEdge, hedge, List.dropLast_concat] at hpast
  have hbelow : ∀ map ∈ rightEdge tree, 0 < cacheTreeCompRange map.ce cursor 1 := by
    rw [hedge]
    intro map hmap
    obtain hmap | hmap := List.mem_append.mp hmap
    · rw [comp_eq_compByte hcursor (h.end_lt hino map (hsub map hmap)), compByte,
        if_pos (hpast map hmap)]
      exact Int.one_pos
    · rw [List.mem_singleton.mp hmap]
      exact comp_top cursor htop
  rw [searchMapping, rbSearch_rightEdge hbelow]

theorem DisjointTree.rbSearch_eq (hcursor : cursor < 2 ^ 64) (hl : ¬ Lost tree cursor) :
    rbSearch tree (fun map => cacheTreeCompRange map.ce cursor 1) =
      rbSearch tree (compByte cursor) := by
  simp only [rbSearch]
  by_cases htop : EndsAtTop tree
  · have hne : tree ≠ .nil := by
      rintro rfl
      obtain ⟨map, hmap, -⟩ := htop
      cases hmap
    obtain ⟨xs, edge, last, hino, hedge, hsub⟩ := rightEdge_last hne
    have hturn : ∃ map ∈ (rightEdge tree).dropLast, ¬ map.ce.start + map.ce.size ≤ cursor := by
      by_contra hall
      refine hl ⟨htop, fun map hmap => ?_⟩
      by_contra hle
      exact hall ⟨map, hmap, hle⟩
    obtain ⟨map, hmap, hend⟩ := hturn
    have hle : compByte cursor map ≤ 0 := by
      rw [compByte]
      split_ifs <;> decide
    have hs : ∀ m ∈ (inorder tree).dropLast,
        cacheTreeCompRange m.ce cursor 1 = compByte cursor m := by
      rw [hino, List.dropLast_concat]
      exact fun m hm => comp_eq_compByte hcursor (h.end_lt hino m hm)
    rw [rbSearchLoop_congr_dropLast hs ⟨map, hmap, hle⟩]
  · have hs : ∀ m ∈ inorder tree, cacheTreeCompRange m.ce cursor 1 = compByte cursor m := by
      intro m hm
      apply comp_eq_compByte hcursor
      exact (h.end_le m hm).lt_of_ne fun hend => htop ⟨m, hm, hend⟩
    rw [rbSearchLoop_congr hs]

/-- What the loop looks at from a cursor that is 0 or the start of a chunk. -/
theorem DisjointTree.remaining_eq (hcursor : cursor < 2 ^ 64) (hl : ¬ Lost tree cursor)
    (hstart : cursor = 0 ∨ ∃ map ∈ inorder tree, map.ce.start = cursor) :
    remaining cursor (searchMapping tree cursor) =
      (inorder tree).filter fun map => cursor = 0 ∨ cursor < map.ce.start := by
  rw [searchMapping, h.rbSearch_eq hcursor hl]
  obtain ⟨n, hc, rfl, hn⟩ | ⟨below, above, next, hcut, hc, hne⟩ :=
    rbSearch_spec (h.consistent cursor)
  · rw [hc]
    have hp := h.disjoint
    have hs := h.size_pos
    rw [Loc.inorder_root] at hp hs ⊢
    obtain ⟨-, hafter, hbefore⟩ := List.pairwise_append.mp hp
    have hinside : n.entry.ce.start ≤ cursor ∧ cursor < n.entry.ce.start + n.entry.ce.size := by
      simp only [compByte] at hn
      split_ifs at hn <;> omega
    by_cases hz : cursor = 0
    · have hnil : n.before = [] := by
        rw [List.eq_nil_iff_forall_not_mem]
        intro m hm
        have := hbefore m hm n.entry (by simp)
        have := hs m (by simp [hm])
        omega
      subst hz
      rw [filter_cursor_zero, hnil]
      rfl
    · rw [remaining, if_pos hz, List.filter_append, List.filter_cons_of_neg (by simp; omega)]
      have hno : n.before.filter (fun map => cursor = 0 ∨ cursor < map.ce.start) = [] := by
        apply List.filter_eq_nil_iff.mpr
        intro m hm
        have := hbefore m hm n.entry (by simp)
        simp only [decide_eq_true_eq]
        omega
      have hall : n.after.filter (fun map => cursor = 0 ∨ cursor < map.ce.start) = n.after := by
        apply List.filter_eq_self.mpr
        intro m hm
        have := (List.pairwise_cons.mp hafter).1 m hm
        simp only [decide_eq_true_eq]
        omega
      rw [hno, hall, List.nil_append]
  · have hz : cursor = 0 := by
      obtain hz | ⟨map, hmap, hmap'⟩ := hstart
      · exact hz
      · have hpos := h.size_pos map hmap
        refine absurd ?_ (hcut.ne_zero map hmap)
        rw [compByte, if_neg (by omega), if_neg (by omega)]
    subst hz
    have hnil : below = [] := by
      rw [List.eq_nil_iff_forall_not_mem]
      intro m hm
      have hmem : m ∈ inorder tree := by
        rw [hcut.append]
        exact by simp [hm]
      have hpos := h.size_pos m hmem
      have hco := hcut.below m hm
      simp only [compByte] at hco
      split_ifs at hco <;> omega
    rw [hc, hcut.append, hnil]
    cases next with
    | none =>
      rw [filter_cursor_zero]
      exact hne.symm
    | some n =>
      rw [filter_cursor_zero]
      exact hne.2.2

end

/-! ## The calls -/

def behind (tree : MapTree) (type : BitVec 64) (cursor : ℕ) : List MapLookup :=
  (matching tree type).filter fun map => cursor = 0 ∨ cursor < map.ce.start

/-- The cursors that the calls can get: 0, or what a call returned. -/
def IsCursor (tree : MapTree) (cursor : ℕ) : Prop :=
  cursor = 0 ∨ ∃ map ∈ inorder tree, map.ce.start = cursor

section

variable {tree : MapTree} (h : DisjointTree tree) {type : BitVec 64} {cursor : ℕ}

theorem behind_zero : behind tree type 0 = matching tree type := filter_cursor_zero _

theorem matching_subset (hmap : map ∈ matching tree type) : map ∈ inorder tree :=
  (List.mem_filter.mp hmap).1

include h

theorem DisjointTree.cursor_lt (hcursor : IsCursor tree cursor) : cursor < 2 ^ 64 := by
  obtain rfl | ⟨map, hmap, rfl⟩ := hcursor
  · decide
  · have := h.size_pos map hmap
    have := h.end_le map hmap
    omega

theorem DisjointTree.btrfsNextBg_lost (hcursor : IsCursor tree cursor) (hl : Lost tree cursor) :
    btrfsNextBg tree cursor type = .ok none := by
  rw [btrfsNextBg, h.searchMapping_lost (h.cursor_lt hcursor) hl]
  rfl

theorem DisjointTree.btrfsNextBg_eq (hcursor : IsCursor tree cursor) (hl : ¬ Lost tree cursor) :
    btrfsNextBg tree cursor type = .ok ((behind tree type cursor).head?.map bgOf) := by
  have hremaining := h.remaining_eq (h.cursor_lt hcursor) hl hcursor
  rw [btrfsNextBg, nextBgLoop_spec]
  · simp only [hremaining, behind, matching, List.filter_filter, Bool.and_comm]
  · rw [hremaining, size_eq_length]
    exact Nat.lt_succ_of_le (List.length_filter_le _ _)

theorem DisjointTree.behind_start {rest : List MapLookup}
    (hbehind : behind tree type cursor = map :: rest) (hstart : map.ce.start ≠ 0) :
    behind tree type map.ce.start = rest := by
  have hmem : map ∈ behind tree type cursor := by simp [hbehind]
  have hle : cursor = 0 ∨ cursor < map.ce.start := by simpa using (List.mem_filter.mp hmem).2
  have hp : (behind tree type cursor).Pairwise fun a b => a.ce.start + a.ce.size ≤ b.ce.start :=
    (h.disjoint.filter _).filter _
  have hmap := h.size_pos map (matching_subset (List.mem_filter.mp hmem).1)
  -- a later cursor only narrows what is behind it
  have hnarrow : behind tree type map.ce.start =
      (behind tree type cursor).filter fun m => map.ce.start < m.ce.start := by
    rw [behind, behind, List.filter_filter]
    apply List.filter_congr
    intro m _
    rw [Bool.eq_iff_iff]
    simp only [Bool.and_eq_true, decide_eq_true_eq]
    omega
  rw [hbehind] at hnarrow hp
  rw [hnarrow, List.filter_cons_of_neg (by simp), List.filter_eq_self]
  intro m hm
  have := (List.pairwise_cons.mp hp).1 m hm
  simp only [decide_eq_true_eq]
  omega

omit h in
theorem nextBgs_stop (calls : ℕ) (hc : btrfsNextBg tree cursor type = .ok none) :
    nextBgs tree type (calls + 1) cursor = .ok ([], true) := by
  simp only [nextBgs, hc, bind, Except.bind]
  rfl

omit h in
theorem nextBgs_go_on (calls : ℕ) {bg : ℕ × ℕ} (hc : btrfsNextBg tree cursor type = .ok (some bg)) :
    nextBgs tree type (calls + 1) cursor =
      (nextBgs tree type calls bg.1).map fun r => (bg :: r.1, r.2) := by
  simp only [nextBgs, hc, bind, Except.bind]
  cases nextBgs tree type calls bg.1 <;> rfl

section

variable (hcursor : IsCursor tree cursor) (hbehind : behind tree type cursor = post)
  (hstart : ∀ map ∈ post, map.ce.start ≠ 0)

include hcursor hbehind hstart

theorem DisjointTree.nextBgs_all
    (hfound : ∀ c ∈ (cursor :: post.map (·.ce.start)).dropLast, ¬ Lost tree c) :
    nextBgs tree type (post.length + 1) cursor = .ok (post.map bgOf, true) := by
  induction post generalizing cursor with
  | nil =>
    apply nextBgs_stop
    by_cases hl : Lost tree cursor
    · exact h.btrfsNextBg_lost hcursor hl
    · rw [h.btrfsNextBg_eq hcursor hl, hbehind]
      rfl
  | cons map post ih =>
    rw [List.map_cons, List.dropLast_cons_cons, List.forall_mem_cons] at hfound
    obtain ⟨hmap, hpost⟩ := List.forall_mem_cons.mp hstart
    have hc : btrfsNextBg tree cursor type = .ok (some (bgOf map)) := by
      rw [h.btrfsNextBg_eq hcursor hfound.1, hbehind]
      rfl
    have hmem : map ∈ behind tree type cursor := by simp [hbehind]
    have hn : IsCursor tree (bgOf map).1 :=
      .inr ⟨map, matching_subset (List.mem_filter.mp hmem).1, rfl⟩
    rw [List.length_cons, nextBgs_go_on _ hc, ih hn (h.behind_start hbehind hmap) hpost hfound.2]
    rfl

/-- Calls that return all the chunks behind the cursor were not lost before the last one. -/
theorem DisjointTree.not_lost_of_nextBgs {calls : ℕ}
    (hrun : nextBgs tree type calls cursor = .ok (post.map bgOf, true)) :
    ∀ c ∈ (cursor :: post.map (·.ce.start)).dropLast, ¬ Lost tree c := by
  induction post generalizing cursor calls with
  | nil => exact by simp
  | cons map post ih =>
    rw [List.map_cons, List.dropLast_cons_cons, List.forall_mem_cons]
    obtain ⟨hmap, hpost⟩ := List.forall_mem_cons.mp hstart
    cases calls with
    | zero => cases hrun
    | succ calls =>
      have hl : ¬ Lost tree cursor := by
        intro hl
        rw [nextBgs_stop calls (h.btrfsNextBg_lost hcursor hl)] at hrun
        cases hrun
      have hc : btrfsNextBg tree cursor type = .ok (some (bgOf map)) := by
        rw [h.btrfsNextBg_eq hcursor hl, hbehind]
        rfl
      have hmem : map ∈ behind tree type cursor := by simp [hbehind]
      have hn : IsCursor tree (bgOf map).1 :=
        .inr ⟨map, matching_subset (List.mem_filter.mp hmem).1, rfl⟩
      rw [nextBgs_go_on calls hc] at hrun
      cases hr : nextBgs tree type calls (bgOf map).1 with
      | error fault =>
        rw [hr] at hrun
        cases hrun
      | ok r =>
        rw [hr] at hrun
        obtain ⟨hli, hd⟩ := Prod.mk.inj (Except.ok.inj hrun)
        refine ⟨hl, ih hn (h.behind_start hbehind hmap) hpost (hr.trans ?_)⟩
        rw [← (List.cons.inj hli).2, ← hd]

end

omit h in
theorem nextBgs_repeats {size : ℕ} (hc : btrfsNextBg tree 0 type = .ok (some (0, size)))
    (calls : ℕ) :
    nextBgs tree type calls 0 = .ok (List.replicate calls (0, size), false) := by
  induction calls with
  | zero => rfl
  | succ calls ih =>
    rw [nextBgs_go_on calls hc, ih]
    rfl

theorem DisjointTree.matching_head (hmap : map ∈ matching tree type) (hz : map.ce.start = 0) :
    (matching tree type).head? = some map := by
  obtain ⟨pre, post, hsplit⟩ := List.append_of_mem hmap
  have hp : (matching tree type).Pairwise fun a b => a.ce.start + a.ce.size ≤ b.ce.start :=
    h.disjoint.filter _
  cases pre with
  | nil =>
    rw [hsplit]
    rfl
  | cons m pre =>
    have hm : m ∈ matching tree type := by simp [hsplit]
    rw [hsplit] at hp
    have hle := (List.pairwise_cons.mp hp).1 map (by simp)
    have hpos := h.size_pos m (matching_subset hm)
    omega

/-- The calls visit every matching chunk once exactly when none starts at 0 and no search before
the last one compares a wrapped chunk. -/
theorem DisjointTree.visitsAll_iff : VisitsAll tree type ↔
    (∀ map ∈ matching tree type, map.ce.start ≠ 0) ∧
      ∀ cursor ∈ (0 :: (matching tree type).map (·.ce.start)).dropLast, ¬ Lost tree cursor := by
  have hcursor : IsCursor tree 0 := .inl rfl
  constructor
  · rintro ⟨calls, hrun⟩
    have hstart : ∀ map ∈ matching tree type, map.ce.start ≠ 0 := by
      intro map hmap hz
      have hh := h.matching_head hmap hz
      by_cases hl : Lost tree 0
      · cases calls with
        | zero => exact absurd (Prod.mk.inj (Except.ok.inj hrun)).2 (by decide)
        | succ calls =>
          rw [nextBgs_stop calls (h.btrfsNextBg_lost hcursor hl)] at hrun
          have hnil : (matching tree type).map bgOf = [] :=
            (Prod.mk.inj (Except.ok.inj hrun)).1.symm
          rw [List.map_eq_nil_iff.mp hnil] at hmap
          cases hmap
      · have hc : btrfsNextBg tree 0 type = .ok (some (0, map.ce.size)) := by
          rw [h.btrfsNextBg_eq hcursor hl, behind_zero, hh, ← hz]
          rfl
        rw [nextBgs_repeats hc] at hrun
        exact absurd (Prod.mk.inj (Except.ok.inj hrun)).2 (by decide)
    exact ⟨hstart, h.not_lost_of_nextBgs hcursor behind_zero hstart hrun⟩
  · rintro ⟨hstart, hfound⟩
    exact ⟨_, h.nextBgs_all hcursor behind_zero hstart hfound⟩

end

def bgAt (start : ℕ) (type : BitVec 64) : MapLookup := ⟨⟨start, 8388608⟩, type, 65536, 0, []⟩

/-- System, metadata and data chunks, with the first one at `start`. -/
def threeBgs (start : ℕ) : MapTree :=
  .node .black (.node .red .nil (bgAt start BTRFS_BLOCK_GROUP_SYSTEM) .nil)
    (bgAt 20971520 BTRFS_BLOCK_GROUP_METADATA)
    (.node .red .nil (bgAt 29360128 BTRFS_BLOCK_GROUP_DATA) .nil)

theorem threeBgs_visitsAll : VisitsAll (threeBgs 1048576)
    (BTRFS_BLOCK_GROUP_SYSTEM ||| BTRFS_BLOCK_GROUP_METADATA) := by
  have h : DisjointTree (threeBgs 1048576) := ⟨by decide, by decide, by decide⟩
  have htop : ¬ EndsAtTop (threeBgs 1048576) := by
    rw [EndsAtTop]
    decide
  refine h.visitsAll_iff.mpr ⟨by decide, fun cursor _ hl => htop hl.1⟩

/-- With the first chunk at 0 the search for system chunks does not end. -/
theorem threeBgs_zero_repeats : DisjointTree (threeBgs 0) ∧
    (∀ calls, nextBgs (threeBgs 0) BTRFS_BLOCK_GROUP_SYSTEM calls 0 =
      .ok (List.replicate calls (0, 8388608), false)) ∧
    ¬ VisitsAll (threeBgs 0) BTRFS_BLOCK_GROUP_SYSTEM := by
  have hc : btrfsNextBg (threeBgs 0) 0 BTRFS_BLOCK_GROUP_SYSTEM = .ok (some (0, 8388608)) := by
    decide
  have hr := nextBgs_repeats hc
  refine ⟨⟨by decide, by decide, by decide⟩, hr, ?_⟩
  rintro ⟨calls, hrun⟩
  rw [hr] at hrun
  exact absurd (Prod.mk.inj (Except.ok.inj hrun)).2 (by decide)

end Btrfs.Volumes
