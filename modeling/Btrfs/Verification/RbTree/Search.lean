import Btrfs.Verification.RbTree.Balance

/-! # Searching and inserting with a comparator

The comparator gets one entry and need not be an order: it is enough that its sign does not
increase along the entries. -/

namespace Btrfs.RbTree

variable {α : Type*} (comp : α → ℤ) {t root : RbNode α} {parent : Option (Loc α)} {ret : ℤ}
  {c : Color} {l r : RbNode α} {e : α} {up : List (Frame α)}

/-- The sign of the comparator does not increase along a sequence. -/
def Consistent (xs : List α) : Prop :=
  xs.Pairwise fun a b => (0 < comp b → 0 < comp a) ∧ (comp a < 0 → comp b < 0)

/-- A cut of a sequence between what is below and what is above the key. -/
structure Cut (xs below above : List α) : Prop where
  append : xs = below ++ above
  below : ∀ x ∈ below, 0 < comp x
  above : ∀ x ∈ above, comp x < 0

variable {comp} {R : α → α → Prop} {below above xs pre : List α} {x : α} {comp' : α → ℤ}

/-- An entry is put between those before it and those behind it. -/
theorem pairwise_insert (h : (below ++ above).Pairwise R) (hbelow : ∀ e ∈ below, R e x)
    (habove : ∀ e ∈ above, R x e) :
    (below ++ x :: above).Pairwise R := by
  obtain ⟨hb, ha, hcross⟩ := List.pairwise_append.mp h
  refine List.pairwise_append.mpr ⟨hb, List.pairwise_cons.mpr ⟨habove, ha⟩, ?_⟩
  intro e he
  exact List.forall_mem_cons.mpr ⟨hbelow e he, hcross e he⟩

theorem Cut.insert (h : Cut comp xs below above) (hp : xs.Pairwise R)
    (hbelow : ∀ e ∈ xs, 0 < comp e → R e x) (habove : ∀ e ∈ xs, comp e < 0 → R x e) :
    (below ++ x :: above).Pairwise R := by
  obtain ⟨rfl, hb, ha⟩ := h
  apply pairwise_insert hp
  · exact fun e he => hbelow e (by simp [he]) (hb e he)
  · exact fun e he => habove e (by simp [he]) (ha e he)

theorem Cut.ne_zero (h : Cut comp xs below above) : ∀ x ∈ xs, comp x ≠ 0 := by
  intro x hx
  rw [h.append, List.mem_append] at hx
  obtain hx | hx := hx
  · exact Int.ne_of_gt (h.below x hx)
  · exact Int.ne_of_lt (h.above x hx)

/-! ## The way down -/

/-- A place of a tree with everything left of it below and everything right of it above the
key. -/
structure Between (comp : α → ℤ) (up : List (Frame α)) : Prop where
  below : ∀ x ∈ before up, 0 < comp x
  above : ∀ x ∈ after up, comp x < 0

theorem between_nil : Between comp [] := ⟨by simp, by simp⟩

section

variable (hcons : Consistent comp (inorder (.node c l e r))) (h : Between comp up)

include hcons h

theorem Between.left (he : comp e < 0) : Between comp (⟨.left, c, e, r⟩ :: up) := by
  refine ⟨h.below, ?_⟩
  intro x hx
  simp only [after_left, List.cons_append, List.mem_cons, List.mem_append] at hx
  obtain rfl | hx | hx := hx
  · exact he
  · have hp := (List.pairwise_append.mp hcons).2.1
    exact ((List.pairwise_cons.mp hp).1 x hx).2 he
  · exact h.above x hx

theorem Between.right (he : 0 < comp e) : Between comp (⟨.right, c, e, l⟩ :: up) := by
  refine ⟨?_, h.above⟩
  intro x hx
  simp only [before_right, List.append_assoc, List.mem_append, List.mem_singleton] at hx
  obtain hx | hx | rfl := hx
  · exact h.below x hx
  · exact ((List.pairwise_append.mp hcons).2.2 x hx e (by simp)).1 he
  · exact he

end

theorem Consistent.left (h : Consistent comp (inorder (.node c l e r))) :
    Consistent comp (inorder l) :=
  (List.pairwise_append.mp h).1

theorem Consistent.right (h : Consistent comp (inorder (.node c l e r))) :
    Consistent comp (inorder r) :=
  (List.pairwise_cons.mp (List.pairwise_append.mp h).2.1).2

/-! ## Insertion -/

theorem findInsertPlace_spec (hcons : Consistent comp (inorder t)) (h : Between comp up) :
    match findInsertPlace comp t up with
    | none => ∃ e ∈ inorder t, comp e = 0
    | some up' => unzip up' .nil = unzip up t ∧ Between comp up' := by
  induction t generalizing up with
  | nil => exact ⟨rfl, h⟩
  | node c l e r ihl ihr =>
    rw [findInsertPlace]
    split_ifs with hneg hpos
    · have hl := ihl hcons.left (h.left hcons hneg)
      cases hplace : findInsertPlace comp l (⟨.left, c, e, r⟩ :: up) with
      | none =>
        rw [hplace] at hl
        obtain ⟨x, hx, hz⟩ := hl
        exact ⟨x, by simp [hx], hz⟩
      | some up' =>
        rw [hplace] at hl
        exact hl
    · have hr := ihr hcons.right (h.right hcons hpos)
      cases hplace : findInsertPlace comp r (⟨.right, c, e, l⟩ :: up) with
      | none =>
        rw [hplace] at hr
        obtain ⟨x, hx, hz⟩ := hr
        exact ⟨x, List.mem_append_right _ (List.mem_cons_of_mem e hx), hz⟩
      | some up' =>
        rw [hplace] at hr
        exact hr
    · exact ⟨e, by simp, by omega⟩

theorem Between.cut (h : Between comp up) (hr : unzip up .nil = root) :
    Cut comp (inorder root) (before up) (after up) := by
  refine ⟨?_, h.below, h.above⟩
  rw [← hr, inorder_unzip, inorder_nil, List.append_nil]

/-- `rb_insert` fails exactly when an entry compares equal, and then changes nothing. -/
theorem rbInsert_spec (entry : α) (hval : Valid root) (hcons : Consistent comp (inorder root)) :
    (∃ e ∈ inorder root, comp e = 0) ∧ rbInsert root entry comp = .ok (-EEXIST, root) ∨
      ∃ root' below above, Cut comp (inorder root) below above ∧
        rbInsert root entry comp = .ok (0, root') ∧ Valid root' ∧
        inorder root' = below ++ entry :: above := by
  have hplace := findInsertPlace_spec hcons between_nil
  cases hfound : findInsertPlace comp root [] with
  | none =>
    rw [hfound] at hplace
    refine .inl ⟨hplace, ?_⟩
    simp [rbInsert, hfound]
  | some up =>
    rw [hfound] at hplace
    have hr : unzip up .nil = root := hplace.1
    have hbetween : Between comp up := hplace.2
    rw [← hr] at hval
    obtain ⟨red, n, c, hup, hnil, -⟩ := hval.loc
    cases hnil
    obtain ⟨root', hc, hval', horder⟩ := rbInsertColor_spec .nil .nil hup (e := entry)
    refine .inr ⟨root', _, _, hbetween.cut hr, ?_, hval', ?_⟩
    · simp only [rbInsert, hfound, hc]
      rfl
    · simpa using horder

/-! ## Search -/

/-- The last node compared is the neighbour of the place. -/
def Neighbour (root : RbNode α) (t : RbNode α) (up : List (Frame α)) (ret : ℤ) (parent : Loc α) : Prop :=
  parent.root = root ∧
    (ret < 0 ∧ parent.before = before up ++ inorder t ∧ parent.entry :: parent.after = after up ∨
      0 < ret ∧ parent.before ++ [parent.entry] = before up ∧ parent.after = inorder t ++ after up)

def SearchEnd (comp : α → ℤ) (root : RbNode α) : Option (Loc α) × Option (Loc α) × ℤ → Prop
  | (some n, _, _) => n.root = root ∧ comp n.entry = 0
  | (none, none, _) => root = .nil
  | (none, some parent, ret) => ∃ up, unzip up .nil = root ∧ Between comp up ∧
      Neighbour root .nil up ret parent

theorem rbSearchLoop_spec {root t : RbNode α} {up : List (Frame α)} {parent : Option (Loc α)} {ret : ℤ}
    (hcons : Consistent comp (inorder t)) (h : Between comp up) (hr : unzip up t = root)
    (hparity : ∀ p, parent = some p → Neighbour root t up ret p) (htop : parent = none → up = []) :
    SearchEnd comp root (rbSearchLoop comp t up parent ret) := by
  induction t generalizing up parent ret with
  | nil =>
    cases parent with
    | none =>
      obtain rfl := htop rfl
      exact hr.symm
    | some p => exact ⟨up, hr, h, hparity p rfl⟩
  | node c l e r ihl ihr =>
    rw [rbSearchLoop]
    split_ifs with hneg hpos
    · refine ihl hcons.left (h.left hcons hneg) hr ?_ nofun
      rintro p ⟨⟩
      exact ⟨hr, .inl ⟨hneg, rfl, rfl⟩⟩
    · refine ihr hcons.right (h.right hcons hpos) hr ?_ nofun
      rintro p ⟨⟩
      exact ⟨hr, .inr ⟨hpos, rfl, rfl⟩⟩
    · exact ⟨hr, by simp only; omega⟩

/-- `rb_search` finds a node that compares equal, or the first node above the key. -/
theorem rbSearch_spec (hcons : Consistent comp (inorder root)) :
    (∃ n, rbSearch root comp = (some n, none) ∧ n.root = root ∧ comp n.entry = 0) ∨
      ∃ below above next, Cut comp (inorder root) below above ∧ rbSearch root comp = (none, next) ∧
        match next with
        | none => above = []
        | some n => n.root = root ∧ n.before = below ∧ n.entry :: n.after = above := by
  have hend : SearchEnd comp root (rbSearchLoop comp root [] none 0) :=
    rbSearchLoop_spec hcons between_nil rfl nofun fun _ => rfl
  generalize hl : rbSearchLoop comp root [] none 0 = result at hend
  obtain ⟨found, parent, ret⟩ := result
  cases found with
  | some n => exact .inl ⟨n, by simp [rbSearch, hl], hend.1, hend.2⟩
  | none =>
    right
    cases parent with
    | none =>
      have hnil : root = .nil := hend
      subst hnil
      exact ⟨[], [], none, ⟨rfl, by simp, by simp⟩, by simp [rbSearch, hl], rfl⟩
    | some p =>
      obtain ⟨up, hr, hbetween, hp, hside⟩ := hend
      refine ⟨before up, after up, if 0 < ret then rbNext p else some p, hbetween.cut hr,
        by simp [rbSearch, hl], ?_⟩
      obtain ⟨hret, hbefore, hafter⟩ | ⟨hret, hbefore, hafter⟩ := hside
      · rw [if_neg (by omega)]
        exact ⟨hp, by simpa using hbefore, hafter⟩
      · rw [if_pos hret]
        have hn := rbNext_spec p
        cases hc : rbNext p with
        | none =>
          rw [hc] at hn
          exact hafter.symm.trans hn
        | some n =>
          rw [hc] at hn
          obtain ⟨hnroot, hnbefore, hnafter⟩ := hn
          exact ⟨hnroot.trans hp, hnbefore.trans hbefore, hnafter.trans hafter⟩

/-! ## Any comparator

Without consistency a search can miss entries, but what it returns still compares as it should. -/

/-- The parents that were left to the left are above the key. -/
def LeftAbove (comp : α → ℤ) (up : List (Frame α)) : Prop :=
  ∀ f ∈ up, f.side = .left → comp f.entry < 0

theorem climb_right_above {n : Loc α} (h : LeftAbove comp up) (hclm : climb .right t up = some n) :
    comp n.entry < 0 := by
  induction up generalizing t with
  | nil => cases hclm
  | cons f up ih =>
    obtain ⟨side, c, e, other⟩ := f
    cases side with
    | left =>
      obtain rfl := Option.some.inj hclm
      exact h _ List.mem_cons_self rfl
    | right => exact ih (List.forall_mem_cons.mp h).2 hclm

/-- The last node compared, on the way down to `t`. -/
def LastCompared (comp : α → ℤ) (root t : RbNode α) (ret : ℤ) (parent : Loc α) : Prop :=
  parent.root = root ∧
    (ret < 0 ∧ comp parent.entry < 0 ∨ 0 < ret ∧ parent.right = t ∧ LeftAbove comp parent.up)

theorem rbSearchLoop_sound (hr : unzip up t = root) (hup : LeftAbove comp up)
    (hparity : ∀ p, parent = some p → LastCompared comp root t ret p) :
    match rbSearchLoop comp t up parent ret with
    | (some n, _, _) => n.root = root ∧ comp n.entry = 0
    | (none, some p, ret) => LastCompared comp root .nil ret p
    | (none, none, _) => True := by
  induction t generalizing up parent ret with
  | nil =>
    cases parent with
    | none => trivial
    | some p => exact hparity p rfl
  | node c l e r ihl ihr =>
    rw [rbSearchLoop]
    split_ifs with hneg hpos
    · refine ihl hr ?_ ?_
      · rintro f hf hside
        obtain rfl | hf := List.mem_cons.mp hf
        · exact hneg
        · exact hup f hf hside
      · rintro p ⟨⟩
        exact ⟨hr, .inl ⟨hneg, hneg⟩⟩
    · refine ihr hr ?_ ?_
      · rintro f hf hside
        obtain rfl | hf := List.mem_cons.mp hf
        · cases hside
        · exact hup f hf hside
      · rintro p ⟨⟩
        exact ⟨hr, .inr ⟨hpos, rfl, hup⟩⟩
    · exact ⟨hr, by simp only; omega⟩

theorem rbSearch_sound (comp : α → ℤ) (root : RbNode α) :
    match rbSearch root comp with
    | (some n, _) => n.root = root ∧ comp n.entry = 0
    | (none, some n) => n.root = root ∧ comp n.entry < 0
    | (none, none) => True := by
  have htop : LeftAbove comp ([] : List (Frame α)) := List.forall_mem_nil _
  have hno : ∀ p, (none : Option (Loc α)) = some p → LastCompared comp root root 0 p := nofun
  have hend := rbSearchLoop_sound rfl htop hno
  rw [rbSearch]
  generalize rbSearchLoop comp root [] none 0 = result at hend
  obtain ⟨found, parent, ret⟩ := result
  cases found with
  | some n => exact hend
  | none =>
    cases parent with
    | none => trivial
    | some p =>
      obtain ⟨hp, ⟨hret, habove⟩ | ⟨hret, hright, habove⟩⟩ := hend
      · simp only [if_neg (Int.not_lt.mpr (Int.le_of_lt hret))]
        exact ⟨hp, habove⟩
      · simp only [if_pos hret]
        have hn := rbNext_spec p
        cases hc : rbNext p with
        | none => trivial
        | some n =>
          rw [hc] at hn
          refine ⟨hn.1.trans hp, ?_⟩
          simp only [rbNext, rbNeighbour, hright] at hc
          exact climb_right_above habove hc

theorem rbInsert_sound (comp : α → ℤ) (entry : α) (hval : Valid root) :
    rbInsert root entry comp = .ok (-EEXIST, root) ∨
      ∃ root' below above, inorder root = below ++ above ∧
        rbInsert root entry comp = .ok (0, root') ∧ Valid root' ∧
        inorder root' = below ++ entry :: above := by
  have hplace : ∀ (t : RbNode α) (up : List (Frame α)),
      ∀ up' ∈ findInsertPlace comp t up, unzip up' .nil = unzip up t := by
    intro t
    induction t with
    | nil =>
      rintro up up' ⟨⟩
      rfl
    | node c l e r ihl ihr =>
      intro up up' hup'
      rw [findInsertPlace] at hup'
      split_ifs at hup'
      · exact ihl _ up' hup'
      · exact ihr _ up' hup'
      · cases hup'
  cases hfound : findInsertPlace comp root [] with
  | none =>
    left
    simp [rbInsert, hfound]
  | some up =>
    right
    have hr : unzip up .nil = root := hplace root [] up hfound
    rw [← hr] at hval
    obtain ⟨red, n, c, hup, hnil, -⟩ := hval.loc
    cases hnil
    obtain ⟨root', hc, hval', horder⟩ := rbInsertColor_spec .nil .nil hup (e := entry)
    refine ⟨root', before up, after up, ?_, ?_, hval', ?_⟩
    · rw [← hr, inorder_unzip, inorder_nil, List.append_nil]
    · simp only [rbInsert, hfound, hc]
      rfl
    · simpa using horder

/-! ## The way to the last entry

Only the entries on the right edge of a tree decide whether a search gets to its last one. -/

/-- The entries from the root down over right children. -/
def rightEdge : RbNode α → List α
  | .nil => []
  | .node _ _ e r => e :: rightEdge r

theorem rightEdge_ne_nil (h : t ≠ .nil) : rightEdge t ≠ [] := by
  cases t with
  | nil => exact absurd rfl h
  | node c l e r => exact List.cons_ne_nil _ _

theorem rightEdge_last (h : t ≠ .nil) :
    ∃ xs edge x, inorder t = xs ++ [x] ∧ rightEdge t = edge ++ [x] ∧ ∀ y ∈ edge, y ∈ xs := by
  induction t with
  | nil => exact absurd rfl h
  | node c l e r ihl ihr =>
    by_cases hr : r = .nil
    · subst hr
      exact ⟨inorder l, [], e, rfl, rfl, by simp⟩
    · obtain ⟨xs, edge, x, hxs, hedge, hsub⟩ := ihr hr
      refine ⟨inorder l ++ e :: xs, e :: edge, x, ?_, ?_, ?_⟩
      · simp [hxs]
      · rw [rightEdge, hedge, List.cons_append]
      · refine List.forall_mem_cons.mpr ⟨by simp, fun y hy => ?_⟩
        exact List.mem_append_right _ (List.mem_cons_of_mem _ (hsub y hy))

theorem rbSearchLoop_rightEdge {p : Loc α} (h : ∀ x ∈ rightEdge t, 0 < comp x) (hret : 0 < ret)
    (hafter : p.after = inorder t ++ after up) :
    ∃ last ret', rbSearchLoop comp t up (some p) ret = (none, some last, ret') ∧ 0 < ret' ∧
      last.after = after up := by
  induction t generalizing up p ret with
  | nil => exact ⟨p, ret, rfl, hret, hafter⟩
  | node c l e r ihl ihr =>
    obtain ⟨he, hr⟩ := List.forall_mem_cons.mp h
    rw [rbSearchLoop, if_neg (Int.not_lt.mpr (Int.le_of_lt he)), if_pos he]
    exact ihr hr he rfl

theorem rbSearch_rightEdge (h : ∀ x ∈ rightEdge root, 0 < comp x) :
    rbSearch root comp = (none, none) := by
  cases root with
  | nil => rfl
  | node c l e r =>
    obtain ⟨he, hr⟩ := List.forall_mem_cons.mp h
    have hl : rbSearchLoop comp (.node c l e r) [] none 0 =
        rbSearchLoop comp r [⟨.right, c, e, l⟩] (some ⟨c, l, e, r, []⟩) (comp e) := by
      rw [rbSearchLoop, if_neg (Int.not_lt.mpr (Int.le_of_lt he)), if_pos he]
    have hparity : Loc.after ⟨c, l, e, r, []⟩ = inorder r ++ after [⟨.right, c, e, l⟩] := rfl
    obtain ⟨last, ret, hend, hret, hafter⟩ := rbSearchLoop_rightEdge hr he hparity
    simp only [rbSearch, hl, hend, if_pos hret]
    have hn := rbNext_spec last
    cases hc : rbNext last with
    | none => rfl
    | some n =>
      rw [hc, hafter] at hn
      cases hn.2.2

theorem rbSearchLoop_congr (h : ∀ x ∈ inorder t, comp x = comp' x) :
    rbSearchLoop comp t up parent ret = rbSearchLoop comp' t up parent ret := by
  induction t generalizing up parent ret with
  | nil => rfl
  | node c l e r ihl ihr =>
    simp only [inorder_node, List.forall_mem_append, List.forall_mem_cons] at h
    obtain ⟨hl, he, hr⟩ := h
    simp [rbSearchLoop, he, ihl hl, ihr hr]

/-- A search that is turned back on the right edge does not compare the last entry. -/
theorem rbSearchLoop_congr_dropLast (h : ∀ x ∈ (inorder t).dropLast, comp x = comp' x)
    (hedge : ∃ x ∈ (rightEdge t).dropLast, comp' x ≤ 0) :
    rbSearchLoop comp t up parent ret = rbSearchLoop comp' t up parent ret := by
  induction t generalizing up parent ret with
  | nil =>
    obtain ⟨x, hx, -⟩ := hedge
    cases hx
  | node c l e r ihl ihr =>
    obtain ⟨x, hx, hle⟩ := hedge
    by_cases hr : r = .nil
    · subst hr
      cases hx
    · have hino : inorder r ≠ [] := by
        obtain ⟨xs, edge, y, hxs, -, -⟩ := rightEdge_last hr
        rw [hxs]
        exact List.concat_ne_nil _ _
      rw [inorder_node, List.dropLast_append_of_ne_nil (List.cons_ne_nil _ _),
        List.dropLast_cons_of_ne_nil hino] at h
      simp only [List.forall_mem_append, List.forall_mem_cons] at h
      obtain ⟨hl, he, hr'⟩ := h
      rw [rightEdge, List.dropLast_cons_of_ne_nil (rightEdge_ne_nil hr)] at hx
      simp only [rbSearchLoop, he]
      split_ifs with hneg hpos
      · exact rbSearchLoop_congr hl
      · obtain rfl | hx := List.mem_cons.mp hx
        · omega
        · exact ihr hr' ⟨x, hx, hle⟩
      · rfl

/-! ## Keys at the end

Entries that come in ascending order are compared with entries below them, or with the last one. -/

theorem consistent_concat (last : α) (h : ∀ x ∈ pre, 0 < comp x) :
    Consistent comp (pre ++ [last]) := by
  induction pre with
  | nil => exact List.pairwise_singleton _ _
  | cons x pre ih =>
    obtain ⟨hx, hpre⟩ := List.forall_mem_cons.mp h
    refine List.pairwise_cons.mpr ⟨fun y _ => ⟨fun _ => hx, fun hneg => ?_⟩, ih hpre⟩
    omega

theorem rbSearch_all_below (h : ∀ x ∈ inorder root, 0 < comp x) :
    rbSearch root comp = (none, none) := by
  apply rbSearch_rightEdge
  by_cases hnil : root = .nil
  · subst hnil
    exact List.forall_mem_nil _
  · obtain ⟨xs, edge, x, hxs, hedge, hsub⟩ := rightEdge_last hnil
    rw [hxs, List.forall_mem_append] at h
    rw [hedge, List.forall_mem_append]
    exact ⟨fun y hy => h.1 y (hsub y hy), h.2⟩

theorem rbSearch_last {last : α} (hr : inorder root = pre ++ [last])
    (hpre : ∀ x ∈ pre, 0 < comp x) (hl : comp last = 0) :
    ∃ n, rbSearch root comp = (some n, none) ∧ n.entry = last := by
  have hcons : Consistent comp (inorder root) := by
    rw [hr]
    exact consistent_concat last hpre
  obtain ⟨n, hc, rfl, hn⟩ | ⟨below, above, next, hcut, -, -⟩ := rbSearch_spec hcons
  · refine ⟨n, hc, ?_⟩
    have hmem : n.entry ∈ pre ++ [last] := hr ▸ n.entry_mem
    obtain hmem | hmem := List.mem_append.mp hmem
    · exact absurd hn (Int.ne_of_gt (hpre _ hmem))
    · exact List.mem_singleton.mp hmem
  · exact absurd hl (hcut.ne_zero last (by simp [hr]))

theorem rbInsert_all_below (entry : α) (hval : Valid root) (h : ∀ x ∈ inorder root, 0 < comp x) :
    ∃ root', rbInsert root entry comp = .ok (0, root') ∧ Valid root' ∧
      inorder root' = inorder root ++ [entry] := by
  have hcons : Consistent comp (inorder root) :=
    (List.pairwise_append.mp (consistent_concat entry h)).1
  obtain ⟨⟨x, hx, hz⟩, -⟩ | ⟨root', below, above, hcut, hc, hval', horder⟩ :=
    rbInsert_spec entry hval hcons
  · exact absurd hz (Int.ne_of_gt (h x hx))
  · have hnil : above = [] := by
      rw [List.eq_nil_iff_forall_not_mem]
      intro x hx
      have hneg := hcut.above x hx
      have hpos := h x (by simp [hcut.append, hx])
      omega
    refine ⟨root', hc, hval', ?_⟩
    rw [horder, hcut.append, hnil, List.append_nil]

/-! ## Trees whose entries have keys -/

variable {α : Type*}

/-! ## Searching down a tree -/

theorem treeSearch_eq (cmp : α → ℤ) (t : RbNode α) (up : List (Frame α))
    (parent : Option (Loc α)) (ret : ℤ) :
    treeSearch cmp t = (rbSearchLoop cmp t up parent ret).1.map Loc.entry := by
  induction t generalizing up parent ret with
  | nil => rfl
  | node c l e r ihl ihr =>
    rw [treeSearch, rbSearchLoop]
    split_ifs
    · exact ihl _ _ _
    · exact ihr _ _ _
    · rfl

theorem treeSearch_rbSearch (cmp : α → ℤ) (root : RbNode α) :
    treeSearch cmp root = (rbSearch root cmp).1.map Loc.entry := by
  rw [treeSearch_eq cmp root [] none 0, rbSearch]
  generalize rbSearchLoop cmp root [] none 0 = result
  obtain ⟨found, parent, ret⟩ := result
  cases found with
  | some n => rfl
  | none => cases parent <;> rfl

section

variable {cmp : α → ℤ} {root : RbNode α}

theorem treeSearch_sound {entry : α} (h : treeSearch cmp root = some entry) :
    entry ∈ inorder root ∧ cmp entry = 0 := by
  induction root with
  | nil => cases h
  | node c l e r ihl ihr =>
    rw [inorder_node, List.mem_append, List.mem_cons]
    rw [treeSearch] at h
    split_ifs at h with hneg hpos
    · exact ⟨Or.inl (ihl h).1, (ihl h).2⟩
    · exact ⟨Or.inr (Or.inr (ihr h).1), (ihr h).2⟩
    · cases h
      exact ⟨Or.inr (Or.inl rfl), by omega⟩

theorem treeSearch_none (hc : Consistent cmp (inorder root)) (h : treeSearch cmp root = none) :
    ∀ e ∈ inorder root, cmp e ≠ 0 := by
  rw [treeSearch_rbSearch] at h
  obtain ⟨n, hsearch, -, -⟩ | ⟨below, above, next, hcut, -, -⟩ := rbSearch_spec hc
  · rw [hsearch] at h
    cases h
  · exact hcut.ne_zero

end

/-! ## Entries in the order of their keys -/

variable {κ : Type*} [LinearOrder κ] {key : α → κ}

/-- A balanced tree with its entries in the order of their keys. -/
structure KeyedTree (key : α → κ) (root : RbNode α) : Prop where
  valid : Valid root
  sorted : (inorder root).Pairwise fun a b => key a < key b

/-- The comparison of a searched key with the one of an entry. -/
structure Compares (key : α → κ) (k : κ) (cmp : α → ℤ) : Prop where
  neg_iff : ∀ e, cmp e < 0 ↔ k < key e
  pos_iff : ∀ e, 0 < cmp e ↔ key e < k

theorem Compares.eq_zero_iff {k : κ} {cmp : α → ℤ} (h : Compares key k cmp) (e : α) :
    cmp e = 0 ↔ key e = k := by
  have hneg := h.neg_iff e
  have hpos := h.pos_iff e
  rcases lt_trichotomy (key e) k with hlt | heq | hlt
  · have := hpos.mpr hlt
    simp only [hlt.ne, iff_false]
    omega
  · simp only [heq, lt_self_iff_false, iff_false, iff_true] at hneg hpos ⊢
    omega
  · have := hneg.mpr hlt
    simp only [hlt.ne', iff_false]
    omega

namespace KeyedTree

variable {root : RbNode α} {k : κ} {cmp : α → ℤ}

theorem nil : KeyedTree key (.nil : RbNode α) := ⟨valid_nil, List.Pairwise.nil⟩

theorem consistent (h : KeyedTree key root) (hcmp : Compares key k cmp) :
    Consistent cmp (inorder root) := by
  refine h.sorted.imp fun {a b} hab => ?_
  rw [hcmp.pos_iff, hcmp.pos_iff, hcmp.neg_iff, hcmp.neg_iff]
  exact ⟨hab.trans, fun ha => ha.trans hab⟩

theorem treeSearch_eq_none_iff (h : KeyedTree key root) (hcmp : Compares key k cmp) :
    treeSearch cmp root = none ↔ ∀ e ∈ inorder root, key e ≠ k := by
  constructor
  · intro hn e he hk
    exact treeSearch_none (h.consistent hcmp) hn e he ((hcmp.eq_zero_iff e).mpr hk)
  · intro hne
    cases hsearch : treeSearch cmp root with
    | none => rfl
    | some e =>
      obtain ⟨he, hz⟩ := treeSearch_sound hsearch
      exact absurd ((hcmp.eq_zero_iff e).mp hz) (hne e he)

theorem rbInsert (h : KeyedTree key root) (entry : α) (hcmp : Compares key (key entry) cmp)
    (hnew : ∀ e ∈ inorder root, key e ≠ key entry) :
    ∃ root', RbTree.rbInsert root entry cmp = .ok (0, root') ∧ KeyedTree key root' ∧
      (inorder root').Perm (entry :: inorder root) := by
  obtain ⟨⟨e, he, hz⟩, -⟩ | ⟨root', below, above, hcut, hinside, hval, hino⟩ :=
    rbInsert_spec entry h.valid (h.consistent hcmp)
  · exact absurd ((hcmp.eq_zero_iff e).mp hz) (hnew e he)
  · refine ⟨root', hinside, ⟨hval, ?_⟩, ?_⟩
    · rw [hino]
      apply hcut.insert h.sorted
      · exact fun e _ => (hcmp.pos_iff e).mp
      · exact fun e _ => (hcmp.neg_iff e).mp
    · rw [hino, hcut.append]
      exact List.perm_middle

end KeyedTree

end Btrfs.RbTree
