import Btrfs.Model.RbTree

/-! # The in-order sequence of a red-black tree -/

namespace Btrfs.RbTree

variable {α : Type*}

def inorder : RbNode α → List α
  | .nil => []
  | .node _ l e r => inorder l ++ e :: inorder r

def before : List (Frame α) → List α
  | [] => []
  | ⟨.left, _, _, _⟩ :: up => before up
  | ⟨.right, _, e, other⟩ :: up => before up ++ inorder other ++ [e]

def after : List (Frame α) → List α
  | [] => []
  | ⟨.left, _, e, other⟩ :: up => e :: inorder other ++ after up
  | ⟨.right, _, _, _⟩ :: up => after up

@[simp] theorem inorder_nil : inorder (.nil : RbNode α) = [] := rfl

@[simp] theorem inorder_node (c : Color) (l : RbNode α) (e : α) (r : RbNode α) :
    inorder (.node c l e r) = inorder l ++ e :: inorder r := rfl

theorem inorder_mapEntries (f : α → α) (t : RbNode α) :
    inorder (mapEntries f t) = (inorder t).map f := by
  induction t with
  | nil => rfl
  | node c l e r ihl ihr => simp [mapEntries, inorder_node, inorder_node, ihl, ihr]

@[simp] theorem before_nil : before ([] : List (Frame α)) = [] := rfl

@[simp] theorem after_nil : after ([] : List (Frame α)) = [] := rfl

section

variable (c : Color) (e : α) (t : RbNode α) (up : List (Frame α))

include c e t up

@[simp] theorem before_left : before (⟨.left, c, e, t⟩ :: up) = before up := rfl

@[simp] theorem before_right :
    before (⟨.right, c, e, t⟩ :: up) = before up ++ inorder t ++ [e] := rfl

@[simp] theorem after_left : after (⟨.left, c, e, t⟩ :: up) = e :: inorder t ++ after up := rfl

@[simp] theorem after_right : after (⟨.right, c, e, t⟩ :: up) = after up := rfl

end

@[simp] theorem inorder_blacken (t : RbNode α) : inorder (blacken t) = inorder t := by
  cases t <;> rfl

@[simp] theorem inorder_setColor (c : Color) (t : RbNode α) : inorder (setColor c t) = inorder t := by
  cases t <;> rfl

theorem inorder_fill (f : Frame α) (t : RbNode α) (up : List (Frame α)) :
    before up ++ inorder (f.fill t) ++ after up =
      before (f :: up) ++ inorder t ++ after (f :: up) := by
  obtain ⟨side, c, e, other⟩ := f
  cases side <;> simp [Frame.fill, Side.node]

theorem inorder_unzip (up : List (Frame α)) (t : RbNode α) :
    inorder (unzip up t) = before up ++ inorder t ++ after up := by
  induction up generalizing t with
  | nil => simp [unzip]
  | cons f up ih => rw [unzip, ih, inorder_fill]

theorem sides_append (up up' : List (Frame α)) :
    before (up ++ up') = before up' ++ before up ∧ after (up ++ up') = after up ++ after up' := by
  induction up with
  | nil => simp
  | cons f up ih =>
    obtain ⟨side, c, e, other⟩ := f
    cases side <;> simp [ih]

/-! ## Nodes -/

def Loc.before (n : Loc α) : List α := RbTree.before n.up ++ inorder n.left

def Loc.after (n : Loc α) : List α := inorder n.right ++ RbTree.after n.up

theorem Loc.inorder_root (n : Loc α) : inorder n.root = n.before ++ n.entry :: n.after := by
  simp [Loc.root, Loc.before, Loc.after, inorder_unzip]

theorem Loc.entry_mem (n : Loc α) : n.entry ∈ inorder n.root := by
  rw [Loc.inorder_root]
  exact by simp

theorem furthest_spec (side : Side) (c : Color) (near : RbNode α) (e : α) (far : RbNode α)
    (up : List (Frame α)) :
    (furthest side c near e far up).root = unzip up (side.node c near e far) ∧
      match side with
      | .left => (furthest side c near e far up).before = before up
      | .right => (furthest side c near e far up).after = after up := by
  induction near generalizing c e far up with
  | nil => cases side <;> simp [furthest, Frame.loc, Loc.root, Loc.before, Loc.after, Side.node]
  | node c' l e' r ihl ihr =>
    cases side with
    | left =>
      obtain ⟨hr, hbefore⟩ := ihl c' e' r (⟨.left, c, e, far⟩ :: up)
      exact ⟨hr, hbefore⟩
    | right =>
      obtain ⟨hr, hafter⟩ := ihr c' e' l (⟨.right, c, e, far⟩ :: up)
      exact ⟨hr, hafter⟩

theorem rbFirst_spec (root : RbNode α) :
    match rbFirst root with
    | none => root = .nil
    | some n => n.root = root ∧ n.before = [] := by
  cases root with
  | nil => rfl
  | node c l e r => exact furthest_spec .left c l e r []

theorem rbLast_spec (root : RbNode α) :
    match rbLast root with
    | none => root = .nil
    | some n => n.root = root ∧ n.after = [] := by
  cases root with
  | nil => rfl
  | node c l e r => exact furthest_spec .right c r e l []

theorem climb_right (t : RbNode α) (up : List (Frame α)) :
    match climb .right t up with
    | none => after up = []
    | some n => n.root = unzip up t ∧ n.before = before up ++ inorder t ∧
        n.entry :: n.after = after up := by
  induction up generalizing t with
  | nil => rfl
  | cons f up ih =>
    obtain ⟨side, c, e, other⟩ := f
    cases side with
    | left => simp [climb, Frame.loc, Loc.root, Loc.before, Loc.after, unzip, Frame.fill, Side.node]
    | right =>
      have h := ih (Frame.fill ⟨.right, c, e, other⟩ t)
      rw [climb]
      cases hclimb : climb .right (Frame.fill ⟨.right, c, e, other⟩ t) up with
      | none =>
        rw [hclimb] at h
        exact h
      | some n =>
        rw [hclimb] at h
        obtain ⟨hr, hbefore, hafter⟩ := h
        exact ⟨hr, by simp [hbefore, Frame.fill, Side.node], hafter⟩

theorem climb_left (t : RbNode α) (up : List (Frame α)) :
    match climb .left t up with
    | none => before up = []
    | some n => n.root = unzip up t ∧ n.after = inorder t ++ after up ∧
        n.before ++ [n.entry] = before up := by
  induction up generalizing t with
  | nil => rfl
  | cons f up ih =>
    obtain ⟨side, c, e, other⟩ := f
    cases side with
    | right => simp [climb, Frame.loc, Loc.root, Loc.before, Loc.after, unzip, Frame.fill, Side.node]
    | left =>
      have h := ih (Frame.fill ⟨.left, c, e, other⟩ t)
      rw [climb]
      cases hclimb : climb .left (Frame.fill ⟨.left, c, e, other⟩ t) up with
      | none =>
        rw [hclimb] at h
        exact h
      | some n =>
        rw [hclimb] at h
        obtain ⟨hr, hafter, hbefore⟩ := h
        exact ⟨hr, by simp [hafter, Frame.fill, Side.node], hbefore⟩

theorem rbNext_spec (n : Loc α) :
    match rbNext n with
    | none => n.after = []
    | some n' => n'.root = n.root ∧ n'.before = n.before ++ [n.entry] ∧
        n'.entry :: n'.after = n.after := by
  obtain ⟨c, l, e, r, up⟩ := n
  cases r with
  | nil =>
    have h := climb_right (.node c l e .nil) up
    simp only [rbNext, rbNeighbour, Side.split]
    cases hclimb : climb .right (.node c l e .nil) up with
    | none =>
      rw [hclimb] at h
      simp [Loc.after, h]
    | some n' =>
      rw [hclimb] at h
      obtain ⟨hr, hbefore, hafter⟩ := h
      exact ⟨hr, hbefore.trans (by simp [Loc.before]), hafter.trans (by simp [Loc.after])⟩
  | node c' l' e' r' =>
    obtain ⟨hr, hbefore⟩ := furthest_spec .left c' l' e' r' (⟨.right, c, e, l⟩ :: up)
    have hr' : (furthest .left c' l' e' r' (⟨.right, c, e, l⟩ :: up)).root =
        Loc.root ⟨c, l, e, .node c' l' e' r', up⟩ := hr
    have hs := congrArg inorder hr'
    rw [Loc.inorder_root, Loc.inorder_root, hbefore] at hs
    have hre : before (⟨.right, c, e, l⟩ :: up) =
        Loc.before ⟨c, l, e, .node c' l' e' r', up⟩ ++ [e] := rfl
    rw [hre, List.append_assoc] at hs
    exact ⟨hr', hbefore, (List.cons.inj (List.append_cancel_left hs)).2⟩

theorem rbPrev_spec (n : Loc α) :
    match rbPrev n with
    | none => n.before = []
    | some n' => n'.root = n.root ∧ n'.after = n.entry :: n.after ∧
        n'.before ++ [n'.entry] = n.before := by
  obtain ⟨c, l, e, r, up⟩ := n
  cases l with
  | nil =>
    have h := climb_left (.node c .nil e r) up
    simp only [rbPrev, rbNeighbour, Side.split]
    cases hclimb : climb .left (.node c .nil e r) up with
    | none =>
      rw [hclimb] at h
      simp [Loc.before, h]
    | some n' =>
      rw [hclimb] at h
      obtain ⟨hr, hafter, hbefore⟩ := h
      exact ⟨hr, hafter.trans (by simp [Loc.after]), hbefore.trans (by simp [Loc.before])⟩
  | node c' l' e' r' =>
    obtain ⟨hr, hafter⟩ := furthest_spec .right c' r' e' l' (⟨.left, c, e, r⟩ :: up)
    have hr' : (furthest .right c' r' e' l' (⟨.left, c, e, r⟩ :: up)).root =
        Loc.root ⟨c, .node c' l' e' r', e, r, up⟩ := hr
    have hs := congrArg inorder hr'
    rw [Loc.inorder_root, Loc.inorder_root, hafter] at hs
    refine ⟨hr', hafter, ?_⟩
    have hcut : (furthest .right c' r' e' l' (⟨.left, c, e, r⟩ :: up)).before ++
        [(furthest .right c' r' e' l' (⟨.left, c, e, r⟩ :: up)).entry] ++
          (e :: (inorder r ++ after up)) =
        Loc.before ⟨c, .node c' l' e' r', e, r, up⟩ ++ (e :: (inorder r ++ after up)) := by
      simpa [Loc.after] using hs
    exact List.append_cancel_right hcut

/-! ## Red-black balance

`rb_erase` reads the sibling of a removed black node without a check that there is one; that it is
there follows from the balance. -/

variable {α : Type*} {t near far l r : RbNode α} {c c' color cn : Color} {n : ℕ} {side : Side}
  {e s : α} {up : List (Frame α)} {red : Bool}

/-- A red-black tree with its root color and black height. -/
inductive Balanced : RbNode α → Color → ℕ → Prop where
  | nil : Balanced .nil .black 0
  | red {l r : RbNode α} {e : α} {n : ℕ} (hl : Balanced l .black n) (hr : Balanced r .black n) :
      Balanced (.node .red l e r) .red n
  | black {l r : RbNode α} {e : α} {cl cr : Color} {n : ℕ} (hl : Balanced l cl n)
      (hr : Balanced r cr n) : Balanced (.node .black l e r) .black (n + 1)

/-- Parents below which a tree of the height is balanced, if it has a black root or `red` is
set. -/
inductive Fits : List (Frame α) → Bool → ℕ → Prop where
  | root (n : ℕ) : Fits [] false n
  | red {side : Side} {e : α} {t : RbNode α} {up : List (Frame α)} {n : ℕ}
      (ht : Balanced t .black n) (hup : Fits up true n) : Fits (⟨side, .red, e, t⟩ :: up) false n
  | black {side : Side} {e : α} {t : RbNode α} {c : Color} {up : List (Frame α)} {red : Bool} {n : ℕ}
      (ht : Balanced t c n) (hup : Fits up red (n + 1)) : Fits (⟨side, .black, e, t⟩ :: up) true n

def Valid (t : RbNode α) : Prop := ∃ n, Balanced t .black n

theorem valid_nil : Valid (.nil : RbNode α) := ⟨0, .nil⟩

def height : RbNode α → ℕ
  | .nil => 0
  | .node _ l _ r => max (height l) (height r) + 1

theorem Balanced.height_le (h : Balanced t c n) : 2 ^ n ≤ (inorder t).length + 1 ∧
    height t ≤ 2 * n + 1 ∧ (c = .black → height t ≤ 2 * n) := by
  induction h with
  | nil => simp [inorder, height]
  | red _ _ ihl ihr =>
    have hl := ihl.2.2 rfl
    have hr := ihr.2.2 rfl
    simp only [inorder, height, List.length_append, List.length_cons]
    exact ⟨by omega, by omega, nofun⟩
  | black _ _ ihl ihr =>
    simp only [inorder, height, List.length_append, List.length_cons, pow_succ]
    exact ⟨by omega, by omega, fun _ => by omega⟩

theorem Balanced.mapEntries (f : α → α) (h : Balanced t c n) : Balanced (mapEntries f t) c n := by
  induction h with
  | nil => exact .nil
  | red _ _ ihl ihr => exact .red ihl ihr
  | black _ _ ihl ihr => exact .black ihl ihr

theorem Balanced.red_side (hn : Balanced near .black n) (hfar : Balanced far .black n) :
    Balanced (side.node .red near e far) .red n := by
  cases side with
  | left => exact .red hn hfar
  | right => exact .red hfar hn

theorem Balanced.black_side (hn : Balanced near c n) (hfar : Balanced far c' n) :
    Balanced (side.node .black near e far) .black (n + 1) := by
  cases side with
  | left => exact .black hn hfar
  | right => exact .black hfar hn

theorem Balanced.blacken_eq (h : Balanced t .black n) : blacken t = t := by cases h <;> rfl

theorem Fits.unzip_black (h : Fits up red n) : ∀ t, Balanced t .black n → Valid (unzip up t) := by
  suffices hboth : (∀ t, Balanced t .black n → Valid (unzip up t)) ∧
      (red = true → ∀ t, Balanced t .red n → Valid (unzip up t)) from hboth.1
  induction h with
  | root n => exact ⟨fun t ht => ⟨n, ht⟩, fun hred => by cases hred⟩
  | red ht hup ih =>
    refine ⟨fun t' ht' => ih.2 rfl _ (ht'.red_side ht), fun hred => ?_⟩
    cases hred
  | black ht hup ih =>
    exact ⟨fun t' ht' => ih.1 _ (ht'.black_side ht), fun _ t' ht' => ih.1 _ (ht'.black_side ht)⟩

theorem Fits.unzip_red (h : Fits up true n) (ht : Balanced t .red n) : Valid (unzip up t) := by
  cases h with
  | black hother hup => exact hup.unzip_black _ (ht.black_side hother)

/-- Below parents that take a red node any balanced tree fits. -/
theorem Fits.unzip_any (h : Fits up true n) (ht : Balanced t c n) : Valid (unzip up t) := by
  cases c with
  | red => exact h.unzip_red ht
  | black => exact h.unzip_black t ht

/-! ## Insertion -/

/-- What a call that rebuilds a tree around a place returns. -/
structure Rebuilt (t : RbNode α) (up : List (Frame α)) (entries : List α) : Prop where
  valid : Valid t
  inorder : inorder t = before up ++ entries ++ after up

theorem Balanced.split (side : Side) (hl : Balanced l c n) (hr : Balanced r c' n) :
    ∃ d d', Balanced (side.split l r).1 d n ∧ Balanced (side.split l r).2 d' n := by
  cases side with
  | left => exact ⟨c, c', hl, hr⟩
  | right => exact ⟨c', c, hr, hl⟩

theorem Balanced.split_black (side : Side) (hl : Balanced l .black n) (hr : Balanced r .black n) :
    Balanced (side.split l r).1 .black n ∧ Balanced (side.split l r).2 .black n := by
  cases side with
  | left => exact ⟨hl, hr⟩
  | right => exact ⟨hr, hl⟩

theorem rbInsertColor_rotate {pt uncle : RbNode α} {pe ge : α} {gside : Side}
    (hl : Balanced l .black n) (hr : Balanced r .black n) (ht : Balanced pt .black n)
    (huncle : Balanced uncle .black n) (hup : Fits up red (n + 1)) :
    ∃ t, rbInsertColor l e r (⟨side, .red, pe, pt⟩ :: ⟨gside, .black, ge, uncle⟩ :: up) = .ok t ∧
      Rebuilt t (⟨side, .red, pe, pt⟩ :: ⟨gside, .black, ge, uncle⟩ :: up)
        (inorder l ++ e :: inorder r) := by
  have hc : rbInsertColor l e r (⟨side, .red, pe, pt⟩ :: ⟨gside, .black, ge, uncle⟩ :: up) =
      if side = gside then
        .ok (unzip up (gside.node .black (.node .red l e r) pe
          (gside.node .red (blacken pt) ge uncle)))
      else .ok (unzip up (gside.node .black (gside.node .red pt pe (blacken (gside.split l r).1)) e
        (gside.node .red (blacken (gside.split l r).2) ge uncle))) := by
    cases huncle <;> rfl
  obtain ⟨hn, hfar⟩ := hl.split_black gside hr
  rw [ht.blacken_eq, hn.blacken_eq, hfar.blacken_eq] at hc
  by_cases hside : side = gside
  · rw [if_pos hside] at hc
    refine ⟨_, hc, ?_, ?_⟩
    · exact hup.unzip_black _ ((Balanced.red hl hr).black_side (ht.red_side huncle))
    · rw [inorder_unzip, hside]
      cases gside <;> simp [Side.node]
  · rw [if_neg hside] at hc
    refine ⟨_, hc, ?_, ?_⟩
    · exact hup.unzip_black _ ((ht.red_side hn).black_side (hfar.red_side huncle))
    · rw [inorder_unzip]
      cases gside <;> cases side <;> simp [Side.node, Side.split] at hside ⊢

theorem rbInsertColor_spec (hl : Balanced l .black n) (hr : Balanced r .black n)
    (hup : Fits up red n) :
    ∃ t, rbInsertColor l e r up = .ok t ∧ Rebuilt t up (inorder l ++ e :: inorder r) := by
  -- a red parent has a black parent of its own: two frames are taken at a time
  induction hlen : up.length using Nat.strong_induction_on generalizing l r e up red n with
  | _ len ih =>
    cases hup with
    | root => exact ⟨_, rfl, ⟨n + 1, .black hl hr⟩, by simp⟩
    | @black side pe pt c up' red' n' ht hup' =>
      refine ⟨unzip (⟨side, .black, pe, pt⟩ :: up') (.node .red l e r), ?_, ?_, ?_⟩
      · cases up' <;> rfl
      · exact (Fits.black ht hup').unzip_red (.red hl hr)
      · rw [inorder_unzip, inorder_node]
    | @red side pe pt up' n' ht hup' =>
      cases hup' with
      | @black gside ge gt gc up red'' n'' hgt hup =>
        cases hgt with
        | nil => exact rbInsertColor_rotate hl hr ht .nil hup
        | black hgl hgr => exact rbInsertColor_rotate hl hr ht (.black hgl hgr) hup
        | @red ul ur ue n'' hul hur =>
          have hlt : up.length < len := by
            rw [← hlen]
            exact Nat.lt_succ_of_lt (Nat.lt_succ_self _)
          have hparity : Balanced (side.node .black (.node .red l e r) pe pt) .black
              (n + 1) := (Balanced.red hl hr).black_side ht
          have huncle : Balanced (.node .black ul ue ur) .black (n + 1) := .black hul hur
          obtain ⟨hle, hright⟩ := hparity.split_black gside huncle
          obtain ⟨t, hc, hval, horder⟩ := ih _ hlt (e := ge) hle hright hup rfl
          refine ⟨t, hc, hval, ?_⟩
          rw [horder]
          cases gside <;> cases side <;> simp [Side.split, Side.node]

/-! ## Removal -/

/-- What a round of `____rb_erase_color` makes of a parent of color `color` whose other child has
the height `n + 1`: the parent is as high as before, or it is black and one lower. -/
structure EraseRound (color : Color) (n : ℕ) (entries : List α) (result : RbNode α × Bool) : Prop where
  inorder : inorder result.1 = entries
  again : result.2 = true → color = .black ∧ Balanced result.1 .black (n + 1)
  done_black : result.2 = false → color = .black → Balanced result.1 .black (n + 2)
  done_red : result.2 = false → color = .red → ∃ c, Balanced result.1 c (n + 1)

theorem eraseCases_far (ht : Balanced t .black n) (hn : Balanced near cn n)
    (hfar : Balanced far .red n) :
    EraseRound color n (inorder (side.node color t e (side.node .black near s far)))
      (eraseCases side color t e near s far) := by
  cases hfar with
  | red hl hr =>
    have hparity : Balanced (side.node .black t e near) .black (n + 1) := ht.black_side hn
    refine ⟨?_, nofun, ?_, ?_⟩
    · cases side <;> simp [eraseCases, Side.node]
    · rintro - rfl
      exact hparity.black_side (.black hl hr)
    · rintro - rfl
      exact ⟨.red, hparity.red_side (.black hl hr)⟩

theorem eraseCases_near (ht : Balanced t .black n) (hn : Balanced near .red n)
    (hfar : Balanced far .black n) :
    EraseRound color n (inorder (side.node color t e (side.node .black near s far)))
      (eraseCases side color t e near s far) := by
  cases hn with
  | @red l r x _ hl hr =>
    obtain ⟨hin, hout⟩ := hl.split_black side hr
    have hc : eraseCases side color t e (.node .red l x r) s far =
        (side.node color (side.node .black t e (side.split l r).1) x
          (side.node .black (side.split l r).2 s far), false) := by
      rw [← hout.blacken_eq]
      cases hfar <;> rfl
    have hparity : Balanced (side.node .black t e (side.split l r).1) .black (n + 1) :=
      ht.black_side hin
    have hsibling : Balanced (side.node .black (side.split l r).2 s far) .black (n + 1) :=
      hout.black_side hfar
    rw [hc]
    refine ⟨?_, nofun, ?_, ?_⟩
    · cases side <;> simp [Side.node, Side.split]
    · rintro - rfl
      exact hparity.black_side hsibling
    · rintro - rfl
      exact ⟨.red, hparity.red_side hsibling⟩

theorem eraseCases_flip (ht : Balanced t .black n) (hn : Balanced near .black n)
    (hfar : Balanced far .black n) :
    EraseRound color n (inorder (side.node color t e (side.node .black near s far)))
      (eraseCases side color t e near s far) := by
  have hc : eraseCases side color t e near s far =
      (side.node .black t e (side.node .red near s far), decide (color = .black)) := by
    cases hfar <;> cases hn <;> rfl
  have hparity : Balanced (side.node .black t e (side.node .red near s far)) .black (n + 1) :=
    ht.black_side (hn.red_side hfar)
  rw [hc]
  refine ⟨?_, fun h => ⟨of_decide_eq_true h, hparity⟩, ?_, ?_⟩
  · cases side <;> simp [Side.node]
  · intro h hcol
    exact absurd hcol (of_decide_eq_false h)
  · rintro - -
    exact ⟨.black, hparity⟩

variable {cf : Color} {node : Loc α} {child : RbNode α}

theorem eraseCases_spec (side : Side) (color : Color) (e s : α) (ht : Balanced t .black n)
    (hn : Balanced near cn n) (hfar : Balanced far cf n) :
    EraseRound color n (inorder (side.node color t e (side.node .black near s far)))
      (eraseCases side color t e near s far) := by
  cases cf with
  | red => exact eraseCases_far ht hn hfar
  | black =>
    cases cn with
    | red => exact eraseCases_near ht hn hfar
    | black => exact eraseCases_flip ht hn hfar

theorem Side.node_split (side : Side) (c : Color) (l : RbNode α) (e : α) (r : RbNode α) :
    side.node c (side.split l r).1 e (side.split l r).2 = .node c l e r := by
  cases side <;> rfl

theorem inorder_side_node (side : Side) (c c' : Color) (t : RbNode α) (e : α) (other : RbNode α)
    (up : List (Frame α)) :
    before up ++ inorder (side.node c t e other) ++ after up =
      before (⟨side, c', e, other⟩ :: up) ++ inorder t ++ after (⟨side, c', e, other⟩ :: up) := by
  cases side <;> simp [Side.node]

theorem eraseCases_red (ht : Balanced t .black n) (hn : Balanced near cn n)
    (hfar : Balanced far cf n) :
    (eraseCases side .red t e near s far).2 = false ∧
      ∃ c, Balanced (eraseCases side .red t e near s far).1 c (n + 1) := by
  have hround := eraseCases_spec side .red e s ht hn hfar
  cases hagain : (eraseCases side .red t e near s far).2 with
  | true => cases (hround.again hagain).1
  | false => exact ⟨rfl, hround.done_red hagain rfl⟩

theorem rbEraseColor_spec (ht : Balanced t .black n) (hup : Fits up red (n + 1)) :
    ∃ t', rbEraseColor t up = .ok t' ∧ Rebuilt t' up (inorder t) := by
  induction up generalizing t red n with
  | nil => exact ⟨t, rfl, ⟨n, ht⟩, by simp⟩
  | cons p up ih =>
    obtain ⟨side, color, e, other⟩ := p
    -- the entries around the parent after a round with a black sibling
    have hentries : ∀ (l r : RbNode α) (s : α) (c : Color),
        before up ++ inorder (side.node c t e (side.node .black (side.split l r).1 s
          (side.split l r).2)) ++ after up =
        before (⟨side, color, e, .node .black l s r⟩ :: up) ++ inorder t ++
          after (⟨side, color, e, .node .black l s r⟩ :: up) := by
      intro l r s c
      rw [Side.node_split]
      exact inorder_side_node side c color t e _ up
    cases hup with
    | red hother hup =>
      cases hother with
      | @black l r s cl cr _ hl hr =>
        obtain ⟨cn, cf, hn, hfar⟩ := hl.split side hr
        obtain ⟨hla, c, hbalanced⟩ := eraseCases_red (e := e) (s := s) ht hn hfar
        refine ⟨_, if_neg (Bool.eq_false_iff.mp hla), hup.unzip_any hbalanced, ?_⟩
        rw [inorder_unzip, (eraseCases_spec side .red e s ht hn hfar).inorder, hentries]
    | black hother hup =>
      cases hother with
      | @black l r s cl cr _ hl hr =>
        obtain ⟨cn, cf, hn, hfar⟩ := hl.split side hr
        have hround := eraseCases_spec side .black e s ht hn hfar
        cases hagain : (eraseCases side .black t e (side.split l r).1 s (side.split l r).2).2 with
        | true =>
          obtain ⟨t', hc, hval, horder⟩ := ih (hround.again hagain).2 hup
          refine ⟨t', (if_pos hagain).trans hc, hval, ?_⟩
          rw [horder, hround.inorder, hentries]
        | false =>
          refine ⟨_, if_neg (Bool.eq_false_iff.mp hagain),
            hup.unzip_black _ (hround.done_black hagain rfl), ?_⟩
          rw [inorder_unzip, hround.inorder, hentries]
      | @red l r s _ hl hr =>
        -- the sibling is red: after the rotation its near child is the sibling
        have hwhole := Side.node_split side .red l s r
        obtain ⟨hin, hout⟩ := hl.split_black side hr
        generalize hsplit : side.split l r = children at hin hout hwhole
        obtain ⟨near, far⟩ := children
        cases hin with
        | @black l' r' s' cl cr _ hl' hr' =>
          obtain ⟨cn, cf, hn, hfar⟩ := hl'.split side hr'
          have hround := eraseCases_spec side .red e s' ht hn hfar
          obtain ⟨-, c, hbalanced⟩ := eraseCases_red (e := e) (s := s') ht hn hfar
          refine ⟨unzip up (side.node .black (eraseCases side .red t e (side.split l' r').1
            s' (side.split l' r').2).1 s far), ?_, ?_, ?_⟩
          · simp [rbEraseColor, hsplit]
          · exact hup.unzip_black _ (hbalanced.black_side hout)
          · have horder := hround.inorder
            rw [Side.node_split] at horder
            rw [inorder_unzip, ← hwhole]
            cases side <;> simp [Side.node] at horder ⊢ <;> simp [horder]

theorem Valid.loc (h : Valid (unzip up t)) :
    ∃ red n c, Fits up red n ∧ Balanced t c n ∧ (c = .red → red = true) := by
  induction up generalizing t with
  | nil =>
    obtain ⟨n, h⟩ := h
    exact ⟨false, n, .black, .root n, h, nofun⟩
  | cons f up ih =>
    obtain ⟨side, color, e, other⟩ := f
    obtain ⟨red, n, c, hup, ht, hred⟩ := ih h
    have hchildren : ∃ n' c' c'', Balanced t c' n' ∧ Balanced other c'' n' ∧
        (color = .red → c = .red ∧ n = n' ∧ c' = .black ∧ c'' = .black) ∧
        (color = .black → n = n' + 1) := by
      cases side <;> cases ht with
      | red hl hr =>
        first
          | exact ⟨_, _, _, hl, hr, fun _ => ⟨rfl, rfl, rfl, rfl⟩, nofun⟩
          | exact ⟨_, _, _, hr, hl, fun _ => ⟨rfl, rfl, rfl, rfl⟩, nofun⟩
      | black hl hr =>
        first
          | exact ⟨_, _, _, hl, hr, nofun, fun _ => rfl⟩
          | exact ⟨_, _, _, hr, hl, nofun, fun _ => rfl⟩
    obtain ⟨n', c', c'', ht', hother, hr, hb⟩ := hchildren
    cases color with
    | red =>
      obtain ⟨rfl, rfl, rfl, rfl⟩ := hr rfl
      rw [hred rfl] at hup
      exact ⟨false, n, .black, .red hother hup, ht', nofun⟩
    | black =>
      have hn := hb rfl
      subst hn
      exact ⟨true, n', c', .black hother hup, ht', fun _ => rfl⟩

theorem Valid.setEntry (h : Valid node.root) (e : α) :
    Valid (Loc.root { node with entry := e }) := by
  obtain ⟨color, left, entry, right, up⟩ := node
  obtain ⟨red, n, c, hup, ht, hred⟩ := h.loc
  cases ht with
  | red hl hr =>
    rw [hred rfl] at hup
    exact hup.unzip_red (.red hl hr)
  | black hl hr => exact hup.unzip_black _ (.black hl hr)

theorem Fits.setEntry {up' : List (Frame α)} (h : Fits (up ++ ⟨side, c, e, t⟩ :: up') red n)
    (e' : α) :
    Fits (up ++ ⟨side, c, e', t⟩ :: up') red n := by
  induction up generalizing red n with
  | nil =>
    cases h with
    | red ht hup => exact .red ht hup
    | black ht hup => exact .black ht hup
  | cons f up ih =>
    cases h with
    | red ht hup => exact .red ht (ih hup)
    | black ht hup => exact .black ht (ih hup)

theorem erase_leaf (hup : Fits up red n) (ht : Balanced (.node c .nil e .nil) c' n)
    (hred : c' = .red → red = true) :
    ∃ t, (match c with
        | .black => rbEraseColor .nil up
        | .red => .ok (unzip up .nil)) = .ok t ∧ Rebuilt t up [] := by
  cases ht with
  | red hl hr =>
    cases hl
    refine ⟨_, rfl, hup.unzip_black _ .nil, ?_⟩
    rw [inorder_unzip, inorder_nil]
  | black hl hr =>
    cases hl
    exact rbEraseColor_spec .nil hup

theorem Balanced.only_child (h : Balanced (.node c l e r) c' n)
    (hch : l = .nil ∧ r = child ∨ l = child ∧ r = .nil) (hne : child ≠ .nil) :
    c = .black ∧ c' = .black ∧ Balanced child .red 0 ∧ n = 1 := by
  have hred : ∀ {n : ℕ} {cc : Color}, Balanced child cc n → n = 0 → cc = .red := by
    intro n cc hcc hn
    cases hcc with
    | nil => exact absurd rfl hne
    | red => rfl
    | black => cases hn
  cases h with
  | red hl hr =>
    obtain ⟨rfl, rfl⟩ | ⟨rfl, rfl⟩ := hch
    · cases hl
      cases hred hr rfl
    · cases hr
      cases hred hl rfl
  | black hl hr =>
    obtain ⟨rfl, rfl⟩ | ⟨rfl, rfl⟩ := hch
    · cases hl
      obtain rfl := hred hr rfl
      exact ⟨rfl, rfl, hr, rfl⟩
    · cases hr
      obtain rfl := hred hl rfl
      exact ⟨rfl, rfl, hl, rfl⟩

theorem erase_only_child (hup : Fits up red n) (ht : Balanced (.node c l e r) c' n)
    (hch : l = .nil ∧ r = child ∨ l = child ∧ r = .nil) (hne : child ≠ .nil) :
    Rebuilt (unzip up (setColor c child)) up (inorder child) := by
  obtain ⟨rfl, rfl, hbalanced, rfl⟩ := ht.only_child hch hne
  refine ⟨?_, by rw [inorder_unzip, inorder_setColor]⟩
  cases hbalanced with
  | red hl hr => exact hup.unzip_black _ (.black hl hr)

theorem furthest_left_append (c : Color) (l : RbNode α) (e : α) (r : RbNode α)
    (up up' : List (Frame α)) :
    furthest .left c l e r (up ++ up') =
      { furthest .left c l e r up with up := (furthest .left c l e r up).up ++ up' } := by
  induction l generalizing c e r up with
  | nil => rfl
  | node c' l' e' r' ihl => exact ihl c' e' r' (⟨.left, c, e, r⟩ :: up)

theorem furthest_left_left (c : Color) (l : RbNode α) (e : α) (r : RbNode α) (up : List (Frame α)) :
    (furthest .left c l e r up).left = .nil := by
  induction l generalizing c e r up with
  | nil => rfl
  | node c' l' e' r' ihl => exact ihl c' e' r' (⟨.left, c, e, r⟩ :: up)

theorem successor_spec (node : Loc α) (hright : node.right = .node c l e r) :
    unzip ((furthest .left c l e r []).up ++ ⟨.right, node.color, node.entry, node.left⟩ :: node.up)
        (.node (furthest .left c l e r []).color .nil (furthest .left c l e r []).entry
          (furthest .left c l e r []).right) = node.root ∧
      before (furthest .left c l e r []).up = [] ∧
      (furthest .left c l e r []).entry :: (inorder (furthest .left c l e r []).right ++
        after (furthest .left c l e r []).up) = inorder node.right := by
  obtain ⟨hr, hbefore⟩ := furthest_spec .left c l e r
    ([] ++ ⟨.right, node.color, node.entry, node.left⟩ :: node.up)
  obtain ⟨hr', hbefore'⟩ := furthest_spec .left c l e r []
  rw [furthest_left_append, Loc.root, furthest_left_left] at hr
  have hemp : before (furthest .left c l e r []).up = [] := by
    simpa [Loc.before, furthest_left_left] using hbefore'
  refine ⟨?_, hemp, ?_⟩
  · rw [hr, Loc.root, hright]
    rfl
  · have hs := congrArg inorder hr'
    rw [Loc.inorder_root, hbefore'] at hs
    rw [hright]
    exact hs

theorem setColor_black (t : RbNode α) : setColor .black t = blacken t := by cases t <;> rfl

/-- A node with two children gives its place to its successor. -/
theorem rbErase_two_children {lc rc : Color} {ll lr rl rr : RbNode α} {entry le re : α}
    (h : Valid (Loc.root ⟨color, .node lc ll le lr, entry, .node rc rl re rr, up⟩)) :
    ∃ t, rbErase ⟨color, .node lc ll le lr, entry, .node rc rl re rr, up⟩ = .ok t ∧ Valid t ∧
      inorder t = before up ++ inorder (.node lc ll le lr) ++
        (inorder (.node rc rl re rr) ++ after up) := by
  obtain ⟨hr, hbefore, hright⟩ :=
    successor_spec ⟨color, .node lc ll le lr, entry, .node rc rl re rr, up⟩ rfl
  obtain ⟨red, n, c, hup, ht, hred⟩ := (hr ▸ h).loc
  have hup' := hup.setEntry (furthest .left rc rl re rr []).entry
  -- what remains when the successor is taken out of its own place
  have horder : ∀ rest, inorder (furthest .left rc rl re rr []).right = rest →
      before ((furthest .left rc rl re rr []).up ++ ⟨.right, color,
        (furthest .left rc rl re rr []).entry, .node lc ll le lr⟩ :: up) ++ rest ++
        after ((furthest .left rc rl re rr []).up ++ ⟨.right, color,
          (furthest .left rc rl re rr []).entry, .node lc ll le lr⟩ :: up) =
      before up ++ inorder (.node lc ll le lr) ++ (inorder (.node rc rl re rr) ++ after up) := by
    rw [(sides_append _ _).1, (sides_append _ _).2, hbefore, ← hright]
    simp
  cases hch : (furthest .left rc rl re rr []).right with
  | nil =>
    rw [hch] at ht
    obtain ⟨t, hc, hval, hino⟩ := erase_leaf hup' ht hred
    refine ⟨t, ?_, hval, ?_⟩
    · simp only [rbErase, hch]
      exact hc
    · rw [hino, horder [] (by rw [hch, inorder_nil])]
  | node cc cl ce cr =>
    have hne : (furthest .left rc rl re rr []).right ≠ .nil := by
      rw [hch]
      rintro ⟨⟩
    obtain ⟨hblack, -, -, -⟩ := ht.only_child (.inl ⟨rfl, rfl⟩) hne
    have hrebuilt := erase_only_child hup' ht (.inl ⟨rfl, rfl⟩) hne
    rw [hblack, setColor_black] at hrebuilt
    refine ⟨_, ?_, hrebuilt.valid, ?_⟩
    · simp [rbErase]
    · rw [hrebuilt.inorder, horder _ (by rw [hch])]

theorem rbErase_spec (h : Valid node.root) :
    ∃ t, rbErase node = .ok t ∧ Valid t ∧ inorder t = node.before ++ node.after := by
  obtain ⟨color, left, entry, right, up⟩ := node
  obtain ⟨red, n, c, hup, ht, hred⟩ := h.loc
  cases hl : left with
  | nil =>
    subst hl
    cases hr : right with
    | nil =>
      subst hr
      obtain ⟨t, hc, hval, horder⟩ := erase_leaf hup ht hred
      refine ⟨t, hc, hval, ?_⟩
      simpa [Loc.before, Loc.after] using horder
    | node rc rl re rr =>
      have hrebuilt := erase_only_child hup ht (.inl ⟨rfl, hr⟩) (by rintro ⟨⟩)
      refine ⟨_, rfl, hrebuilt.valid, ?_⟩
      rw [hrebuilt.inorder]
      simp [Loc.before, Loc.after]
  | node lc ll le lr =>
    subst hl
    cases hr : right with
    | nil =>
      subst hr
      have hrebuilt := erase_only_child hup ht (.inr ⟨rfl, rfl⟩) (by rintro ⟨⟩)
      refine ⟨_, rfl, hrebuilt.valid, ?_⟩
      rw [hrebuilt.inorder]
      simp [Loc.before, Loc.after]
    | node rc rl re rr =>
      subst hr
      exact rbErase_two_children h

end Btrfs.RbTree
