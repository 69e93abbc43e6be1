import Btrfs.Model.MountRoot

/-! # The mount point that covers a path

Directories are compared as strings, so a mount on `/a` is taken for a part of `/ab`. -/

namespace Btrfs.Utils

variable {path : List Char} {mnttab : List Mntent} {e : Mntent}
  {realpath : List Char → Except ℤ (List Char)}

/-- The directory is the path, or whole components at its start. -/
def OnPath (path dir : List Char) : Prop :=
  dir <+: path ∧ (dir = path ∨ dir = ['/'] ∨ dir ++ ['/'] <+: path)

/-- The last of the longest directories with a property. -/
def Selects (p : List Char → Prop) (mnttab : List Mntent) (e : Mntent) : Prop :=
  ∃ front behind, mnttab = front ++ e :: behind ∧ p e.mntDir ∧
    (∀ x ∈ front, p x.mntDir → x.mntDir.length ≤ e.mntDir.length) ∧
    ∀ x ∈ behind, p x.mntDir → x.mntDir.length < e.mntDir.length

/-- What the loop knows of the entries it has seen. -/
def Longest (p : List Char → Prop) (seen : List Mntent) : Option Mntent → Prop
  | none => ∀ x ∈ seen, ¬ p x.mntDir
  | some e => Selects p seen e

variable {seen : List Mntent} {longest : Option Mntent}

theorem Longest.step {p : List Char → Prop} [DecidablePred p] (h : Longest p seen longest) :
    Longest p (seen ++ [e])
      (if p e.mntDir ∧ (longest.map fun e => e.mntDir.length).getD 0 ≤ e.mntDir.length then some e
        else longest) := by
  cases longest with
  | none =>
    simp only [Longest] at h
    split_ifs with ht
    · exact ⟨seen, [], rfl, ht.1, by grind, by simp⟩
    · simp only [Longest]
      grind
  | some top =>
    obtain ⟨front, behind, rfl, hp, hfr, hbehind⟩ := h
    split_ifs with ht
    · exact ⟨front ++ top :: behind, [], rfl, ht.1, by grind, by simp⟩
    · exact ⟨front, behind ++ [e], by simp, hp, hfr, by grind⟩

theorem findMountLoop_longest (h : Longest (· <+: path) seen longest) :
    Longest (· <+: path) (seen ++ mnttab) (findMountLoop path longest mnttab) := by
  induction mnttab generalizing seen longest with
  | nil => simpa [findMountLoop] using h
  | cons ent mnttab ih =>
    rw [findMountLoop, List.append_cons]
    exact ih h.step

theorem Selects.unique {p : List Char → Prop} {a b : Mntent} (ha : Selects p mnttab a)
    (hb : Selects p mnttab b) : a = b := by
  obtain ⟨front, behind, rfl, hpa, hfront, hbehind⟩ := ha
  obtain ⟨front', behind', hsplit, hpb, hfront', hbehind'⟩ := hb
  -- the one that comes first is not longer than the other, and the other is longer
  rcases List.append_eq_append_iff.mp hsplit with ⟨mid, rfl, hmid⟩ | ⟨mid, rfl, hmid⟩ <;>
    rcases mid with _ | ⟨x, mid⟩
  · exact (List.cons.inj hmid).1
  · obtain ⟨rfl, rfl⟩ := List.cons.inj hmid
    have hlt := hbehind b (by simp) hpb
    have hle := hfront' a (by simp) hpa
    omega
  · exact (List.cons.inj hmid).1.symm
  · obtain ⟨rfl, rfl⟩ := List.cons.inj hmid
    have hlt := hbehind' a (by simp) hpa
    have hle := hfront b (by simp) hpb
    omega

theorem Selects.mem {p : List Char → Prop} (h : Selects p mnttab e) : e ∈ mnttab := by
  obtain ⟨front, behind, rfl, -⟩ := h
  simp

theorem Selects.length_le {p : List Char → Prop} (h : Selects p mnttab e) {x : Mntent}
    (hx : x ∈ mnttab) (hp : p x.mntDir) : x.mntDir.length ≤ e.mntDir.length := by
  obtain ⟨front, behind, rfl, -, hfront, hbehind⟩ := h
  rcases List.mem_append.mp hx with hx | hx
  · exact hfront x hx hp
  · rcases List.mem_cons.mp hx with rfl | hx
    · exact le_rfl
    · exact (hbehind x hx hp).le

theorem Selects.onPath (h : Selects (· <+: path) mnttab e) (hon : OnPath path e.mntDir) :
    Selects (OnPath path) mnttab e := by
  obtain ⟨front, behind, hsplit, -, hfront, hbehind⟩ := h
  exact ⟨front, behind, hsplit, hon, fun x hx hp => hfront x hx hp.1,
    fun x hx hp => hbehind x hx hp.1⟩

/-- What `find_mount_root` should answer: the last of the longest directories on the path. -/
def Answers (realpath : List Char → Except ℤ (List Char)) (mnttab : List Mntent)
    (path : List Char) : Prop :=
  (∃ e, Selects (OnPath path) mnttab e ∧ findMountRoot realpath mnttab path =
      if e.mntType = "btrfs".toList then (0, some e.mntDir) else (1, none)) ∨
    (∀ e ∈ mnttab, ¬ OnPath path e.mntDir) ∧ findMountRoot realpath mnttab path = (-2, none)

theorem findMountRoot_of_selects (h : Selects (· <+: path) mnttab e)
    (hreal : realpath e.mntDir = .ok e.mntDir) : findMountRoot realpath mnttab path =
      if e.mntType = "btrfs".toList then (0, some e.mntDir) else (1, none) := by
  have hl : Longest (· <+: path) mnttab (findMountLoop path none mnttab) :=
    findMountLoop_longest (show Longest (· <+: path) [] none by simp [Longest])
  cases hfound : findMountLoop path none mnttab with
  | none =>
    rw [hfound] at hl
    obtain ⟨front, behind, hsplit, hp, -⟩ := h
    exact absurd hp (hl e (by simp [hsplit]))
  | some top =>
    rw [hfound] at hl
    obtain rfl := h.unique hl
    simp only [findMountRoot, hfound, hreal]
    split_ifs <;> simp_all

/-- Where each mount directory is its own real path, the answer is right exactly when every directory
that ends inside a component of the path is shorter than one on the path, or when neither the choice
among the string prefixes nor the one among the directories on the path is a btrfs. -/
theorem findMountRoot_answers_iff (hreal : ∀ e ∈ mnttab, realpath e.mntDir = .ok e.mntDir) :
    Answers realpath mnttab path ↔
      (∀ x ∈ mnttab, x.mntDir <+: path → ¬ OnPath path x.mntDir →
        ∃ e ∈ mnttab, OnPath path e.mntDir ∧ x.mntDir.length < e.mntDir.length) ∨
      ∃ s e, Selects (· <+: path) mnttab s ∧ Selects (OnPath path) mnttab e ∧
        s.mntType ≠ "btrfs".toList ∧ e.mntType ≠ "btrfs".toList := by
  have hl : Longest (· <+: path) mnttab (findMountLoop path none mnttab) :=
    findMountLoop_longest (show Longest (· <+: path) [] none by simp [Longest])
  cases hfound : findMountLoop path none mnttab with
  | none =>
    rw [hfound] at hl
    have hright : Answers realpath mnttab path :=
      Or.inr ⟨fun e he hon => hl e he hon.1, by simp [findMountRoot, hfound]⟩
    exact iff_of_true hright (Or.inl fun x hx hp => absurd hp (hl x hx))
  | some s =>
    rw [hfound] at hl
    have hs : Selects (· <+: path) mnttab s := hl
    have hp : s.mntDir <+: path := by
      obtain ⟨-, -, -, hp, -⟩ := hs
      exact hp
    have hroot := findMountRoot_of_selects hs (hreal s hs.mem)
    by_cases hon : OnPath path s.mntDir
    · refine iff_of_true (Or.inl ⟨s, hs.onPath hon, hroot⟩) (Or.inl fun x hx hxp hnot => ?_)
      refine ⟨s, hs.mem, hon, lt_of_le_of_ne (hs.length_le hx hxp) fun hlen => hnot ?_⟩
      -- prefixes of one length are the same
      rw [(List.prefix_of_prefix_length_le hxp hp hlen.le).eq_of_length hlen]
      exact hon
    · have hshadow : ¬ ∀ x ∈ mnttab, x.mntDir <+: path → ¬ OnPath path x.mntDir →
          ∃ e ∈ mnttab, OnPath path e.mntDir ∧ x.mntDir.length < e.mntDir.length := by
        intro h
        obtain ⟨e, he, hone, hlt⟩ := h s hs.mem hp hon
        have hle := hs.length_le he hone.1
        omega
      rw [or_iff_right hshadow]
      constructor
      · rintro (⟨e, he, heq⟩ | ⟨-, heq⟩)
        · rw [hroot] at heq
          refine ⟨s, e, hs, he, ?_⟩
          by_cases hst : s.mntType = "btrfs".toList <;> by_cases het : e.mntType = "btrfs".toList
          · rw [if_pos hst, if_pos het] at heq
            obtain ⟨front, behind, -, hone, -⟩ := he
            exact absurd (Option.some.inj (Prod.mk.inj heq).2 ▸ hone) hon
          · rw [if_pos hst, if_neg het] at heq
            simp at heq
          · rw [if_neg hst, if_pos het] at heq
            simp at heq
          · exact ⟨hst, het⟩
        · rw [hroot] at heq
          split_ifs at heq <;> simp at heq
      · rintro ⟨s', e, hs', he, hst, het⟩
        obtain rfl := hs.unique hs'
        exact Or.inl ⟨e, he, by rw [hroot, if_neg hst, if_neg het]⟩

theorem findMountRoot_home2 : Answers .ok
    [⟨"/".toList, "ext4".toList⟩, ⟨"/home2".toList, "btrfs".toList⟩,
      ⟨"/home".toList, "btrfs".toList⟩] "/home2/u".toList :=
  (findMountRoot_answers_iff (by simp)).mpr (Or.inl (by simp [OnPath]))

/-- The mount on `/a` is found for `/ab`. -/
theorem findMountRoot_sibling :
    findMountRoot .ok [⟨['/', 'a'], "btrfs".toList⟩] ['/', 'a', 'b'] = (0, some ['/', 'a']) ∧
      ¬ OnPath ['/', 'a', 'b'] ['/', 'a'] := by
  simp [findMountRoot, findMountLoop, OnPath]

end Btrfs.Utils
