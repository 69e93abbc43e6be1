import Btrfs.Model.Image.Sanitize
import Btrfs.Verification.RbTree.Search

/-! # `tree_insert` of the image tool -/

namespace Btrfs.Sanitize

open RbTree

variable {α : Type*}

theorem treeInsert_of_rbInsert {cmp : α → ℤ} {root root' : RbNode α} {ins : α}
    (h : rbInsert root ins cmp = .ok (0, root')) : treeInsert cmp root ins = .ok root' := by
  rw [rbInsert] at h
  rw [treeInsert]
  cases hplace : findInsertPlace cmp root [] with
  | none =>
    rw [hplace] at h
    obtain ⟨hret, -⟩ := Prod.mk.inj (Except.ok.inj h)
    exact absurd hret (by decide)
  | some up =>
    rw [hplace] at h
    simp only [bind, Except.bind] at h
    cases hcol : rbInsertColor .nil ins .nil up with
    | error fault =>
      rw [hcol] at h
      cases h
    | ok t =>
      rw [hcol] at h
      exact hcol.trans (congrArg Except.ok (Prod.mk.inj (Except.ok.inj h)).2)

section

variable {cmp : α → ℤ} {root : RbNode α}

theorem treeInsert_of_eexist {ins : α} (h : rbInsert root ins cmp = .ok (-EEXIST, root)) :
    treeInsert cmp root ins = .error .bug := by
  rw [rbInsert] at h
  rw [treeInsert]
  cases hplace : findInsertPlace cmp root [] with
  | none => rfl
  | some up =>
    rw [hplace] at h
    simp only [bind, Except.bind] at h
    cases hcol : rbInsertColor .nil ins .nil up with
    | error fault =>
      rw [hcol] at h
      cases h
    | ok t =>
      rw [hcol] at h
      exact absurd (Prod.mk.inj (Except.ok.inj h)).1 (by decide)

theorem treeInsert_sound {root' : RbNode α} {ins : α} (hval : Valid root)
    (h : treeInsert cmp root ins = .ok root') :
    Valid root' ∧ ∃ below above, inorder root = below ++ above ∧
      inorder root' = below ++ ins :: above := by
  obtain hexist | ⟨root'', below, above, happend, hins, hval', hino⟩ := rbInsert_sound cmp ins hval
  · rw [treeInsert_of_eexist hexist] at h
    cases h
  · rw [treeInsert_of_rbInsert hins] at h
    cases h
    exact ⟨hval', below, above, happend, hino⟩

theorem treeInsert_spec (ins : α) (hval : Valid root) (hc : Consistent cmp (inorder root))
    (hne : ∀ e ∈ inorder root, cmp e ≠ 0) :
    ∃ root' below above, treeInsert cmp root ins = .ok root' ∧ Valid root' ∧
      Cut cmp (inorder root) below above ∧ inorder root' = below ++ ins :: above := by
  obtain ⟨⟨e, he, hz⟩, -⟩ | ⟨root', below, above, hcut, hinside, hval', hino⟩ :=
    rbInsert_spec ins hval hc
  · exact absurd hz (hne e he)
  · exact ⟨root', below, above, treeInsert_of_rbInsert hinside, hval', hcut, hino⟩

end

end Btrfs.Sanitize
