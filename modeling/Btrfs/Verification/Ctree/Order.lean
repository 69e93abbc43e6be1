import Btrfs.Model.Ctree.Search

/-! # The order of keys and binary search -/

namespace Btrfs.Ctree

/-! ## Keys -/

/-- The fields of a key in the order of comparison. -/
def Key.lex (k : Key) : ℕ ×ₗ ℕ ×ₗ ℕ := toLex (k.objectid, toLex (k.type, k.offset))

theorem Key.lex_injective : Function.Injective Key.lex := by
  intro k1 k2 h
  cases k1
  cases k2
  simpa [Key.lex] using h

instance : LinearOrder Key := LinearOrder.lift' Key.lex Key.lex_injective

theorem Key.lt_iff (k1 k2 : Key) : k1 < k2 ↔ k1.objectid < k2.objectid ∨ k1.objectid = k2.objectid ∧
      (k1.type < k2.type ∨ k1.type = k2.type ∧ k1.offset < k2.offset) := by
  change Key.lex k1 < Key.lex k2 ↔ _
  simp [Key.lex, Prod.Lex.toLex_lt_toLex]

theorem btrfsCompCpuKeys_eq (k1 k2 : Key) :
    btrfsCompCpuKeys k1 k2 = if k2 < k1 then 1 else if k1 < k2 then -1 else 0 := by
  unfold btrfsCompCpuKeys
  simp only [Key.lt_iff]
  split_ifs <;> first | rfl | omega

variable {k1 k2 : Key} {keys : List Key}

theorem btrfsCompCpuKeys_neg : btrfsCompCpuKeys k1 k2 < 0 ↔ k1 < k2 := by
  rw [btrfsCompCpuKeys_eq]
  rcases lt_trichotomy k1 k2 with h | h | h
  · simp [h, h.not_gt]
  · simp [h]
  · simp [h, h.not_gt]

theorem btrfsCompCpuKeys_pos : 0 < btrfsCompCpuKeys k1 k2 ↔ k2 < k1 := by
  rw [btrfsCompCpuKeys_eq]
  rcases lt_trichotomy k1 k2 with h | h | h
  · simp [h, h.not_gt]
  · simp [h]
  · simp [h]

/-! ## Binary search -/

/-- The slot splits the keys into those below the searched one and the others. -/
structure SlotSpec (keys : List Key) (key : Key) (ret : ℤ) (slot : ℕ) : Prop where
  bound : slot ≤ keys.length
  below : ∀ k ∈ keys.take slot, k < key
  above : ∀ k ∈ keys.drop slot, key ≤ k
  found : ret = if (keys.drop slot).head? = some key then 0 else 1

theorem SlotSpec.lt_of_not_found {key : Key} {ret : ℤ} {slot : ℕ} (h : SlotSpec keys key ret slot)
    (hsorted : keys.Pairwise (· < ·)) (hret : ret ≠ 0) :
    ∀ k ∈ keys.drop slot, key < k := by
  have hfound := h.found
  have habove := h.above
  have hsub : (keys.drop slot).Pairwise (· < ·) := hsorted.drop
  cases hd : keys.drop slot with
  | nil => simp
  | cons first rest =>
    rw [hd] at hfound habove hsub
    have hfirst : key < first := by
      refine lt_of_le_of_ne (habove first (by simp)) fun heq => hret ?_
      simp [hfound, heq]
    exact List.forall_mem_cons.mpr ⟨hfirst,
      fun k hk => hfirst.trans ((List.pairwise_cons.mp hsub).1 k hk)⟩

theorem binSearchLoop_spec (hsorted : keys.Pairwise (· < ·)) (key : Key) (n : ℕ) {low high : ℕ}
    (hlow : low ≤ high) (hhigh : high ≤ keys.length) (hn : high - low ≤ n)
    (hbelow : ∀ k ∈ keys.take low, k < key) (habove : ∀ k ∈ keys.drop high, key < k) :
    SlotSpec keys key (binSearchLoop keys key n low high).1
      (binSearchLoop keys key n low high).2 := by
  have hdo : ∀ slot, slot ≤ keys.length → (∀ k ∈ keys.take slot, k < key) →
      (∀ k ∈ keys.drop slot, key < k) → SlotSpec keys key 1 slot := by
    intro slot hs hbelow habove
    refine ⟨hs, hbelow, fun k hk => (habove k hk).le, ?_⟩
    rw [if_neg]
    intro h
    exact absurd (habove key (List.mem_of_mem_head? h)) (lt_irrefl key)
  induction n generalizing low high with
  | zero =>
    have heq : low = high := by omega
    subst heq
    exact hdo low hhigh hbelow habove
  | succ n ih =>
    rw [binSearchLoop]
    by_cases hlt : low < high
    · rw [if_pos hlt]
      have hmid : (low + high) / 2 < keys.length := by omega
      have hget : keys.getD ((low + high) / 2) key = keys[(low + high) / 2] := by simp [hmid]
      simp only [hget]
      have ht : keys.take ((low + high) / 2 + 1) =
          keys.take ((low + high) / 2) ++ [keys[(low + high) / 2]] := by simp
      have hd : keys.drop ((low + high) / 2) =
          keys[(low + high) / 2] :: keys.drop ((low + high) / 2 + 1) :=
        List.drop_eq_getElem_cons hmid
      have hp := hsorted
      rw [← List.take_append_drop ((low + high) / 2) keys, hd, List.pairwise_append,
        List.pairwise_cons] at hp
      by_cases hless : keys[(low + high) / 2] < key
      · rw [if_pos (btrfsCompCpuKeys_neg.mpr hless)]
        refine ih (by omega) hhigh (by omega) ?_ habove
        intro k hk
        rw [ht] at hk
        rcases List.mem_append.mp hk with hk | hk
        · exact (hp.2.2 k hk _ List.mem_cons_self).trans hless
        · rw [List.mem_singleton.mp hk]
          exact hless
      · rw [if_neg fun h => hless (btrfsCompCpuKeys_neg.mp h)]
        by_cases hgreater : key < keys[(low + high) / 2]
        · rw [if_pos (btrfsCompCpuKeys_pos.mpr hgreater)]
          refine ih (by omega) (by omega) (by omega) hbelow ?_
          intro k hk
          rw [hd] at hk
          rcases List.mem_cons.mp hk with rfl | hk
          · exact hgreater
          · exact hgreater.trans (hp.2.1.1 k hk)
        · rw [if_neg fun h => hgreater (btrfsCompCpuKeys_pos.mp h)]
          have heq : keys[(low + high) / 2] = key := le_antisymm (not_lt.mp hgreater)
            (not_lt.mp hless)
          rw [heq] at hd hp
          refine ⟨hmid.le, fun k hk => hp.2.2 k hk key (by simp), ?_, ?_⟩
          · intro k hk
            rw [hd] at hk
            rcases List.mem_cons.mp hk with rfl | hk
            · exact le_rfl
            · exact (hp.2.1.1 k hk).le
          · simp [hd]
    · rw [if_neg hlt]
      have heq : low = high := by omega
      subst heq
      exact hdo low hhigh hbelow habove

theorem binSearch_spec {eb : ExtentBuffer} (hsorted : eb.keys.Pairwise (· < ·)) (key : Key) :
    SlotSpec eb.keys key (binSearch eb key).1 (binSearch eb key).2 :=
  binSearchLoop_spec hsorted key _ (Nat.zero_le _) le_rfl le_rfl (by simp)
    (by simp [ExtentBuffer.nritems])

end Btrfs.Ctree
