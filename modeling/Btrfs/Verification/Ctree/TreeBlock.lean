import Btrfs.Model.Ctree.TreeBlock
import Btrfs.Verification.Ctree.Order
import Btrfs.Verification.Shared.Bytes

/-! # What the checks of a tree block accept -/

namespace Btrfs.Ctree

/-! ## `int` arithmetic -/

theorem toInt32_of_range {n : ℤ} (hlo : -2 ^ 31 ≤ n) (hhi : n < 2 ^ 31) : toInt32 n = n := by
  rw [toInt32]
  omega

theorem toInt32_add_mul (n k : ℤ) : toInt32 (n + 2 ^ 32 * k) = toInt32 n := by
  simp [toInt32, toInt32, Int.add_right_comm]

theorem toInt32_eq_add_mul (n : ℤ) : ∃ k, toInt32 n = n + 2 ^ 32 * k := by
  refine ⟨-((n + 2 ^ 31) / 2 ^ 32), ?_⟩
  rw [toInt32]
  omega

theorem toInt32_sub_toInt32 (m n : ℤ) : toInt32 (m - toInt32 n) = toInt32 (m - n) := by
  obtain ⟨k, hk⟩ := toInt32_eq_add_mul n
  rw [hk, show m - (n + 2 ^ 32 * k) = m - n + 2 ^ 32 * -k by omega, toInt32_add_mul]

namespace TreeBlock

variable {nodesize : ℕ} {parentKey : Option Key} {buf : TreeBlock}

/-! ## Nodes -/

theorem nodeKeysLoop_iff (buf : TreeBlock) (n i : ℕ) :
    nodeKeysLoop buf n i = .clean ↔ ∀ j, i ≤ j → j < i + n → buf.nodeKey j < buf.nodeKey (j + 1) := by
  induction n generalizing i with
  | zero => exact iff_of_true rfl fun j hlo hhi => by omega
  | succ n ih =>
    rw [nodeKeysLoop]
    by_cases horder : buf.nodeKey i < buf.nodeKey (i + 1)
    · rw [if_neg (not_le.mpr (btrfsCompCpuKeys_neg.mpr horder)), ih]
      refine ⟨fun h j hlo hhi => ?_, fun h j hlo hhi => h j (by omega) (by omega)⟩
      rcases Nat.eq_or_lt_of_le hlo with rfl | hlt
      · exact horder
      · exact h j hlt (by omega)
    · rw [if_pos (not_lt.mp fun h => horder (btrfsCompCpuKeys_neg.mp h))]
      refine iff_of_false (by simp) fun h => horder (h i (Nat.le_refl _) (by omega))

theorem sorted_iff_adjacent {key : ℕ → Key} {n : ℕ} :
    ((List.range n).map key).Pairwise (· < ·) ↔ ∀ i, i + 1 < n → key i < key (i + 1) := by
  rw [List.pairwise_iff_getElem]
  simp only [List.length_map, List.length_range, List.getElem_map, List.getElem_range]
  refine ⟨fun h i hi => h i (i + 1) (by omega) hi (Nat.lt_succ_self i), ?_⟩
  intro h i j hi hj hij
  induction j, hij using Nat.le_induction with
  | base => exact h i hj
  | succ j hij ih => exact (ih (by omega)).trans (h j hj)

theorem keys_node (buf : TreeBlock) {level : ℕ} (hlevel : level ≠ 0) :
    buf.keys level = (List.range buf.nritems).map buf.nodeKey := by
  simp [keys, hlevel]

/-- `btrfs_check_node` compares all adjacent keys but the last two. -/
theorem btrfsCheckNode_clean_iff (hnr : buf.nritems ≠ 0)
    (hmax : buf.nritems ≤ nodeptrsPerBlock nodesize)
    (hparity : parentKeyDiffers parentKey (buf.nodeKey 0) = false) :
    btrfsCheckNode nodesize parentKey buf = .clean ↔
      ∀ i, i + 2 < buf.nritems → buf.nodeKey i < buf.nodeKey (i + 1) := by
  rw [btrfsCheckNode, if_neg (by omega), hparity, if_neg (by simp), nodeKeysLoop_iff]
  refine ⟨fun h i hi => h i (Nat.zero_le _) (by omega), fun h i _ hi => h i (by omega)⟩

/-- The slots that split the keys of a block at `key`. -/
def IsSlot (keys : List Key) (key : Key) (slot : ℕ) : Prop :=
  slot ≤ keys.length ∧ (∀ k ∈ keys.take slot, k < key) ∧ ∀ k ∈ keys.drop slot, key ≤ k

theorem IsSlot.unique {keys : List Key} {key : Key} {slot slot' : ℕ} (h : IsSlot keys key slot)
    (h' : IsSlot keys key slot') : slot = slot' := by
  -- otherwise the key at the lower slot is on both sides
  have hle : ∀ {s s'}, IsSlot keys key s → IsSlot keys key s' → s' ≤ s := by
    intro s s' hs hs'
    by_contra hlt
    have hget : s < keys.length := by
      have := hs'.1
      omega
    have habove := hs.2.2 keys[s] (List.mem_drop_iff_getElem.mpr ⟨0, by omega, rfl⟩)
    have hbelow := hs'.2.1 keys[s] (List.mem_take_iff_getElem.mpr ⟨s, by omega, rfl⟩)
    exact absurd hbelow (not_lt.mpr habove)
  exact Nat.le_antisymm (hle h' h) (hle h h')

/-- `btrfs_check_node` accepts exactly the nodes with keys in order, and `bin_search` finds the
slot in every node that `check_block` accepts, if and only if the last two keys are in order
whenever those before them are. -/
theorem btrfsCheckNode_sound_iff {level : ℕ} (hlevel : level ≠ 0) (hnr : 1 ≤ buf.nritems)
    (hmax : buf.nritems ≤ nodeptrsPerBlock nodesize)
    (hparent : parentKeyDiffers parentKey (buf.nodeKey 0) = false) :
    (btrfsCheckNode nodesize parentKey buf = .clean ↔ (buf.keys level).Pairwise (· < ·)) ∧
        (checkBlock nodesize parentKey level buf = 0 → ∀ key,
          IsSlot (buf.keys level) key (buf.binSearch key level).2 ∧
            ∀ slot, IsSlot (buf.keys level) key slot → slot = (buf.binSearch key level).2) ↔
      ((∀ i, i + 2 < buf.nritems → buf.nodeKey i < buf.nodeKey (i + 1)) →
        ∀ i, i + 2 = buf.nritems → buf.nodeKey i < buf.nodeKey (i + 1)) := by
  have hclean := @btrfsCheckNode_clean_iff nodesize parentKey buf (by omega) hmax hparent
  have hk : (buf.keys level).Pairwise (· < ·) ↔
      ∀ i, i + 1 < buf.nritems → buf.nodeKey i < buf.nodeKey (i + 1) := by
    rw [keys_node buf hlevel, sorted_iff_adjacent]
  constructor
  · rintro ⟨hiff, -⟩ hinit i hi
    exact hk.mp (hiff.mp (hclean.mpr hinit)) i (by omega)
  · intro hl
    have hiff : btrfsCheckNode nodesize parentKey buf = .clean ↔
        (buf.keys level).Pairwise (· < ·) := by
      rw [hclean, hk]
      refine ⟨fun h i hi => ?_, fun h i hi => h i (by omega)⟩
      rcases Nat.lt_or_eq_of_le (show i + 2 ≤ buf.nritems from hi) with hlt | heq
      · exact h i hlt
      · exact hl h i heq
    refine ⟨hiff, ?_⟩
    intro hcheck key
    have hsorted : (buf.keys level).Pairwise (· < ·) := by
      apply hiff.mp
      by_contra hbad
      rw [checkBlock, if_neg hlevel] at hcheck
      simp only [if_neg hbad] at hcheck
      exact absurd hcheck (by decide)
    have hlen : (buf.keys level).length = buf.nritems := by simp [keys]
    have hs := binSearchLoop_spec hsorted key buf.nritems (Nat.zero_le _) hlen.ge
      (Nat.sub_le _ _) (by simp) (by simp [← hlen])
    have hsl : IsSlot (buf.keys level) key (buf.binSearch key level).2 :=
      ⟨hs.bound, hs.below, hs.above⟩
    exact ⟨hsl, fun slot h => h.unique hsl⟩

def swappedNode : TreeBlock :=
  ⟨List.replicate 96 0 ++ [2, 0, 0, 0, 1] ++ ([5, 0, 0, 0, 0, 0, 0, 0] ++ List.replicate 25 0) ++
    ([3, 0, 0, 0, 0, 0, 0, 0] ++ List.replicate 25 0) ++ List.replicate 3929 0⟩

theorem btrfsCheckNode_accepts_swapped :
    swappedNode.data.length = 4096 ∧ btrfsCheckNode 4096 none swappedNode = .clean ∧
      ¬ (swappedNode.keys 1).Pairwise (· < ·) ∧
      swappedNode.binSearch ⟨4, 0, 0⟩ 1 = (1, 2) ∧ swappedNode.nodeKey 0 = ⟨5, 0, 0⟩ := by
  refine ⟨?_, by decide, ?_, ?_, by decide⟩
  · simp only [swappedNode, List.length_append, List.length_replicate, List.length_cons,
      List.length_nil]
  · decide
  · decide

def orderedNode : TreeBlock :=
  ⟨List.replicate 96 0 ++ [2, 0, 0, 0, 1] ++ ([3, 0, 0, 0, 0, 0, 0, 0] ++ List.replicate 25 0) ++
    ([5, 0, 0, 0, 0, 0, 0, 0] ++ List.replicate 25 0) ++ List.replicate 3929 0⟩

theorem btrfsCheckNode_sound_ordered : btrfsCheckNode 4096 none orderedNode = .clean ↔
      (orderedNode.keys 1).Pairwise (· < ·) := by
  refine ((@btrfsCheckNode_sound_iff 4096 none orderedNode 1 (by decide) (by decide) (by decide)
    rfl).mpr ?_).1
  intro _ i hi
  obtain rfl : i = 0 := by
    have : orderedNode.nritems = 2 := by decide
    omega
  decide

/-! ## Leaves -/

theorem leafItemsLoop_iff (nodesize : ℕ) (buf : TreeBlock) (n i : ℕ) :
    leafItemsLoop nodesize buf n i = .clean ↔ ∀ j, i ≤ j → j < i + n →
      buf.itemKey j < buf.itemKey (j + 1) ∧ buf.itemOffset j = buf.itemEnd (j + 1) ∧
        (j = 0 → buf.itemEnd 0 = leafDataSize nodesize) := by
  induction n generalizing i with
  | zero => exact iff_of_true rfl fun j hlo hhi => by omega
  | succ n ih =>
    rw [leafItemsLoop]
    by_cases hi : buf.itemKey i < buf.itemKey (i + 1) ∧
        buf.itemOffset i = buf.itemEnd (i + 1) ∧ (i = 0 → buf.itemEnd 0 = leafDataSize nodesize)
    · obtain ⟨horder, hoff, hfirst⟩ := hi
      rw [if_neg (not_le.mpr (btrfsCompCpuKeys_neg.mpr horder)), if_neg (not_not.mpr hoff),
        if_neg (by rintro ⟨rfl, hne⟩; exact hne (hfirst rfl)), ih]
      refine ⟨fun h j hlo hhi => ?_, fun h j hlo hhi => h j (by omega) (by omega)⟩
      rcases Nat.eq_or_lt_of_le hlo with rfl | hlt
      · exact ⟨horder, hoff, hfirst⟩
      · exact h j hlt (by omega)
    · refine iff_of_false ?_ fun h => hi (h i (Nat.le_refl _) (by omega))
      intro hclean
      split_ifs at hclean with horder hoff hfirst
      refine hi ⟨btrfsCompCpuKeys_neg.mp (not_le.mp horder), not_not.mp hoff, ?_⟩
      rintro rfl
      by_contra hne
      exact hfirst ⟨rfl, hne⟩

theorem leafEndsLoop_iff (nodesize : ℕ) (buf : TreeBlock) (n i : ℕ) :
    leafEndsLoop nodesize buf n i = .clean ↔
      ∀ j, i ≤ j → j < i + n → buf.itemEnd j ≤ leafDataSize nodesize := by
  induction n generalizing i with
  | zero => exact iff_of_true rfl fun j hlo hhi => by omega
  | succ n ih =>
    rw [leafEndsLoop]
    by_cases hend : leafDataSize nodesize < buf.itemEnd i
    · rw [if_pos hend]
      exact iff_of_false (by simp) fun h => absurd (h i (Nat.le_refl _) (by omega)) (not_le.mpr hend)
    · rw [if_neg hend, ih]
      refine ⟨fun h j hlo hhi => ?_, fun h j hlo hhi => h j (by omega) (by omega)⟩
      rcases Nat.eq_or_lt_of_le hlo with rfl | hlt
      · exact not_lt.mp hend
      · exact h j hlt (by omega)

/-- What `btrfs_check_leaf` has compared when it returns `BTRFS_TREE_BLOCK_CLEAN`. -/
structure LeafClean (nodesize : ℕ) (buf : TreeBlock) : Prop where
  free : 0 ≤ buf.btrfsLeafFreeSpace nodesize
  next : ∀ i, i + 1 < buf.nritems → buf.itemKey i < buf.itemKey (i + 1) ∧
    buf.itemOffset i = buf.itemEnd (i + 1)
  first : 1 < buf.nritems → buf.itemEnd 0 = leafDataSize nodesize
  ends : ∀ i, i < buf.nritems → buf.itemEnd i ≤ leafDataSize nodesize

theorem leafClean_of_clean (h : btrfsCheckLeaf nodesize parentKey buf = .clean) :
    LeafClean nodesize buf := by
  unfold btrfsCheckLeaf at h
  split_ifs at h with hlen hlevel hf hz hparity
  · exact ⟨not_lt.mp hf, fun i hi => by omega, fun hi => by omega, fun i hi => by omega⟩
  · match hl : leafItemsLoop nodesize buf (buf.nritems - 1) 0 with
    | .clean =>
      rw [hl] at h
      rw [leafItemsLoop_iff] at hl
      have he := (leafEndsLoop_iff nodesize buf buf.nritems 0).mp h
      refine ⟨not_lt.mp hf, ?_, ?_, fun i hi => he i (Nat.zero_le _) (by omega)⟩
      · intro i hi
        obtain ⟨horder, hoff, -⟩ := hl i (Nat.zero_le _) (by omega)
        exact ⟨horder, hoff⟩
      · intro hi
        exact (hl 0 (Nat.le_refl _) (by omega)).2.2 rfl
    | .invalidNritems | .invalidParentKey | .badKeyOrder | .invalidLevel | .invalidFreeSpace
    | .invalidOffsets =>
      rw [hl] at h
      cases h

structure LeafWellFormed (nodesize : ℕ) (buf : TreeBlock) : Prop where
  sorted : ∀ i, i + 1 < buf.nritems → buf.itemKey i < buf.itemKey (i + 1)
  inside : ∀ i, i < buf.nritems → buf.itemOffset i + buf.itemSizeNr i ≤ leafDataSize nodesize
  first_end : 0 < buf.nritems → buf.itemOffset 0 + buf.itemSizeNr 0 = leafDataSize nodesize
  tiled : ∀ i, i + 1 < buf.nritems →
    buf.itemOffset i = buf.itemOffset (i + 1) + buf.itemSizeNr (i + 1)
  apart : ∀ i, i < buf.nritems → buf.nritems * itemSize ≤ buf.itemOffset i

theorem apart_of_free (hsmall : nodesize < 2 ^ 31) (hnr : 0 < buf.nritems)
    (hitems : buf.nritems * itemSize ≤ leafDataSize nodesize)
    (hfst : buf.itemEnd 0 = leafDataSize nodesize)
    (hl : buf.itemOffset (buf.nritems - 1) ≤ leafDataSize nodesize)
    (hf : 0 ≤ buf.btrfsLeafFreeSpace nodesize) :
    buf.nritems * itemSize ≤ buf.itemOffset (buf.nritems - 1) := by
  have hlds : leafDataSize nodesize < 2 ^ 31 := (Nat.sub_le _ _).trans_lt hsmall
  have hmin : min buf.nritems (0 + buf.nritems) - 1 = buf.nritems - 1 := by omega
  have hend : toInt32 (leafDataSize nodesize) = leafDataSize nodesize :=
    toInt32_of_range (by omega) (by omega)
  have hd : toInt32 (leafDataSize nodesize - buf.itemOffset (buf.nritems - 1)) =
      leafDataSize nodesize - buf.itemOffset (buf.nritems - 1) :=
    toInt32_of_range (by omega) (by omega)
  rw [btrfsLeafFreeSpace, leafSpaceUsed, if_neg hnr.ne', hmin, hfst, toInt32_sub_toInt32, hend] at hf
  simp only [itemSize] at hitems hf ⊢
  rw [toInt32_of_range (by omega) (by omega)] at hf
  omega

/-- A leaf that `btrfs_check_leaf` accepts is well formed if and only if no item has an end that
does not fit 32 bits and a single item ends where the leaf does. -/
theorem btrfsCheckLeaf_sound_iff (hsmall : nodesize < 2 ^ 31)
    (hnr : buf.nritems ≤ (nodesize - headerSize) / itemSize)
    (hclean : btrfsCheckLeaf nodesize parentKey buf = .clean) :
    LeafWellFormed nodesize buf ↔
      (∀ i, i < buf.nritems → buf.itemOffset i + buf.itemSizeNr i < 2 ^ 32) ∧
        (buf.nritems = 1 → buf.itemOffset 0 + buf.itemSizeNr 0 = leafDataSize nodesize) := by
  have hlds : leafDataSize nodesize < 2 ^ 31 := (Nat.sub_le _ _).trans_lt hsmall
  constructor
  · intro h
    refine ⟨fun i hi => ?_, fun hone => h.first_end (by omega)⟩
    have := h.inside i hi
    omega
  · rintro ⟨hex, hone⟩
    have h := leafClean_of_clean hclean
    have hend : ∀ i, i < buf.nritems → buf.itemEnd i = buf.itemOffset i + buf.itemSizeNr i :=
      fun i hi => Nat.mod_eq_of_lt (hex i hi)
    have hinside : ∀ i, i < buf.nritems →
        buf.itemOffset i + buf.itemSizeNr i ≤ leafDataSize nodesize := by
      intro i hi
      rw [← hend i hi]
      exact h.ends i hi
    have hfst : 0 < buf.nritems → buf.itemOffset 0 + buf.itemSizeNr 0 = leafDataSize nodesize := by
      intro hpos
      rcases Nat.lt_or_eq_of_le (show 1 ≤ buf.nritems from hpos) with hmany | hone'
      · rw [← hend 0 hpos]
        exact h.first hmany
      · exact hone hone'.symm
    have htiled : ∀ i, i + 1 < buf.nritems →
        buf.itemOffset i = buf.itemOffset (i + 1) + buf.itemSizeNr (i + 1) := by
      intro i hi
      rw [← hend (i + 1) hi]
      exact (h.next i hi).2
    refine ⟨fun i hi => (h.next i hi).1, hinside, hfst, htiled, ?_⟩
    intro i hi
    have hitems : buf.nritems * itemSize ≤ leafDataSize nodesize :=
      (Nat.mul_le_mul_right _ hnr).trans (Nat.div_mul_le_self _ _)
    have hl := apart_of_free hsmall (by omega) hitems ((hend 0 (by omega)).trans (hfst (by omega)))
      ((Nat.le_add_right _ _).trans (hinside (buf.nritems - 1) (by omega))) h.free
    -- the data of later items lie lower
    obtain ⟨d, hd⟩ : ∃ d, i + d = buf.nritems - 1 := ⟨buf.nritems - 1 - i, by omega⟩
    induction d generalizing i with
    | zero =>
      rw [show i = buf.nritems - 1 from hd]
      exact hl
    | succ d ih =>
      have := ih (i + 1) (by omega) (by omega)
      have := htiled i (by omega)
      omega

/-- A leaf with one item whose data are said to be at offset 0, where the item itself is. -/
def strayLeaf : TreeBlock := ⟨List.replicate 96 0 ++ [1, 0, 0, 0, 0] ++ List.replicate 3995 0⟩

theorem btrfsCheckLeaf_accepts_stray :
    strayLeaf.data.length = 4096 ∧ strayLeaf.level = 0 ∧ strayLeaf.nritems = 1 ∧
      btrfsCheckLeaf 4096 none strayLeaf = .clean ∧ strayLeaf.itemOffset 0 = 0 ∧
      ¬ LeafWellFormed 4096 strayLeaf := by
  have hlen : strayLeaf.data.length = 4096 := by
    simp only [strayLeaf, List.length_append, List.length_replicate, List.length_cons,
      List.length_nil]
  have hnr : strayLeaf.nritems = 1 := by decide
  have hlevel : strayLeaf.level = 0 := by decide
  have hoff : strayLeaf.itemOffset 0 = 0 := by decide
  refine ⟨hlen, hlevel, hnr, ?_, hoff, ?_⟩
  · rw [btrfsCheckLeaf, hlen, hnr]
    decide
  · intro h
    have := h.apart 0 (by omega)
    exact absurd this (by decide)

def oneItemLeaf : TreeBlock :=
  ⟨List.replicate 96 0 ++ [1, 0, 0, 0, 0] ++
    (List.replicate 17 0 ++ [0x9a, 0x0f, 0, 0, 1, 0, 0, 0]) ++ List.replicate 3970 0⟩

theorem btrfsCheckLeaf_sound_oneItem : LeafWellFormed 4096 oneItemLeaf := by
  have hlen : oneItemLeaf.data.length = 4096 := by
    simp only [oneItemLeaf, List.length_append, List.length_replicate, List.length_cons,
      List.length_nil]
  have hclean : btrfsCheckLeaf 4096 none oneItemLeaf = .clean := by
    rw [btrfsCheckLeaf, hlen]
    decide
  refine (btrfsCheckLeaf_sound_iff (by decide) (by decide) hclean).mpr ⟨?_, ?_⟩
  · decide
  · decide

end TreeBlock

end Btrfs.Ctree
