import Btrfs.Verification.Ctree.LeafEdits

/-! # A leaf under edits, seen as its list of items -/

namespace Btrfs.Ctree.TreeBlock

variable {nodesize : ℕ} {leaf : TreeBlock} {slot : ℕ} {item : Item}

theorem view_split {items : List Item} (h : items[slot]? = some item) :
    (items.take slot).length = slot ∧ items.take slot ++ item :: items.drop (slot + 1) = items := by
  obtain ⟨hlt, hi⟩ := List.getElem?_eq_some_iff.mp h
  refine ⟨List.length_take_of_le hlt.le, ?_⟩
  simp [← hi]

theorem Layout.represents_split (h : Layout nodesize leaf) (hi : leaf.view[slot]? = some item) :
    Represents nodesize leaf (leaf.view.take slot ++ item :: leaf.view.drop (slot + 1)) := by
  rw [(view_split hi).2]
  exact h.represents

/-- Every edit of a leaf keeps the layout, and on the list of items it is the edit of the list
that it stands for. -/
theorem leafEdits_simulate (hsize : nodesize < 2 ^ 31) (h : Layout nodesize leaf) :
    (∀ slot new, slot ≤ leaf.nritems → (∀ entry ∈ new, entry.1.InRange) →
      Ctree.leafSpaceUsed leaf.view + (new.length * itemSize + (new.map Prod.snd).sum) ≤
        leafDataSize nodesize →
      ∃ leaf' fresh, btrfsInsertEmptyItems nodesize leaf slot new = .ok leaf' ∧
        Layout nodesize leaf' ∧ (fresh.map fun item => (item.key, item.data.length)) = new ∧
        leaf'.view = leaf.view.take slot ++ (fresh ++ leaf.view.drop slot)) ∧
    (∀ slot item size, leaf.view[slot]? = some item →
      Ctree.leafSpaceUsed leaf.view + size ≤ leafDataSize nodesize →
      ∃ leaf' tail, btrfsExtendItem nodesize leaf slot size = .ok leaf' ∧ Layout nodesize leaf' ∧
        tail.length = size ∧
        leaf'.view =
          leaf.view.take slot ++ ⟨item.key, item.data ++ tail⟩ :: leaf.view.drop (slot + 1)) ∧
    (∀ slot item newSize, leaf.view[slot]? = some item → newSize < item.data.length →
      ∃ leaf', btrfsTruncateItem nodesize leaf slot newSize = .ok leaf' ∧ Layout nodesize leaf' ∧
        leaf'.view =
          leaf.view.take slot ++ ⟨item.key, item.data.take newSize⟩ :: leaf.view.drop (slot + 1)) ∧
    (∀ slot item newKey splitOffset, leaf.view[slot]? = some item → newKey.InRange →
      splitOffset ≤ item.data.length →
      Ctree.leafSpaceUsed leaf.view + itemSize ≤ leafDataSize nodesize →
      ∃ leaf', btrfsSplitItem nodesize leaf slot newKey splitOffset = .ok leaf' ∧
        Layout nodesize leaf' ∧
        leaf'.view = leaf.view.take slot ++ ⟨item.key, item.data.take splitOffset⟩ ::
          ⟨newKey, item.data.drop splitOffset⟩ :: leaf.view.drop (slot + 1)) ∧
    (∀ slot nr, 0 < nr → slot + nr ≤ leaf.nritems →
      Layout nodesize (btrfsDelItems nodesize leaf slot nr) ∧
        (btrfsDelItems nodesize leaf slot nr).view =
          leaf.view.take slot ++ leaf.view.drop (slot + nr)) := by
  have hview := h.represents
  have hlen := hview.nritems_eq
  refine ⟨?_, ?_, ?_, ?_, ?_⟩
  · intro slot new hs hk hr
    have hfr : (leaf.view.take slot).length = slot := List.length_take_of_le (by omega)
    rw [← List.take_append_drop slot leaf.view] at hview hr
    obtain ⟨leaf', fresh, hrun, hfresh, hres⟩ := btrfsInsertEmptyItems_spec hview hsize hk hr
    rw [hfr] at hrun
    exact ⟨leaf', fresh, hrun, hres.layout, hfresh, hres.view_eq⟩
  · intro slot item size hi hr
    obtain ⟨hfr, hitems⟩ := view_split hi
    rw [← hitems] at hr
    obtain ⟨leaf', tail, hrun, ht, hres⟩ := btrfsExtendItem_spec (h.represents_split hi) hsize hr
    rw [hfr] at hrun
    exact ⟨leaf', tail, hrun, hres.layout, ht, hres.view_eq⟩
  · intro slot item newSize hi hlt
    obtain ⟨leaf', hrun, hres⟩ := btrfsTruncateItem_spec (h.represents_split hi) hsize hlt
    rw [(view_split hi).1] at hrun
    exact ⟨leaf', hrun, hres.layout, hres.view_eq⟩
  · intro slot item newKey splitOffset hi hkey hsplit hr
    obtain ⟨hfr, hitems⟩ := view_split hi
    rw [← hitems] at hr
    obtain ⟨leaf', hrun, hres⟩ := btrfsSplitItem_spec (h.represents_split hi) hsize hkey hsplit hr
    rw [hfr] at hrun
    exact ⟨leaf', hrun, hres.layout, hres.view_eq⟩
  · intro slot nr hnr hle
    have hfr : (leaf.view.take slot).length = slot := List.length_take_of_le (by omega)
    have hmid : ((leaf.view.drop slot).take nr).length = nr := by
      rw [List.length_take, List.length_drop]
      omega
    have hsplit : leaf.view.take slot ++ ((leaf.view.drop slot).take nr ++
        leaf.view.drop (slot + nr)) = leaf.view := by
      simp
    rw [← hsplit] at hview
    have hres := btrfsDelItems_spec hview hsize (List.length_pos_iff.mp (by omega))
    rw [hfr, hmid] at hres
    exact ⟨hres.layout, hres.view_eq⟩

theorem Layout.itemEnd_le (h : Layout nodesize leaf) (hs : nodesize < 2 ^ 31) {i : ℕ}
    (hi : i < leaf.nritems) : leaf.itemEnd i = leaf.itemOffset i + leaf.itemSizeNr i ∧
      leaf.itemEnd i ≤ leafDataSize nodesize := by
  have hlds : leafDataSize nodesize < 2 ^ 31 := (Nat.sub_le _ _).trans_lt hs
  have hle : leaf.itemOffset i + leaf.itemSizeNr i ≤ leafDataSize nodesize := by
    induction i with
    | zero => exact (h.first (by omega)).le
    | succ i ih => exact (h.tiled i hi).le.trans ((Nat.le_add_right _ _).trans (ih (by omega)))
  have hend : leaf.itemEnd i = leaf.itemOffset i + leaf.itemSizeNr i := Nat.mod_eq_of_lt (by omega)
  exact ⟨hend, hend.trans_le hle⟩

/-- A leaf with the layout that the edits keep passes `btrfs_check_leaf` if and only if its keys
increase and the first one is that of the parent. -/
theorem btrfsCheckLeaf_iff_sorted (h : Layout nodesize leaf) (hs : nodesize < 2 ^ 31)
    (hl : leaf.level = 0) (parentKey : Option Key) :
    btrfsCheckLeaf nodesize parentKey leaf = .clean ↔
      (leaf.nritems ≠ 0 → parentKeyDiffers parentKey (leaf.itemKey 0) = false) ∧
        ∀ i, i + 1 < leaf.nritems → leaf.itemKey i < leaf.itemKey (i + 1) := by
  constructor
  · intro hclean
    refine ⟨fun hitems => ?_, fun i hi => ((leafClean_of_clean hclean).next i hi).1⟩
    unfold btrfsCheckLeaf at hclean
    split_ifs at hclean with hdata hlevel hfree hparent
    simpa using hparent
  rintro ⟨hparent, hk⟩
  have hr := h.represents
  have hfree := hr.btrfsLeafFreeSpace_eq hs
  have hroom := hr.room
  have hnr : leaf.nritems * itemSize ≤ leaf.data.length := by
    rw [leafSpaceUsed_eq, ← hr.nritems_eq] at hroom
    rw [h.length_data]
    exact (Nat.le_add_right _ _).trans (hroom.trans (Nat.sub_le _ _))
  have hits : leafItemsLoop nodesize leaf (leaf.nritems - 1) 0 = .clean := by
    refine (leafItemsLoop_iff _ _ _ _).mpr fun j _ hj => ⟨hk j (by omega), ?_, ?_⟩
    · rw [(h.itemEnd_le hs (by omega)).1, h.tiled j (by omega)]
    · rintro rfl
      rw [(h.itemEnd_le hs (by omega)).1, h.first (by omega)]
  rw [btrfsCheckLeaf, if_neg hnr.not_gt, if_neg (not_not.mpr hl), if_neg (by omega), hits]
  split_ifs with hz hp
  · rfl
  · simp [hparent hz] at hp
  · exact (leafEndsLoop_iff _ _ _ _).mpr fun j _ hj => (h.itemEnd_le hs (by omega)).2

/-- A leaf of 200 bytes with two items of three and of two bytes. -/
def smallLeaf : TreeBlock where
  data := List.replicate 96 0 ++ (leBytes 4 2 ++ (0 ::
    (Volumes.keyBytes ⟨256, 1, 0⟩ ++ (leBytes 4 96 ++ (leBytes 4 3 ++
    (Volumes.keyBytes ⟨257, 1, 0⟩ ++ (leBytes 4 94 ++ (leBytes 4 2 ++
    (List.replicate 44 0 ++ [4, 5, 1, 2, 3])))))))))

theorem smallLeaf_layout : Layout 200 smallLeaf where
  length_data := by decide +kernel
  headerSize_le := by decide +kernel
  first := by decide +kernel
  tiled := by
    have hnr : smallLeaf.nritems = 2 := by decide +kernel
    intro i hi
    obtain rfl : i = 0 := by omega
    decide +kernel
  room := by decide +kernel

theorem leafEdits_simulate_smallLeaf : 200 < 2 ^ 31 ∧ Layout 200 smallLeaf ∧
      ∃ leaf', btrfsTruncateItem 200 smallLeaf 0 1 = .ok leaf' ∧ Layout 200 leaf' ∧
        leaf'.view = [⟨⟨256, 1, 0⟩, [1]⟩, ⟨⟨257, 1, 0⟩, [4, 5]⟩] := by
  refine ⟨by decide, smallLeaf_layout, ?_⟩
  have hi : smallLeaf.view[0]? = some ⟨⟨256, 1, 0⟩, [1, 2, 3]⟩ := by decide +kernel
  obtain ⟨leaf', hrun, hlayout, hview⟩ := (leafEdits_simulate (by decide) smallLeaf_layout).2.2.1
    0 _ 1 hi (by decide +kernel)
  refine ⟨leaf', hrun, hlayout, hview.trans ?_⟩
  decide +kernel

theorem btrfsCheckLeaf_smallLeaf :
    btrfsCheckLeaf 200 (some ⟨256, 1, 0⟩) smallLeaf = .clean ∧
      btrfsCheckLeaf 200 (some ⟨255, 1, 0⟩) smallLeaf ≠ .clean := by
  have hiff := btrfsCheckLeaf_iff_sorted smallLeaf_layout (by decide) (by decide +kernel)
  have hnr : smallLeaf.nritems = 2 := by decide +kernel
  refine ⟨(hiff _).mpr ⟨fun _ => by decide +kernel, fun i hi => ?_⟩, fun hclean => ?_⟩
  · obtain rfl : i = 0 := by omega
    decide +kernel
  · have hdiffers : parentKeyDiffers (some ⟨255, 1, 0⟩) (smallLeaf.itemKey 0) = true := by
      decide +kernel
    simp [((hiff _).mp hclean).1 (by simp [hnr])] at hdiffers

end Btrfs.Ctree.TreeBlock
