import Btrfs.Verification.Ctree.LeafLayout
import Btrfs.Verification.Shared.Calls

/-! # Edits of a leaf are edits of its list of items -/

namespace Btrfs.Ctree.TreeBlock

variable {nodesize : ℕ} {leaf : TreeBlock} {before after : List Item}
  {size slot nr top splitOffset : ℕ} {leaf' : TreeBlock} {item : Item} {newKey : Key}

theorem itemNrOffset_eq (i : ℕ) : itemNrOffset i = headerSize + i * 25 := rfl

theorem itemSize_eq : itemSize = 25 := rfl

/-! ## Insertion -/

theorem correctOffsets_spec {f : ℕ → ℕ} {n i top top' : ℕ}
    (h : itemNrOffset (i + n) ≤ leaf.data.length)
    (hf : ∀ j < n, f (leaf.itemOffset (i + j)) < 2 ^ 32 ∧
      f (leaf.itemOffset (i + j)) + top = leaf.itemOffset (i + j) + top') :
    ChangedWithin leaf (correctOffsets f n i leaf) (itemNrOffset i) (itemNrOffset (i + n)) ∧
      HeadersMoved leaf (correctOffsets f n i leaf) i i n top top' :=
  ⟨changedWithin_correctOffsets f h, headersMoved_correctOffsets h hf⟩

theorem memmove_items_spec {i i' n : ℕ} (top : ℕ) (hsrc : itemNrOffset (i + n) ≤ leaf.data.length)
    (hdst : itemNrOffset (i' + n) ≤ leaf.data.length) :
    ChangedWithin leaf (leaf.memmove (itemNrOffset i') (itemNrOffset i) (n * itemSize))
        (itemNrOffset i') (itemNrOffset (i' + n)) ∧
      HeadersMoved leaf (leaf.memmove (itemNrOffset i') (itemNrOffset i) (n * itemSize))
        i i' n top top := by
  rw [itemNrOffset_add] at hsrc hdst ⊢
  exact ⟨changedWithin_memmove hsrc hdst,
    headersMoved_of_read _ (@read_memmove_inside leaf _ _ _ 0 _ hsrc hdst (by omega))⟩

theorem memmove_data_spec {dst src len : ℕ} (hsrc : src + len ≤ leaf.data.length)
    (hdst : dst + len ≤ leaf.data.length) :
    ChangedWithin leaf (leaf.memmove dst src len) dst (dst + len) ∧
      (leaf.memmove dst src len).read dst len = leaf.read src len :=
  ⟨changedWithin_memmove hsrc hdst, @read_memmove_inside leaf dst src len 0 len hsrc hdst (by omega)⟩

theorem bugOn_room {items : List Item} (h : Represents nodesize leaf items)
    (hs : nodesize < 2 ^ 31) (hr : Ctree.leafSpaceUsed items + size ≤ leafDataSize nodesize) :
    bugOn (decide (u32OfInt (leaf.btrfsLeafFreeSpace nodesize) < size)) = .ok () := by
  have hle : leafDataSize nodesize ≤ nodesize := Nat.sub_le _ _
  have hf : (u32OfInt (leaf.btrfsLeafFreeSpace nodesize) : ℤ) =
      leafDataSize nodesize - Ctree.leafSpaceUsed items := by
    rw [h.btrfsLeafFreeSpace_eq hs]
    exact u32OfInt_of_range (by omega) (by omega)
  rw [decide_eq_false (by omega)]
  rfl

theorem stored_openGap {total : ℕ} (hstored : leaf.Stored slot top after)
    (htop : headerSize + top ≤ leaf.data.length) (hlt : top < 2 ^ 32)
    (hr : (slot + after.length) * 25 + dataSize after + (nr * 25 + total) ≤ top)
    (hl' : leaf' = ((correctOffsets (fun ioff => sub32 ioff total) after.length slot leaf).memmove
      (itemNrOffset (slot + nr)) (itemNrOffset slot) (after.length * itemSize)).memmove
        (headerSize + (top - total - dataSize after)) (headerSize + (top - dataSize after))
        (dataSize after)) :
    ChangedWithin leaf leaf' (itemNrOffset slot) (headerSize + top) ∧
      leaf'.Stored (slot + nr) (top - total) after := by
  subst hl'
  have hs := itemNrOffset_eq slot
  have hgap := itemNrOffset_eq (slot + nr)
  have hend := itemNrOffset_eq (slot + after.length)
  have hend' := itemNrOffset_eq (slot + nr + after.length)
  obtain ⟨hcor, hshift⟩ := @correctOffsets_spec leaf (fun ioff => sub32 ioff total)
    after.length slot top (top - total) (by omega) (fun j hj => by
      have hmem := hstored.itemOffset_mem hj
      rw [sub32_of_le (by omega) (by omega)]
      omega)
  generalize correctOffsets (fun ioff => sub32 ioff total) after.length slot leaf = leaf₁
    at hcor hshift ⊢
  have hlen₁ := hcor.length_data
  obtain ⟨hitems, hmoved⟩ := @memmove_items_spec leaf₁ slot (slot + nr) after.length (top - total)
    (by omega) (by omega)
  generalize leaf₁.memmove (itemNrOffset (slot + nr)) (itemNrOffset slot)
    (after.length * itemSize) = leaf₂ at hitems hmoved ⊢
  have hlen₂ := hitems.length_data
  obtain ⟨hd, hbytes⟩ := @memmove_data_spec leaf₂ (headerSize + (top - total - dataSize after))
    (headerSize + (top - dataSize after)) (dataSize after) (by omega) (by omega)
  refine ⟨?_, ?_⟩
  · exact (hcor.mono (by omega) (by omega)).trans
      ((hitems.mono (by omega) (by omega)).trans (hd.mono (by omega) (by omega)))
  · apply hstored.moved (by omega)
    · exact (hshift.trans hmoved).trans (hd.headersMoved _ (by omega))
    · rw [hbytes, hitems.read_eq _ _ (by omega), hcor.read_eq _ _ (by omega)]

theorem openGap_spec {total : ℕ} (h : Represents nodesize leaf (before ++ after))
    (hs : nodesize < 2 ^ 31)
    (hr : Ctree.leafSpaceUsed (before ++ after) + (nr * itemSize + total) ≤ leafDataSize nodesize) :
    ∃ leaf', openGap nodesize leaf before.length nr total =
        .ok (leafDataSize nodesize - dataSize before, leaf') ∧
      ChangedWithin leaf leaf' (itemNrOffset before.length)
        (headerSize + (leafDataSize nodesize - dataSize before)) ∧
      leaf'.Stored (before.length + nr) (leafDataSize nodesize - dataSize before - total) after := by
  have hblock := h.headerSize_add
  have hdataEnd := h.leafDataEnd_eq
  have hlen := h.length_data
  have hstored := (stored_append.mp h.stored).2
  rw [Nat.zero_add] at hstored
  rw [openGap, h.nritems_eq, hdataEnd, List.length_append]
  rw [leafSpaceUsed_eq, List.length_append, dataSize_append, itemSize_eq] at hr
  by_cases hnil : after = []
  · subst hnil
    refine ⟨leaf, ?_, .refl _ _ _, trivial⟩
    rw [if_neg (by simp), List.append_nil]
    rfl
  obtain ⟨top, htop⟩ : ∃ top, top = leafDataSize nodesize - dataSize before := ⟨_, rfl⟩
  have hpos := List.length_pos_iff.mpr hnil
  have hle := hstored.dataSize_le
  rw [dataSize_append, show leafDataSize nodesize - (dataSize before + dataSize after) =
    top - dataSize after by omega]
  rw [← htop] at hstored hle ⊢
  rw [if_pos (by omega), hstored.itemEnd_first hnil (by omega)]
  dsimp only
  rw [decide_eq_false (by omega),
    sub32_of_le (by omega) (by omega), sub32_of_le (by omega) (by omega),
    sub64_of_le (by omega) (by omega),
    show before.length + after.length - before.length = after.length by omega,
    show top - (top - dataSize after) = dataSize after by omega,
    show headerSize + (top - dataSize after) - total =
      headerSize + (top - total - dataSize after) by omega]
  refine ⟨_, rfl, ?_⟩
  exact stored_openGap hstored (by omega) (by omega) (by omega) rfl

variable {total offset data : ℕ} {new : List (Key × ℕ)} {old : List Item} {key : Key}
  {leaf₂ : TreeBlock}

theorem sizes_of_map {fresh : List Item}
    (h : (fresh.map fun item => (item.key, item.data.length)) = new) :
    fresh.length = new.length ∧ dataSize fresh = (new.map Prod.snd).sum := by
  subst h
  rw [List.length_map, List.map_map]
  exact ⟨rfl, rfl⟩

/-- The new items stand between the old ones with data of the sizes asked for. -/
theorem btrfsInsertEmptyItems_spec {new : List (Key × ℕ)}
    (h : Represents nodesize leaf (before ++ after)) (hs : nodesize < 2 ^ 31)
    (hk : ∀ entry ∈ new, entry.1.InRange)
    (hr : Ctree.leafSpaceUsed (before ++ after) +
      (new.length * itemSize + (new.map Prod.snd).sum) ≤ leafDataSize nodesize) :
    ∃ leaf' fresh, btrfsInsertEmptyItems nodesize leaf before.length new = .ok leaf' ∧
      (fresh.map fun item => (item.key, item.data.length)) = new ∧
      Represents nodesize leaf' (before ++ (fresh ++ after)) := by
  have hblock := h.headerSize_add
  have hlen := h.length_data
  obtain ⟨hbefore, -⟩ := stored_append.mp h.stored
  obtain ⟨leaf₁, hgap, hopened, hafter⟩ := openGap_spec h hs hr
  have hlen₁ := hopened.length_data
  have hu := leafSpaceUsed_eq (before ++ after)
  rw [List.length_append, dataSize_append] at hu
  simp only [itemSize_eq] at hr hu
  have hend := itemNrOffset_eq (before.length + new.length)
  obtain ⟨hsetup, fresh, hfresh, hnew⟩ := @setupItems_spec leaf₁ new before.length
    (leafDataSize nodesize - dataSize before) (by omega) hk (by omega) (by omega) (by omega)
  obtain ⟨hcount, htotal⟩ := sizes_of_map hfresh
  have hchg := hopened.trans (hsetup.mono (Nat.le_refl _) (by omega))
  have hfinal : Ctree.leafSpaceUsed (before ++ (fresh ++ after)) ≤ leafDataSize nodesize := by
    rw [leafSpaceUsed_eq, List.length_append, List.length_append, dataSize_append, dataSize_append,
      itemSize_eq]
    omega
  have hsto : (setupItems new before.length (leafDataSize nodesize - dataSize before) leaf₁).Stored
      0 (leafDataSize nodesize) (before ++ (fresh ++ after)) := by
    rw [stored_append, stored_append, Nat.zero_add, hcount, htotal]
    refine ⟨?_, hnew, ?_⟩
    · apply hbefore.frame hchg
      · rw [Nat.zero_add]
        omega
      · omega
    · apply hafter.frame hsetup
      · omega
      · omega
  have hrep := represents_setNritems (hchg.length_data.trans hlen) h.headerSize_le hs hsto hfinal
  have hnr : (before ++ (fresh ++ after)).length = (before ++ after).length + new.length := by
    rw [List.length_append, List.length_append, List.length_append]
    omega
  refine ⟨_, fresh, ?_, hfresh, hrep⟩
  have hd : (new.map Prod.snd).sum % 2 ^ 32 = (new.map Prod.snd).sum := Nat.mod_eq_of_lt (by omega)
  rw [btrfsInsertEmptyItems, hd]
  rw [bugOn_room h hs (by rw [itemSize_eq]; omega), hgap, h.nritems_eq]
  simp only [bind, Except.bind]
  rw [← hnr, hrep.bugOn_free hs]
  rfl

/-! ## Extension -/

theorem stored_moveDown {slot size top : ℕ} {run : List Item} (hstored : leaf.Stored slot top run)
    (htop : headerSize + top ≤ leaf.data.length) (hlt : top < 2 ^ 32)
    (hr : (slot + run.length) * 25 + dataSize run + size ≤ top) {leaf' : TreeBlock}
    (hl' : leaf' = (correctOffsets (fun ioff => sub32 ioff size) run.length slot leaf).memmove
      (headerSize + (top - size - dataSize run)) (headerSize + (top - dataSize run))
      (dataSize run)) :
    ChangedWithin leaf leaf' (itemNrOffset slot) (headerSize + top) ∧
      leaf'.Stored slot (top - size) run := by
  subst hl'
  have hs := itemNrOffset_eq slot
  have hend := itemNrOffset_eq (slot + run.length)
  obtain ⟨hcor, hshift⟩ := @correctOffsets_spec leaf (fun ioff => sub32 ioff size)
    run.length slot top (top - size) (by omega) (fun j hj => by
      have hmem := hstored.itemOffset_mem hj
      rw [sub32_of_le (by omega) (by omega)]
      omega)
  generalize correctOffsets (fun ioff => sub32 ioff size) run.length slot leaf = leaf₁
    at hcor hshift ⊢
  have hlen₁ := hcor.length_data
  obtain ⟨hd, hbytes⟩ := @memmove_data_spec leaf₁ (headerSize + (top - size - dataSize run))
    (headerSize + (top - dataSize run)) (dataSize run) (by omega) (by omega)
  refine ⟨(hcor.mono (by omega) (by omega)).trans (hd.mono (by omega) (by omega)), ?_⟩
  apply hstored.moved (by omega)
  · exact hshift.trans (hd.headersMoved _ (by omega))
  · rw [hbytes, hcor.read_eq _ _ (by omega)]

theorem stored_setItemSize (hstored : leaf.Stored slot (top - size) (item :: after))
    (hs : size ≤ top) (htop : headerSize + top ≤ leaf.data.length) (hlt : top < 2 ^ 32)
    (hheaders : itemNrOffset (slot + 1 + after.length) ≤
      headerSize + (top - size - dataSize (item :: after))) :
    ∃ tail : List (BitVec 8), tail.length = size ∧
      (leaf.setItemSize slot (item.data.length + size)).Stored slot top
        (⟨item.key, item.data ++ tail⟩ :: after) := by
  obtain ⟨hi, hlen, hend, ht⟩ := hstored
  have hafter := itemNrOffset_add (slot + 1) after.length
  have hn := itemNrOffset_succ slot
  rw [dataSize_cons] at hheaders
  have hin : itemNrOffset (slot + 1) ≤ leaf.data.length := by omega
  have hchanged := changedWithin_setItemSize hin (item.data.length + size)
  have hs' := @itemSizeNr_setItemSize leaf slot hin (item.data.length + size) (by omega)
  generalize leaf.setItemSize slot (item.data.length + size) = leaf' at hchanged hs' ⊢
  have hkey : leaf'.itemKey slot = item.key := by
    rw [hchanged.itemKey_eq (by omega), ← hi]
    rfl
  have hoff : leaf'.itemOffset slot = leaf.itemOffset slot := hchanged.itemOffset_eq (by omega)
  have hd : leaf.read (leaf.itemPtrOffset slot) item.data.length = item.data := by
    rw [← hlen]
    exact congrArg Item.data hi
  have hr : leaf'.read (leaf'.itemPtrOffset slot) (item.data.length + size) =
      item.data ++ leaf.read (leaf.itemPtrOffset slot + item.data.length) size := by
    have hjoin := slice_append leaf.data (leaf.itemPtrOffset slot) item.data.length size
    rw [show leaf'.itemPtrOffset slot = leaf.itemPtrOffset slot by
      rw [itemPtrOffset, itemPtrOffset, hoff], hchanged.read_eq _ _ (by
        rw [itemPtrOffset]
        omega)]
    calc leaf.read (leaf.itemPtrOffset slot) (item.data.length + size)
        = leaf.read (leaf.itemPtrOffset slot) item.data.length ++
            leaf.read (leaf.itemPtrOffset slot + item.data.length) size := hjoin.symm
      _ = _ := by rw [hd]
  have htailLength : (leaf.read (leaf.itemPtrOffset slot + item.data.length) size).length = size := by
    apply length_read
    rw [itemPtrOffset]
    omega
  refine ⟨_, htailLength, ?_, ?_, ?_, ?_⟩
  · rw [itemAt, hkey, hs', hr]
  · rw [hs', List.length_append, htailLength]
  · rw [List.length_append]
    omega
  · rw [hoff]
    apply ht.frame hchanged
    · omega
    · omega

theorem Represents.stored_replace {new : List Item} (h : Represents nodesize leaf (before ++ old))
    (hchg : ChangedWithin leaf leaf' (itemNrOffset before.length) (headerSize + (leafDataSize nodesize - dataSize before)))
    (hstored : leaf'.Stored before.length (leafDataSize nodesize - dataSize before) new) :
    leaf'.Stored 0 (leafDataSize nodesize) (before ++ new) := by
  have hbefore := (stored_append.mp h.stored).1
  rw [stored_append, Nat.zero_add]
  refine ⟨hbefore.frame hchg ?_ (Or.inr (Nat.le_refl _)), hstored⟩
  rw [Nat.zero_add]
  exact Or.inl (Nat.le_refl _)

theorem Represents.replace {new : List Item} (h : Represents nodesize leaf (before ++ old))
    (hchg : ChangedWithin leaf leaf' (itemNrOffset before.length) (headerSize + (leafDataSize nodesize - dataSize before)))
    (hstored : leaf'.Stored before.length (leafDataSize nodesize - dataSize before) new)
    (hcount : new.length = old.length)
    (hr : Ctree.leafSpaceUsed (before ++ new) ≤ leafDataSize nodesize) :
    Represents nodesize leaf' (before ++ new) where
  length_data := hchg.length_data.trans h.length_data
  headerSize_le := h.headerSize_le
  nritems_eq := by
    have hnr : leaf'.nritems = leaf.nritems := by
      apply hchg.get_eq
      exact Or.inl ((by decide : 96 + 4 ≤ headerSize).trans (Nat.le_add_right _ _))
    simp [hnr, h.nritems_eq, hcount]
  stored := h.stored_replace hchg hstored
  room := hr

theorem btrfsExtendItem_spec (h : Represents nodesize leaf (before ++ item :: after))
    (hs : nodesize < 2 ^ 31)
    (hr : Ctree.leafSpaceUsed (before ++ item :: after) + size ≤ leafDataSize nodesize) :
    ∃ leaf' tail, btrfsExtendItem nodesize leaf before.length size = .ok leaf' ∧
      tail.length = size ∧
      Represents nodesize leaf' (before ++ ⟨item.key, item.data ++ tail⟩ :: after) := by
  have hblock := h.headerSize_add
  have hlen := h.length_data
  have hu := leafSpaceUsed_eq (before ++ item :: after)
  rw [List.length_append, List.length_cons, dataSize_append, itemSize_eq] at hu
  have hc := dataSize_cons item after
  have hstored := (stored_append.mp h.stored).2
  rw [Nat.zero_add] at hstored
  have hsl := itemNrOffset_eq before.length
  have hend := itemNrOffset_eq (before.length + 1 + after.length)
  have hn := itemNrOffset_succ before.length
  obtain ⟨hmoved, hd⟩ := @stored_moveDown leaf before.length size _ _ hstored (by omega)
    (by omega) (by rw [List.length_cons]; omega) _ rfl
  -- the block after both moves of data and headers
  generalize hl₁ : (correctOffsets (fun ioff => sub32 ioff size) (item :: after).length
    before.length leaf).memmove _ _ _ = leaf₁ at hmoved hd
  have hlen₁ := hmoved.length_data
  have hsizeNr : leaf₁.itemSizeNr before.length = item.data.length := hd.2.1
  obtain ⟨tail, ht, hl⟩ := stored_setItemSize hd (by omega) (by omega) (by omega) (by omega)
  have hset := @changedWithin_setItemSize leaf₁ before.length (by omega) (item.data.length + size)
  have hrep := h.replace (hmoved.trans (hset.mono (by omega) (by omega))) hl rfl (by
    rw [leafSpaceUsed_eq, List.length_append, List.length_cons, dataSize_append, dataSize_cons,
      List.length_append, itemSize_eq]
    omega)
  refine ⟨_, tail, ?_, ht, hrep⟩
  rw [btrfsExtendItem]
  dsimp only
  rw [bugOn_room h hs hr, h.nritems_eq, h.leafDataEnd_eq,
    hstored.itemEnd_first (by simp) (by omega), List.length_append, List.length_cons,
    dataSize_append, decide_eq_false (by omega)]
  rw [List.length_cons] at hl₁
  rw [show before.length + (after.length + 1) - before.length = after.length + 1 by omega,
    sub32_of_le (by omega) (by omega), sub64_of_le (by omega) (by omega),
    show leafDataSize nodesize - dataSize before -
      (leafDataSize nodesize - (dataSize before + dataSize (item :: after))) =
        dataSize (item :: after) by omega,
    show headerSize + (leafDataSize nodesize - (dataSize before + dataSize (item :: after))) - size =
      headerSize + (leafDataSize nodesize - dataSize before - size - dataSize (item :: after)) by
        omega,
    show leafDataSize nodesize - (dataSize before + dataSize (item :: after)) =
      leafDataSize nodesize - dataSize before - dataSize (item :: after) by omega, hl₁, hsizeNr]
  rw [hrep.bugOn_free hs]
  rfl

/-! ## Truncation -/

theorem stored_moveUp {slot newSize diff top : ℕ} {item : Item}
    (hstored : leaf.Stored slot top (item :: after)) (hdiff : newSize + diff = item.data.length)
    (htop : headerSize + top ≤ leaf.data.length) (hlt : top < 2 ^ 31)
    (hr : (slot + 1 + after.length) * 25 + dataSize (item :: after) ≤ top) {leaf' : TreeBlock}
    (hl' : leaf' = ((correctOffsets (fun ioff => ioff + diff) (after.length + 1) slot leaf).memmove
      (headerSize + (top - dataSize (item :: after)) + diff)
      (headerSize + (top - dataSize (item :: after))) (dataSize after + newSize)).setItemSize slot
        newSize) :
    ChangedWithin leaf leaf' (itemNrOffset slot) (headerSize + top) ∧
      leaf'.Stored slot top (⟨item.key, item.data.take newSize⟩ :: after) := by
  subst hl'
  have hsl := itemNrOffset_eq slot
  have hn := itemNrOffset_eq (slot + 1)
  have hend := itemNrOffset_eq (slot + (after.length + 1))
  have hend' := itemNrOffset_eq (slot + 1 + after.length)
  obtain ⟨hcor, hshift⟩ := @correctOffsets_spec leaf (fun ioff => ioff + diff)
    (after.length + 1) slot (top - item.data.length) (top - item.data.length + diff)
    (by rw [dataSize_cons] at hr; omega) (fun j hj => by
      have hmem := hstored.itemOffset_mem hj
      rw [dataSize_cons] at hr
      omega)
  obtain ⟨hi, hlen, hoff, ht⟩ := hstored
  rw [dataSize_cons] at hr ⊢
  generalize correctOffsets (fun ioff => ioff + diff) (after.length + 1) slot leaf = leaf₁
    at hcor hshift ⊢
  have hlen₁ := hcor.length_data
  obtain ⟨hd, hbytes⟩ := @memmove_data_spec leaf₁
    (headerSize + (top - (item.data.length + dataSize after)) + diff)
    (headerSize + (top - (item.data.length + dataSize after))) (dataSize after + newSize)
    (by omega) (by omega)
  generalize leaf₁.memmove (headerSize + (top - (item.data.length + dataSize after)) + diff)
    (headerSize + (top - (item.data.length + dataSize after))) (dataSize after + newSize) = leaf₂
    at hd hbytes ⊢
  have hlen₂ := hd.length_data
  have hset := @changedWithin_setItemSize leaf₂ slot (by omega) newSize
  have hs := @itemSizeNr_setItemSize leaf₂ slot (by omega) newSize (by omega)
  generalize leaf₂.setItemSize slot newSize = leaf₃ at hset hs ⊢
  obtain ⟨⟨hkey, -, hshi⟩, hbeh⟩ := headersMoved_succ.mp hshift
  have hkey₃ : leaf₃.itemKey slot = item.key := by
    rw [hset.itemKey_eq (by omega), hd.itemKey_eq (by omega), hkey, ← hi]
    rfl
  have hoff₃ : leaf₃.itemOffset slot = leaf.itemOffset slot + diff := by
    rw [hset.itemOffset_eq (by omega), hd.itemOffset_eq (by omega)]
    omega
  have hre : leaf₃.read (leaf₃.itemPtrOffset slot) newSize = item.data.take newSize := by
    have hsub := @read_sub _ _ _ _ _ hbytes (dataSize after) newSize (by omega)
    rw [hcor.read_eq _ _ (by omega)] at hsub
    rw [itemPtrOffset, hset.read_eq _ _ (by omega), hoff₃, show
      headerSize + (leaf.itemOffset slot + diff) =
        headerSize + (top - (item.data.length + dataSize after)) + diff + dataSize after by omega,
      hsub, show headerSize + (top - (item.data.length + dataSize after)) + dataSize after =
        leaf.itemPtrOffset slot by rw [itemPtrOffset]; omega]
    rw [← hi, itemAt, hlen, read, read, List.take_take, Nat.min_eq_left (by omega)]
  have hnew : (item.data.take newSize).length = newSize := by
    rw [List.length_take]
    omega
  refine ⟨?_, ?_, ?_, ?_, ?_⟩
  · exact (hcor.mono (by omega) (by omega)).trans
      ((hd.mono (by omega) (by omega)).trans (hset.mono (by omega) (by omega)))
  · rw [itemAt, hkey₃, hs, hre]
  · rw [hs, hnew]
  · rw [hoff₃, hnew]
    omega
  · rw [hoff₃]
    have hmoved : leaf₂.Stored (slot + 1) (leaf.itemOffset slot + diff) after := by
      apply ht.moved (by omega)
      · intro j hj
        have hhdr := (hbeh.trans (hd.headersMoved (top - item.data.length + diff) (by omega))) j hj
        exact ⟨hhdr.1, hhdr.2.1, by omega⟩
      · have hsub := @read_sub _ _ _ _ _ hbytes 0 (dataSize after) (by omega)
        rw [hcor.read_eq _ _ (by omega), Nat.add_zero, Nat.add_zero] at hsub
        rw [show headerSize + (leaf.itemOffset slot + diff - dataSize after) =
          headerSize + (top - (item.data.length + dataSize after)) + diff by omega, hsub,
          show headerSize + (leaf.itemOffset slot - dataSize after) =
            headerSize + (top - (item.data.length + dataSize after)) by omega]
    apply hmoved.frame hset
    · omega
    · omega

theorem btrfsTruncateItem_spec {newSize : ℕ}
    (h : Represents nodesize leaf (before ++ item :: after)) (hs : nodesize < 2 ^ 31)
    (hlt : newSize < item.data.length) :
    ∃ leaf', btrfsTruncateItem nodesize leaf before.length newSize = .ok leaf' ∧
      Represents nodesize leaf' (before ++ ⟨item.key, item.data.take newSize⟩ :: after) := by
  have hblock := h.headerSize_add
  have hlen := h.length_data
  have hr := h.room
  rw [leafSpaceUsed_eq, List.length_append, List.length_cons, dataSize_append, itemSize_eq] at hr
  have hc := dataSize_cons item after
  have hstored := (stored_append.mp h.stored).2
  rw [Nat.zero_add] at hstored
  obtain ⟨hmoved, hup⟩ := @stored_moveUp leaf after before.length newSize
    (item.data.length - newSize) _ item hstored (by omega) (by omega) (by omega) (by omega) _ rfl
  generalize hl' : ((correctOffsets _ (after.length + 1) before.length leaf).memmove _ _
    _).setItemSize _ _ = leaf' at hmoved hup
  have hrep := h.replace hmoved hup rfl (by
    rw [leafSpaceUsed_eq, List.length_append, List.length_cons, dataSize_append, dataSize_cons,
      List.length_take, itemSize_eq]
    omega)
  refine ⟨_, ?_, hrep⟩
  have hoff := hstored.2.2.1
  rw [btrfsTruncateItem, hstored.2.1, if_neg (by omega), h.nritems_eq, h.leafDataEnd_eq,
    List.length_append, List.length_cons, dataSize_append]
  dsimp only
  rw [decide_eq_false (by omega),
    show before.length + (after.length + 1) - before.length = after.length + 1 by omega,
    sub32_of_le (by omega) (by omega), sub32_of_le (by omega) (by omega),
    show leaf.itemOffset before.length + newSize -
      (leafDataSize nodesize - (dataSize before + dataSize (item :: after))) =
        dataSize after + newSize by omega,
    show leafDataSize nodesize - (dataSize before + dataSize (item :: after)) =
      leafDataSize nodesize - dataSize before - dataSize (item :: after) by omega, hl']
  rw [hrep.bugOn_free hs]
  rfl

/-! ## Splitting -/

theorem stored_shiftItems (hstored : leaf.Stored slot top after)
    (hnr : leaf.nritems = slot + after.length) (hlt : slot + after.length < 2 ^ 32)
    (hd : itemNrOffset (slot + 1 + after.length) ≤ headerSize + (top - dataSize after))
    (htop : headerSize + top ≤ leaf.data.length) :
    ChangedWithin leaf (leaf.shiftItems slot) (itemNrOffset slot)
        (itemNrOffset (slot + 1 + after.length)) ∧
      (leaf.shiftItems slot).Stored (slot + 1) top after := by
  have hs := itemNrOffset_eq slot
  have hn := itemNrOffset_eq (slot + 1)
  have hend := itemNrOffset_eq (slot + after.length)
  have hend' := itemNrOffset_eq (slot + 1 + after.length)
  rw [shiftItems, hnr]
  by_cases hnil : after = []
  · subst hnil
    rw [if_neg (by simp)]
    exact ⟨.refl _ _ _, trivial⟩
  · have hpos := List.length_pos_iff.mpr hnil
    rw [if_pos (by omega), sub32_of_le (by omega) hlt,
      show slot + after.length - slot = after.length by omega]
    obtain ⟨hitems, hmoved⟩ := @memmove_items_spec leaf slot (slot + 1) after.length top (by omega)
      (by omega)
    refine ⟨hitems.mono (by omega) (Nat.le_refl _), hstored.moved hstored.dataSize_le hmoved ?_⟩
    exact hitems.read_eq _ _ (Or.inr hd)

/-- The headers of the two halves of an item of `size` bytes at `offset`: the first half is
behind the second one. -/
structure Halved (leaf : TreeBlock) (slot offset size splitOffset : ℕ) (key newKey : Key) :
    Prop where
  key_eq : leaf.itemKey slot = key
  newKey_eq : leaf.itemKey (slot + 1) = newKey
  offset_eq : leaf.itemOffset slot = offset + (size - splitOffset)
  newOffset_eq : leaf.itemOffset (slot + 1) = offset
  size_eq : leaf.itemSizeNr slot = splitOffset
  newSize_eq : leaf.itemSizeNr (slot + 1) = size - splitOffset

theorem Halved.frame {lo hi : ℕ} (h : Halved leaf slot offset size splitOffset key newKey)
    (hchanged : ChangedWithin leaf leaf' lo hi)
    (hout : itemNrOffset (slot + 2) ≤ lo ∨ hi ≤ itemNrOffset slot) :
    Halved leaf' slot offset size splitOffset key newKey := by
  have hs := itemNrOffset_add slot 1
  have hn := itemNrOffset_add slot 2
  constructor
  · rw [hchanged.itemKey_eq (by omega), h.key_eq]
  · rw [hchanged.itemKey_eq (by omega), h.newKey_eq]
  · rw [hchanged.itemOffset_eq (by omega), h.offset_eq]
  · rw [hchanged.itemOffset_eq (by omega), h.newOffset_eq]
  · rw [hchanged.itemSizeNr_eq (by omega), h.size_eq]
  · rw [hchanged.itemSizeNr_eq (by omega), h.newSize_eq]

theorem halved_setters (hstored : leaf.Stored slot top (item :: after))
    (hnr : leaf.nritems = slot + 1 + after.length) (hkey : newKey.InRange)
    (hsplit : splitOffset ≤ item.data.length) (htop : headerSize + top ≤ leaf.data.length)
    (hlt : top < 2 ^ 31) (hr : (slot + 2 + after.length) * 25 + dataSize (item :: after) ≤ top)
    {leaf₂ : TreeBlock}
    (hl₂ : leaf₂ = (((leaf.shiftItems (slot + 1)).setItemKey (slot + 1) newKey).setItemOffset
      (slot + 1) (leaf.itemOffset slot)).setItemSize (slot + 1) (item.data.length - splitOffset))
    (hl' : leaf' = (leaf₂.setItemOffset slot
      (leaf.itemOffset slot + (item.data.length - splitOffset))).setItemSize slot splitOffset) :
    ChangedWithin leaf leaf' (itemNrOffset slot) (itemNrOffset (slot + 2 + after.length)) ∧
      Halved leaf' slot (leaf.itemOffset slot) item.data.length splitOffset item.key newKey ∧
      leaf'.Stored (slot + 2) (leaf.itemOffset slot) after := by
  obtain ⟨hi, hitemSize, hend, ht⟩ := hstored
  rw [dataSize_cons] at hr
  have hs := itemNrOffset_eq slot
  have hn := itemNrOffset_eq (slot + 1)
  have hbehind := itemNrOffset_eq (slot + 1 + 1)
  have hl := itemNrOffset_eq (slot + 1 + 1 + after.length)
  have hla' := itemNrOffset_eq (slot + 2 + after.length)
  obtain ⟨hshift, hafter⟩ := stored_shiftItems ht hnr (by omega) (by omega) (by omega)
  have hlen₁ := hshift.length_data
  obtain ⟨hnew, hkey₂, hoff₂, hs₂⟩ := setupItem_spec (by omega) hkey (by omega) (by omega) hl₂
  have hlen₂ := hnew.length_data
  have hset₃ := @changedWithin_setItemOffset leaf₂ slot (by omega)
    (leaf.itemOffset slot + (item.data.length - splitOffset))
  have hoff₃ := @itemOffset_setItemOffset leaf₂ slot (by omega)
    (leaf.itemOffset slot + (item.data.length - splitOffset)) (by omega)
  generalize leaf₂.setItemOffset slot _ = leaf₃ at hl' hset₃ hoff₃
  have hlen₃ := hset₃.length_data
  have hset₄ := @changedWithin_setItemSize leaf₃ slot (by omega) splitOffset
  have hs₄ := @itemSizeNr_setItemSize leaf₃ slot (by omega) splitOffset (by omega)
  rw [← hl'] at hset₄ hs₄
  have hold : ChangedWithin (leaf.shiftItems (slot + 1)) leaf' (itemNrOffset slot)
      (itemNrOffset (slot + 1 + 1)) :=
    (hnew.mono (by omega) (by omega)).trans
      ((hset₃.mono (by omega) (by omega)).trans (hset₄.mono (by omega) (by omega)))
  refine ⟨?_, ⟨?_, ?_, ?_, ?_, hs₄, ?_⟩, hafter.frame hold (by omega) (by omega)⟩
  · exact (hshift.mono (by omega) (by omega)).trans (hold.mono (by omega) (by omega))
  · rw [hset₄.itemKey_eq (by omega), hset₃.itemKey_eq (by omega), hnew.itemKey_eq (by omega),
      hshift.itemKey_eq (by omega), ← hi]
    rfl
  · rw [hset₄.itemKey_eq (by omega), hset₃.itemKey_eq (by omega), hkey₂]
  · rw [hset₄.itemOffset_eq (by omega), hoff₃]
  · rw [hset₄.itemOffset_eq (by omega), hset₃.itemOffset_eq (by omega), hoff₂]
  · rw [hset₄.itemSizeNr_eq (by omega), hset₃.itemSizeNr_eq (by omega), hs₂]

theorem stored_halves {buf : List (BitVec 8)}
    (h : Halved leaf slot offset size splitOffset key newKey)
    (hafter : leaf.Stored (slot + 2) offset after) (hbuf : buf.length = size)
    (hsplit : splitOffset ≤ size)
    (hd : itemNrOffset (slot + 2 + after.length) ≤ headerSize + (offset - dataSize after))
    (htop : headerSize + (offset + size) ≤ leaf.data.length) {leaf₁ : TreeBlock}
    (hl₁ : leaf₁ = leaf.write (buf.take splitOffset) (leaf.itemPtrOffset slot))
    (hl₂ : leaf₂ = leaf₁.write (buf.drop splitOffset) (leaf₁.itemPtrOffset (slot + 1))) :
    ChangedWithin leaf leaf₂ (headerSize + offset) (headerSize + (offset + size)) ∧
      leaf₂.Stored slot (offset + size)
        (⟨key, buf.take splitOffset⟩ :: ⟨newKey, buf.drop splitOffset⟩ :: after) := by
  obtain ⟨hkey, hnewKey, hoff, hnewOffset, hs, hnewSize⟩ := h
  have hsl := itemNrOffset_eq slot
  have hn := itemNrOffset_eq (slot + 1)
  have hbehind := itemNrOffset_eq (slot + 2)
  have hend := itemNrOffset_add (slot + 2) after.length
  have hfr : (buf.take splitOffset).length = splitOffset := by
    rw [List.length_take]
    omega
  have hback : (buf.drop splitOffset).length = size - splitOffset := by
    rw [List.length_drop]
    omega
  rw [itemPtrOffset, hoff] at hl₁
  have hwrite₁ := @changedWithin_write leaf (buf.take splitOffset)
    (headerSize + (offset + (size - splitOffset))) (by omega)
  have hr₁ := @read_write_self leaf (buf.take splitOffset)
    (headerSize + (offset + (size - splitOffset))) (by omega)
  rw [← hl₁, hfr] at hwrite₁ hr₁
  have hlen₁ := hwrite₁.length_data
  rw [itemPtrOffset, hwrite₁.itemOffset_eq (by omega), hnewOffset] at hl₂
  have hwrite₂ := @changedWithin_write leaf₁ (buf.drop splitOffset) (headerSize + offset) (by omega)
  have hr₂ := @read_write_self leaf₁ (buf.drop splitOffset) (headerSize + offset) (by omega)
  rw [← hl₂, hback] at hwrite₂ hr₂
  have hchg : ChangedWithin leaf leaf₂ (headerSize + offset) (headerSize + (offset + size)) :=
    (hwrite₁.mono (by omega) (by omega)).trans (hwrite₂.mono (by omega) (by omega))
  refine ⟨hchg, ?_, ?_, ?_, ?_, ?_, ?_, ?_⟩
  · rw [itemAt, hchg.itemKey_eq (by omega), hkey, hchg.itemSizeNr_eq (by omega), hs,
      itemPtrOffset, hchg.itemOffset_eq (by omega), hoff, hwrite₂.read_eq _ _ (by omega),
      hr₁]
  · rw [hchg.itemSizeNr_eq (by omega), hs, hfr]
  · rw [hchg.itemOffset_eq (by omega), hfr]
    omega
  · rw [itemAt, hchg.itemKey_eq (by omega), hnewKey, hchg.itemSizeNr_eq (by omega), hnewSize,
      itemPtrOffset, hchg.itemOffset_eq (by omega), hnewOffset, hr₂]
  · rw [hchg.itemSizeNr_eq (by omega), hnewSize, hback]
  · rw [hchg.itemOffset_eq (by omega), hchg.itemOffset_eq (by omega), hnewOffset, hoff, hback]
  · rw [hchg.itemOffset_eq (by omega), hnewOffset]
    apply hafter.frame hchg
    · omega
    · omega

theorem btrfsSplitItem_spec (h : Represents nodesize leaf (before ++ item :: after))
    (hs : nodesize < 2 ^ 31) (hkey : newKey.InRange) (hsplit : splitOffset ≤ item.data.length)
    (hr : Ctree.leafSpaceUsed (before ++ item :: after) + itemSize ≤ leafDataSize nodesize) :
    ∃ leaf', btrfsSplitItem nodesize leaf before.length newKey splitOffset = .ok leaf' ∧
      Represents nodesize leaf' (before ++ ⟨item.key, item.data.take splitOffset⟩ ::
        ⟨newKey, item.data.drop splitOffset⟩ :: after) := by
  have hblock := h.headerSize_add
  have hlen := h.length_data
  obtain ⟨hbefore, hstored⟩ := stored_append.mp h.stored
  rw [Nat.zero_add] at hstored
  have hnr : leaf.nritems = before.length + 1 + after.length := by
    rw [h.nritems_eq, List.length_append, List.length_cons]
    omega
  rw [leafSpaceUsed_eq, List.length_append, List.length_cons, dataSize_append, itemSize_eq] at hr
  have hc := dataSize_cons item after
  have hfinal : Ctree.leafSpaceUsed (before ++ ⟨item.key, item.data.take splitOffset⟩ ::
      ⟨newKey, item.data.drop splitOffset⟩ :: after) ≤ leafDataSize nodesize := by
    rw [leafSpaceUsed_eq, List.length_append, List.length_cons, List.length_cons, dataSize_append,
      dataSize_cons, dataSize_cons, List.length_take, List.length_drop, itemSize_eq, Nat.add_assoc after.length]
    omega
  have hsl := itemNrOffset_eq before.length
  have hbehind := itemNrOffset_eq (before.length + 2)
  have hl := itemNrOffset_eq (before.length + 2 + after.length)
  have hheaderSize : 100 ≤ headerSize := by decide
  obtain ⟨hheaders, hhalved, hafter⟩ := halved_setters hstored hnr hkey hsplit (by omega)
    (by omega) (by omega) rfl rfl
  obtain ⟨hi, hitemSize, hend, ht⟩ := hstored
  generalize hl₄ : (TreeBlock.setItemOffset _ before.length _).setItemSize before.length
    splitOffset = leaf₄ at hheaders hhalved hafter
  have hlen₄ := hheaders.length_data
  have hset := @changedWithin_setNritems leaf₄ (before.length + 1 + after.length + 1) (by omega)
  have hcnt := @nritems_setNritems leaf₄ (before.length + 1 + after.length + 1) (by omega) (by omega)
  generalize hl₅ : leaf₄.setNritems (before.length + 1 + after.length + 1) = leaf₅ at hset hcnt
  have hlen₅ := hset.length_data
  obtain ⟨hwritten, hhalves⟩ := stored_halves (hhalved.frame hset (by omega))
    (hafter.frame hset (by omega) (by omega)) rfl hsplit (by omega) (by omega) rfl rfl
  generalize hl₇ : TreeBlock.write _ (item.data.drop splitOffset) _ = leaf₇ at hwritten hhalves
  have hrep : Represents nodesize leaf₇ (before ++
      ⟨item.key, item.data.take splitOffset⟩ :: ⟨newKey, item.data.drop splitOffset⟩ :: after) := by
    refine ⟨by rw [hwritten.length_data]; omega, h.headerSize_le, ?_, ?_, ?_⟩
    · rw [nritems, hwritten.get_eq (Or.inl (by omega)), List.length_append, List.length_cons,
        List.length_cons]
      exact hcnt.trans (by omega)
    · rw [stored_append, Nat.zero_add, ← hend]
      refine ⟨?_, hhalves⟩
      have hold := (hbefore.frame hheaders (by rw [Nat.zero_add]; omega) (by omega)).frame hset
        (Or.inr (by rw [itemNrOffset_eq]; omega)) (by omega)
      exact hold.frame hwritten (by rw [Nat.zero_add]; omega) (by omega)
    · exact hfinal
  refine ⟨_, ?_, hrep⟩
  have hbuf : leaf.read (leaf.itemPtrOffset before.length) item.data.length = item.data := by
    rw [← hitemSize]
    exact congrArg Item.data hi
  rw [btrfsSplitItem]
  rw [hitemSize, hbuf, hnr, sub64_of_le hsplit (by omega), Nat.mod_eq_of_lt (by omega),
    sub64_of_le (by omega) (by omega),
    show leaf.itemOffset before.length + item.data.length - splitOffset =
      leaf.itemOffset before.length + (item.data.length - splitOffset) by omega, hl₄, hl₅,
    hl₇, hrep.bugOn_free hs]
  rfl

/-! ## Deletion -/

/-- The items behind the deleted ones are moved up by the deleted bytes and take over the
headers from `slot` on. -/
theorem stored_closeGap (hstored : leaf.Stored (slot + nr) top after)
    (htop : headerSize + (top + size) ≤ leaf.data.length) (hlt : top + size < 2 ^ 31)
    (hr : (slot + nr + after.length) * 25 + dataSize after ≤ top)
    (hl' : leaf' = (correctOffsets (fun ioff => u32OfInt (ioff + size)) after.length (slot + nr)
      (leaf.memmove (headerSize + (top + size - dataSize after))
        (headerSize + (top - dataSize after)) (dataSize after))).memmove (itemNrOffset slot)
          (itemNrOffset (slot + nr)) (after.length * itemSize)) :
    ChangedWithin leaf leaf' (itemNrOffset slot) (headerSize + (top + size)) ∧
      leaf'.Stored slot (top + size) after := by
  subst hl'
  have hsl := itemNrOffset_eq slot
  have hgap := itemNrOffset_eq (slot + nr)
  have hend := itemNrOffset_eq (slot + after.length)
  have hend' := itemNrOffset_eq (slot + nr + after.length)
  obtain ⟨hd, hbytes⟩ := @memmove_data_spec leaf (headerSize + (top + size - dataSize after))
    (headerSize + (top - dataSize after)) (dataSize after) (by omega) (by omega)
  generalize leaf.memmove (headerSize + (top + size - dataSize after))
    (headerSize + (top - dataSize after)) (dataSize after) = leaf₁ at hd hbytes ⊢
  have hlen₁ := hd.length_data
  have hs := @ChangedWithin.headersMoved _ _ _ _ (slot + nr) after.length hd top (by omega)
  obtain ⟨hcor, hshift⟩ := @correctOffsets_spec leaf₁ (fun ioff => u32OfInt (ioff + size))
    after.length (slot + nr) top (top + size) (by omega) (fun j hj => by
      have hmem := hstored.itemOffset_mem hj
      have hoff := (hs j hj).2.2
      have hcast : (u32OfInt (leaf₁.itemOffset (slot + nr + j) + size) : ℤ) =
        leaf₁.itemOffset (slot + nr + j) + size := u32OfInt_of_range (by omega) (by omega)
      omega)
  generalize correctOffsets (fun ioff => u32OfInt (ioff + size)) after.length (slot + nr) leaf₁ =
    leaf₂ at hcor hshift ⊢
  have hlen₂ := hcor.length_data
  obtain ⟨hitems, hmoved⟩ := @memmove_items_spec leaf₂ (slot + nr) slot after.length (top + size)
    (by omega) (by omega)
  refine ⟨?_, ?_⟩
  · exact (hd.mono (by omega) (by omega)).trans
      ((hcor.mono (by omega) (by omega)).trans (hitems.mono (by omega) (by omega)))
  · apply hstored.moved (by omega) ((hs.trans hshift).trans hmoved)
    rw [hitems.read_eq _ _ (by omega), hcor.read_eq _ _ (by omega), ← hbytes]

theorem closeGap_ints (hle : data ≤ top) (hlt : headerSize + (top + size) < 2 ^ 31) :
    toInt32 (top - data : ℕ) = (top - data : ℕ) ∧ toInt32 (top : ℤ) = top ∧
      toInt32 (top - (top - data : ℕ)) = data := by
  refine ⟨toInt32_of_range (by omega) (by omega), toInt32_of_range (by omega) (by omega), ?_⟩
  rw [toInt32_of_range (by omega) (by omega)]
  omega

theorem closeGap_args (hle : data ≤ top) (hlt : headerSize + (top + size) < 2 ^ 31) :
    u64OfInt (headerSize + (top - data : ℕ) + size) = headerSize + (top + size - data) ∧
      u64OfInt (headerSize + (top - data : ℕ)) = headerSize + (top - data) ∧
      u64OfInt data = data := by
  refine ⟨?_, ?_, u64OfInt_natCast (by omega)⟩
  · rw [show (headerSize + (top - data : ℕ) + size : ℤ) = (headerSize + (top + size - data) : ℕ) by
      omega]
    exact u64OfInt_natCast (by omega)
  · exact u64OfInt_natCast (by omega)

theorem sub32_sub32 {n : ℕ} (h : slot + nr + n < 2 ^ 32) :
    sub32 (sub32 (slot + nr + n) slot) nr = n := by
  rw [sub32_of_le (by omega) h, sub32_of_le (by omega) (by omega)]
  omega

theorem closeGap_spec {slot nr size top : ℕ} (hstored : leaf.Stored (slot + nr) top after)
    (hnri : leaf.nritems = slot + nr + after.length)
    (hdataEnd : leaf.leafDataEnd nodesize = top - dataSize after)
    (htop : headerSize + (top + size) ≤ leaf.data.length) (hlt : leaf.data.length < 2 ^ 31)
    (hr : (slot + nr + after.length) * 25 + dataSize after ≤ top) :
    ChangedWithin leaf (leaf.closeGap nodesize slot nr size (toInt32 top)) (itemNrOffset slot)
        (headerSize + (top + size)) ∧
      (leaf.closeGap nodesize slot nr size (toInt32 top)).Stored slot (top + size) after := by
  rw [closeGap, hnri]
  by_cases hnil : after = []
  · subst hnil
    rw [if_neg (by simp)]
    exact ⟨.refl _ _ _, trivial⟩
  · have hpos := List.length_pos_iff.mpr hnil
    obtain ⟨hend, hl, hlen⟩ := closeGap_ints hstored.dataSize_le (htop.trans_lt hlt)
    obtain ⟨hdst, hsrc, hcount⟩ := closeGap_args hstored.dataSize_le (htop.trans_lt hlt)
    have hsum : top + size < 2 ^ 31 := (Nat.le_add_left _ headerSize).trans_lt (htop.trans_lt hlt)
    have hnr : slot + nr + after.length < 2 ^ 32 :=
      calc slot + nr + after.length
          ≤ (slot + nr + after.length) * 25 := Nat.le_mul_of_pos_right _ (by decide)
        _ ≤ top := (Nat.le_add_right _ _).trans hr
        _ ≤ top + size := Nat.le_add_right _ _
        _ < 2 ^ 32 := hsum.trans (by decide)
    rw [if_pos (by omega), hdataEnd, hend, hl]
    dsimp only
    rw [hlen, hdst, hsrc, hcount, sub32_sub32 hnr, Nat.add_sub_cancel_left, Nat.mul_comm itemSize]
    exact stored_closeGap hstored htop hsum hr rfl

theorem btrfsDelItems_spec {deleted : List Item}
    (h : Represents nodesize leaf (before ++ (deleted ++ after))) (hs : nodesize < 2 ^ 31)
    (hne : deleted ≠ []) :
    Represents nodesize (btrfsDelItems nodesize leaf before.length deleted.length)
      (before ++ after) := by
  have hblock := h.headerSize_add
  have hlen := h.length_data
  have hr := h.room
  rw [leafSpaceUsed_eq, List.length_append, List.length_append, dataSize_append, dataSize_append,
    itemSize_eq] at hr
  obtain ⟨-, hstored⟩ := stored_append.mp h.stored
  rw [Nat.zero_add] at hstored
  obtain ⟨hdeleted, hafter⟩ := stored_append.mp hstored
  have hdsize := @addSizes_eq leaf _ _ _ hdeleted 0 (by omega)
  have hl := hdeleted.itemOffset_last hne
  have hle' := hafter.dataSize_le
  have hfinal : Ctree.leafSpaceUsed (before ++ after) ≤ leafDataSize nodesize := by
    rw [leafSpaceUsed_eq, List.length_append, dataSize_append, itemSize_eq]
    omega
  obtain ⟨top, htop⟩ : ∃ top, leafDataSize nodesize - dataSize before - dataSize deleted = top :=
    ⟨_, rfl⟩
  rw [htop] at hafter hl hle'
  have hnr : leaf.nritems = before.length + deleted.length + after.length := by
    rw [h.nritems_eq, List.length_append, List.length_append]
    omega
  have hcount : sub32 leaf.nritems deleted.length = (before ++ after).length := by
    rw [sub32_of_le (by omega) (by omega), List.length_append]
    omega
  have hdataEnd : leaf.leafDataEnd nodesize = top - dataSize after := by
    rw [h.leafDataEnd_eq, dataSize_append, dataSize_append]
    omega
  obtain ⟨hchg, hmoved⟩ := @closeGap_spec nodesize leaf after before.length deleted.length
    (dataSize deleted) top hafter hnr hdataEnd (by omega) (by omega) (by omega)
  rw [show top + dataSize deleted = leafDataSize nodesize - dataSize before by omega] at hchg hmoved
  rw [btrfsDelItems, hl, hcount]
  rw [show leaf.addSizes deleted.length before.length 0 = dataSize deleted by
    rw [Nat.zero_add] at hdsize
    exact hdsize]
  exact represents_setNritems (hchg.length_data.trans hlen) h.headerSize_le hs
    (h.stored_replace hchg hmoved) hfinal

end Btrfs.Ctree.TreeBlock
