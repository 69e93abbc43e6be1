import Btrfs.Verification.Volumes.MapTotal

/-! # Loading chunk items in key order

In key order every new chunk is compared with chunks that start at or before it. No insertion then
fails, but a chunk whose end wraps is not seen by the chunks that come after it. -/

namespace Btrfs.Volumes

open ExtentCache RbTree

variable {map : MapLookup} {pre : List MapLookup} {items : List ChunkItem} {logical sectorsize : ℕ}
  {maps : List MapLookup} {tree : MapTree} {item : ChunkItem}

def mapEnd (map : MapLookup) : ℕ := map.ce.start + map.ce.size

/-- Ranges that end in the address space and have no byte in common. -/
structure DisjointRanges (maps : List MapLookup) : Prop where
  end_le : ∀ map ∈ maps, mapEnd map ≤ 2 ^ 64
  disjoint : maps.Pairwise fun a b => mapEnd a ≤ b.ce.start ∨ mapEnd b ≤ a.ce.start

structure Loadable (sectorsize : ℕ) (items : List ChunkItem) : Prop where
  valid : ∀ item ∈ items, btrfsCheckChunkValid sectorsize item.chunk item.slot item.itemSize
    item.logical = .ok ()
  sorted : items.Pairwise fun a b => a.logical ≤ b.logical

/-- Every item that is not inside the one taken last ends below 2^64, or there when nothing comes
after it. -/
def Fits : ℕ → List ChunkItem → Prop
  | _, [] => True
  | bound, item :: items =>
    if item.logical < bound then Fits bound items
    else item.logical + item.chunk.length < 2 ^ 64 ∧ Fits (item.logical + item.chunk.length) items ∨
      item.logical + item.chunk.length = 2 ^ 64 ∧ items = []

/-! ## One item -/

/-- The end of the chunk that was loaded last, as far as a comparison sees it. -/
def lastEnd (maps : List MapLookup) : ℕ :=
  match maps.getLast? with
  | none => 0
  | some map => if mapEnd map < 2 ^ 64 then mapEnd map else 0

theorem lastEnd_concat (hend : mapEnd map < 2 ^ 64) : lastEnd (maps ++ [map]) = mapEnd map := by
  rw [lastEnd, List.getLast?_concat]
  exact if_pos hend

def addItem (findDevice : ℕ → ℕ) (maps : List MapLookup) (item : ChunkItem) : List MapLookup :=
  if item.logical < lastEnd maps then maps
  else maps ++ [mapOfChunk findDevice item.logical item.chunk]

/-- Chunks that were loaded in key order, before an item at `logical`. -/
structure LoadedTo (logical : ℕ) (maps : List MapLookup) : Prop where
  start_le : ∀ map ∈ maps, map.ce.start ≤ logical
  size_lt : ∀ map ∈ maps, map.ce.size < 2 ^ 64
  ordered : maps.Pairwise fun a b => mapEnd a < 2 ^ 64 → mapEnd a ≤ b.ce.start

theorem loadedTo_nil (logical : ℕ) : LoadedTo logical [] := ⟨by simp, by simp, .nil⟩

theorem LoadedTo.mono {a b : ℕ} (h : LoadedTo a maps) (hab : a ≤ b) : LoadedTo b maps :=
  ⟨fun map hmap => (h.start_le map hmap).trans hab, h.size_lt, h.ordered⟩

section

variable (h : LoadedTo logical maps)

include h

/-- A chunk that ends at or before the new one, or whose end has wrapped, compares below it. -/
theorem LoadedTo.comp_pos (hmap : map ∈ maps) (size : ℕ)
    (hend : mapEnd map < 2 ^ 64 → mapEnd map ≤ logical) :
    0 < cacheTreeCompRange map.ce logical size := by
  have hst := h.start_le map hmap
  have hs := h.size_lt map hmap
  have hw : wrap64 (map.ce.start + map.ce.size) ≤ logical := by
    by_cases hlt : map.ce.start + map.ce.size < 2 ^ 64
    · rw [wrap64_of_lt hlt]
      exact hend hlt
    · rw [wrap64]
      omega
  rw [cacheTreeCompRange, if_pos hw]
  exact Int.one_pos

/-- All chunks but the last one end at or before the new one, if they do not wrap. -/
theorem LoadedTo.end_le_init {last : MapLookup} (hmaps : maps = pre ++ [last]) :
    ∀ map ∈ pre, mapEnd map < 2 ^ 64 → mapEnd map ≤ logical := by
  intro map hmap hend
  have hp := h.ordered
  rw [hmaps] at hp
  have hl := (List.pairwise_append.mp hp).2.2 map hmap last (by simp)
  exact (hl hend).trans (h.start_le last (by simp [hmaps]))

theorem LoadedTo.end_le (hl : lastEnd maps ≤ logical) :
    ∀ map ∈ maps, mapEnd map < 2 ^ 64 → mapEnd map ≤ logical := by
  rcases List.eq_nil_or_concat maps with rfl | ⟨pre, last, rfl⟩
  · exact by simp
  · rw [List.concat_eq_append] at *
    rw [List.forall_mem_append]
    refine ⟨h.end_le_init rfl, ?_⟩
    intro map hmap hend
    obtain rfl := List.mem_singleton.mp hmap
    rwa [lastEnd_concat hend] at hl

theorem LoadedTo.comp_last {last : MapLookup} (hmaps : maps = pre ++ [last])
    (hl : logical < lastEnd maps) : mapEnd last < 2 ^ 64 ∧ logical < mapEnd last ∧
      cacheTreeCompRange last.ce logical 1 = 0 := by
  have hst := h.start_le last (by simp [hmaps])
  have hend : mapEnd last < 2 ^ 64 ∧ logical < mapEnd last := by
    simp only [hmaps, lastEnd, List.getLast?_concat] at hl
    split_ifs at hl with hlt
    · exact ⟨hlt, hl⟩
    · cases hl
  refine ⟨hend.1, hend.2, ?_⟩
  rw [mapEnd] at hend
  rw [cacheTreeCompRange, wrap64_of_lt hend.1, wrap64_of_lt (by omega), if_neg (by omega),
    if_neg (by omega)]

end

section

variable (h : LoadedTo item.logical (inorder tree))

include h

theorem LoadedTo.mapped_eq :
    ((searchMapping tree item.logical).any fun ce => ce.entry.ce.start ≤ item.logical ∧
      item.logical < wrap64 (ce.entry.ce.start + ce.entry.ce.size)) =
      decide (item.logical < lastEnd (inorder tree)) := by
  by_cases hl : item.logical < lastEnd (inorder tree)
  · rcases List.eq_nil_or_concat (inorder tree) with hnil | ⟨pre, last, hmaps⟩
    · rw [hnil] at hl
      cases hl
    · rw [List.concat_eq_append] at hmaps
      obtain ⟨hend, hlt, hz⟩ := h.comp_last hmaps hl
      have hst := h.start_le last (by simp [hmaps])
      have hpre : ∀ map ∈ pre, 0 < cacheTreeCompRange map.ce item.logical 1 := fun map hmap =>
        h.comp_pos (by simp [hmaps, hmap]) 1 (h.end_le_init hmaps map hmap)
      obtain ⟨n, hc, rfl⟩ := rbSearch_last hmaps hpre hz
      rw [mapEnd] at hend hlt
      rw [searchMapping, hc]
      simp [wrap64_of_lt hend, hst, hlt, hl]
  · rw [searchMapping, rbSearch_all_below (fun map hmap =>
      h.comp_pos hmap 1 (h.end_le (Nat.le_of_not_lt hl) map hmap))]
    simp [hl]

/-- One item: it is skipped, or its chunk becomes the last one. -/
theorem LoadedTo.readOneChunk_eq (findDevice : ℕ → ℕ) (hval : Valid tree)
    (hcheck : btrfsCheckChunkValid sectorsize item.chunk item.slot item.itemSize item.logical =
      .ok ()) :
    ∃ tree', readOneChunk sectorsize findDevice tree item.logical item.chunk item.slot
        item.itemSize = .ok (.ok tree') ∧ Valid tree' ∧
      inorder tree' = addItem findDevice (inorder tree) item := by
  simp only [readOneChunk, hcheck, h.mapped_eq, addItem]
  by_cases hl : item.logical < lastEnd (inorder tree)
  · refine ⟨tree, ?_, hval, ?_⟩
    · rw [if_pos (decide_eq_true hl)]
    · rw [if_pos hl]
  · have hbelow : ∀ map ∈ inorder tree,
        0 < cacheTreeCompRange map.ce item.logical item.chunk.length := fun map hmap =>
      h.comp_pos hmap _ (h.end_le (Nat.le_of_not_lt hl) map hmap)
    obtain ⟨tree', hc, hval', horder⟩ :=
      rbInsert_all_below (mapOfChunk findDevice item.logical item.chunk) hval hbelow
    refine ⟨tree', ?_, hval', ?_⟩
    · rw [if_neg (by simpa using hl)]
      simp only [mapOfChunk] at hc ⊢
      rw [hc]
      rfl
    · rw [if_neg hl, horder]

end

theorem LoadedTo.addItem (h : LoadedTo item.logical maps) (findDevice : ℕ → ℕ) :
    LoadedTo item.logical (addItem findDevice maps item) := by
  rw [Volumes.addItem]
  split_ifs with hl
  · exact h
  · refine ⟨?_, ?_, ?_⟩
    · exact List.forall_mem_append.mpr ⟨h.start_le, by simp [mapOfChunk]⟩
    · exact List.forall_mem_append.mpr ⟨h.size_lt, List.forall_mem_singleton.mpr item.length_lt⟩
    · refine List.pairwise_append.mpr ⟨h.ordered, List.pairwise_singleton _ _, ?_⟩
      intro map hmap new hnew
      obtain rfl := List.mem_singleton.mp hnew
      exact h.end_le (Nat.le_of_not_lt hl) map hmap

/-! ## All items -/

theorem readChunks_eq (findDevice : ℕ → ℕ) (hval : Valid tree)
    (hits : Loadable sectorsize items) (h : ∀ item ∈ items, LoadedTo item.logical (inorder tree)) :
    ∃ tree', readChunks sectorsize findDevice tree items = .ok (.ok tree') ∧
      inorder tree' = items.foldl (addItem findDevice) (inorder tree) := by
  induction items generalizing tree with
  | nil => exact ⟨tree, rfl, rfl⟩
  | cons item items ih =>
    obtain ⟨hit, hr⟩ := List.forall_mem_cons.mp h
    obtain ⟨hcheck, hchecks⟩ := List.forall_mem_cons.mp hits.valid
    obtain ⟨hle, hsorted⟩ := List.pairwise_cons.mp hits.sorted
    obtain ⟨tree', hc, hval', horder⟩ := hit.readOneChunk_eq findDevice hval hcheck
    have hloaded : ∀ i ∈ items, LoadedTo i.logical (inorder tree') := by
      intro i hi
      rw [horder]
      exact (hit.addItem findDevice).mono (hle i hi)
    obtain ⟨tree'', hrun, horder'⟩ := ih hval' ⟨hchecks, hsorted⟩ hloaded
    refine ⟨tree'', ?_, ?_⟩
    · simp [readChunks, hc, hrun]
    · rw [horder', horder, List.foldl_cons]

theorem addItem_sublist (findDevice : ℕ → ℕ) (maps : List MapLookup) (items : List ChunkItem) :
    maps.Sublist (items.foldl (addItem findDevice) maps) := by
  induction items generalizing maps with
  | nil => exact List.Sublist.refl _
  | cons item items ih =>
    refine List.Sublist.trans ?_ (ih _)
    rw [addItem]
    split_ifs
    · exact List.Sublist.refl _
    · exact List.sublist_append_left _ _

/-- Disjoint chunks that end below 2^64, the last one last. -/
structure Tidy (maps : List MapLookup) : Prop where
  end_lt : ∀ map ∈ maps, mapEnd map < 2 ^ 64
  disjoint : maps.Pairwise fun a b => mapEnd a ≤ b.ce.start
  end_le : ∀ map ∈ maps, mapEnd map ≤ lastEnd maps

theorem Tidy.disjointRanges (h : Tidy maps) : DisjointRanges maps :=
  ⟨fun map hmap => (h.end_lt map hmap).le, h.disjoint.imp .inl⟩

theorem Tidy.pairwise_concat (h : Tidy maps) (hle : lastEnd maps ≤ map.ce.start) :
    (maps ++ [map]).Pairwise fun a b => mapEnd a ≤ b.ce.start := by
  refine List.pairwise_append.mpr ⟨h.disjoint, by simp, ?_⟩
  intro a ha b hb
  obtain rfl := List.mem_singleton.mp hb
  exact (h.end_le a ha).trans hle

theorem Tidy.concat (h : Tidy maps) (hle : lastEnd maps ≤ map.ce.start) (hend : mapEnd map < 2 ^ 64) :
    Tidy (maps ++ [map]) := by
  refine ⟨?_, h.pairwise_concat hle, ?_⟩
  · exact List.forall_mem_append.mpr ⟨h.end_lt, by simpa using hend⟩
  · rw [lastEnd_concat hend, List.forall_mem_append]
    refine ⟨fun a ha => ?_, by simp⟩
    calc mapEnd a ≤ lastEnd maps := h.end_le a ha
      _ ≤ map.ce.start := hle
      _ ≤ mapEnd map := Nat.le_add_right _ _

theorem not_disjointRanges_of_top {a b : MapLookup} (hsub : [a, b].Sublist maps)
    (htop : mapEnd a = 2 ^ 64) (hle : a.ce.start ≤ b.ce.start) (hb : b.ce.start < 2 ^ 64)
    (hpos : 0 < b.ce.size) : ¬ DisjointRanges maps := by
  intro h
  have hp := List.pairwise_pair.mp (h.disjoint.sublist hsub)
  rw [htop, mapEnd] at hp
  omega

/-- The items that are kept are disjoint exactly when they fit. -/
theorem Tidy.disjointRanges_iff (findDevice : ℕ → ℕ) (h : Tidy maps)
    (hpos : ∀ item ∈ items, 0 < item.chunk.length)
    (hsorted : items.Pairwise fun a b => a.logical ≤ b.logical) :
    DisjointRanges (items.foldl (addItem findDevice) maps) ↔ Fits (lastEnd maps) items := by
  induction items generalizing maps with
  | nil => exact iff_of_true h.disjointRanges trivial
  | cons item items ih =>
    obtain ⟨hi, hr⟩ := List.forall_mem_cons.mp hpos
    obtain ⟨hle, hsorted⟩ := List.pairwise_cons.mp hsorted
    rw [List.foldl_cons, Fits]
    by_cases hskip : item.logical < lastEnd maps
    · rw [if_pos hskip, addItem, if_pos hskip]
      exact ih h hr hsorted
    · rw [if_neg hskip, addItem, if_neg hskip]
      obtain ⟨map, hmap⟩ : ∃ map, mapOfChunk findDevice item.logical item.chunk = map := ⟨_, rfl⟩
      have hst : map.ce.start = item.logical := by rw [← hmap, mapOfChunk]
      have hend : mapEnd map = item.logical + item.chunk.length := by rw [← hmap, mapOfChunk, mapEnd]
      rw [hmap, ← hend]
      have hl : lastEnd maps ≤ map.ce.start := by
        rw [hst]
        exact Nat.le_of_not_lt hskip
      have hmem : map ∈ items.foldl (addItem findDevice) (maps ++ [map]) :=
        (addItem_sublist findDevice (maps ++ [map]) items).subset (by simp)
      obtain hlt | htop | hgt := Nat.lt_trichotomy (mapEnd map) (2 ^ 64)
      · have hn := ih (h.concat hl hlt) hr hsorted
        rw [lastEnd_concat hlt] at hn
        rw [hn]
        constructor
        · exact fun hf => .inl ⟨hlt, hf⟩
        · rintro (⟨-, hf⟩ | ⟨htop, -⟩)
          · exact hf
          · exact absurd htop hlt.ne
      · cases items with
        | nil =>
          refine iff_of_true ⟨?_, (h.pairwise_concat hl).imp .inl⟩ (.inr ⟨htop, rfl⟩)
          exact List.forall_mem_append.mpr ⟨fun a ha => (h.end_lt a ha).le, by simp [htop]⟩
        | cons item' items =>
          refine iff_of_false ?_ ?_
          · -- the next item does not see this one
            have hnot : ¬ item'.logical < lastEnd (maps ++ [map]) := by simp [lastEnd, htop]
            rw [List.foldl_cons, addItem, if_neg hnot]
            have hsub : [map, mapOfChunk findDevice item'.logical item'.chunk].Sublist
                (items.foldl (addItem findDevice)
                  (maps ++ [map] ++ [mapOfChunk findDevice item'.logical item'.chunk])) := by
              refine List.Sublist.trans ?_ (addItem_sublist findDevice _ items)
              rw [List.append_assoc]
              exact List.sublist_append_right _ _
            refine not_disjointRanges_of_top hsub htop ?_ item'.logical_lt (hr item' (by simp))
            rw [hst]
            exact hle item' (by simp)
          · rintro (⟨hlt, -⟩ | ⟨-, hnil⟩)
            · exact absurd htop hlt.ne
            · cases hnil
      · refine iff_of_false (fun hdisjoint => ?_) ?_
        · exact absurd (hdisjoint.end_le map hmem) (Nat.not_le_of_lt hgt)
        · rintro (⟨hlt, -⟩ | ⟨htop, -⟩)
          · exact absurd hlt (Nat.lt_asymm hgt)
          · exact absurd htop hgt.ne'

/-- Loading accepted items in key order always returns. The chunks that it leaves are disjoint and
do not wrap exactly when the items fit. -/
theorem readChunks_disjointRanges_iff {sectorsize : ℕ} (findDevice : ℕ → ℕ) {items : List ChunkItem}
    (h : Loadable sectorsize items) :
    ∃ tree, readChunks sectorsize findDevice .nil items = .ok (.ok tree) ∧
      (DisjointRanges (inorder tree) ↔ Fits 0 items) := by
  obtain ⟨tree, hrun, horder⟩ := readChunks_eq findDevice valid_nil h fun item _ =>
    loadedTo_nil item.logical
  refine ⟨tree, hrun, ?_⟩
  rw [horder]
  have hpos : ∀ item ∈ items, 0 < item.chunk.length := by
    intro item hi
    obtain ⟨profile, haccepted⟩ := accepted_of_check (h.valid item hi) findDevice
    exact haccepted.size_pos
  have htidy : Tidy [] := ⟨by simp, .nil, by simp⟩
  exact htidy.disjointRanges_iff findDevice hpos h.sorted

/-- A data chunk of `length` bytes on one device, as an item. -/
def dataItem (logical length : ℕ) (slot : ℤ) (hlogical : logical < 2 ^ 64) (hlength : length < 2 ^ 64) :
    ChunkItem :=
  ⟨logical, ⟨length, 65536, BTRFS_BLOCK_GROUP_DATA, 4096, 0, [⟨1, 1048576⟩]⟩, slot, 80, hlogical, hlength⟩

/-- Three items of 8 MiB: the second one starts in the first one. -/
def nestedItems : List ChunkItem :=
  [dataItem 4194304 8388608 0 (by decide) (by decide),
    dataItem 8388608 8388608 1 (by decide) (by decide),
    dataItem 12582912 8388608 2 (by decide) (by decide)]

theorem readChunks_nestedItems : ∃ tree, readChunks 4096 id .nil nestedItems = .ok (.ok tree) ∧
    DisjointRanges (inorder tree) := by
  have h : Loadable 4096 nestedItems := ⟨by decide, by decide⟩
  obtain ⟨tree, hrun, hiff⟩ := readChunks_disjointRanges_iff id h
  exact ⟨tree, hrun, hiff.mpr (by simp [Fits, nestedItems, dataItem])⟩

/-- An item of 16 MiB that starts 8 MiB below 2^64, and one of 4 MiB inside it. -/
def wrappingItems : List ChunkItem :=
  [dataItem (2 ^ 64 - 8388608) 16777216 0 (by decide) (by decide),
    dataItem (2 ^ 64 - 6291456) 4194304 1 (by decide) (by decide)]

/-- Both are loaded: the range of the first one wraps, and it covers the second one. -/
theorem readChunks_wrappingItems : Loadable 4096 wrappingItems ∧
    ∃ a b, readChunks 4096 id .nil wrappingItems =
        .ok (.ok (.node .black .nil a (.node .red .nil b .nil))) ∧
      2 ^ 64 < mapEnd a ∧ a.ce.start < b.ce.start ∧ mapEnd b < mapEnd a ∧
      ¬ DisjointRanges [a, b] := by
  refine ⟨⟨by decide, by decide⟩, mapOfChunk id (2 ^ 64 - 8388608) (dataItem 0 16777216 0
    (by decide) (by decide)).chunk, mapOfChunk id (2 ^ 64 - 6291456) (dataItem 0 4194304 0
    (by decide) (by decide)).chunk, by decide +kernel, by decide, by decide, by decide, ?_⟩
  intro h
  exact absurd (h.end_le _ List.mem_cons_self) (by decide)

end Btrfs.Volumes
