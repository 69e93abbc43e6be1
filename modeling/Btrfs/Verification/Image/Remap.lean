import Btrfs.Model.Image.Chunks
import Btrfs.Verification.Image.Trees
import Btrfs.Verification.Shared.Calls

/-! # Where the chunks of an image go on the device

The chunks that overlap nothing read before them stay where they are; the others are moved behind
`last_physical_offset`. -/

namespace Btrfs.Image

open RbTree Sanitize Volumes

variable {last : ℕ} {entry ins : FsChunk} {kept moved : List FsChunk} {tree : RbNode FsChunk}
  {mark logical : ℕ} {st₁ : RestoreChunks}

/-! ## Ranges of the device -/

/-- Two ranges, each with its start and its end, that do not overlap. -/
def Apart (a b : ℕ × ℕ) : Prop := a.2 ≤ b.1 ∨ b.2 ≤ a.1

instance : DecidableRel Apart := fun _ _ => inferInstanceAs (Decidable (_ ∨ _))

theorem Apart.symm {a b : ℕ × ℕ} (h : Apart a b) : Apart b a := Or.symm h

namespace FsChunk

def range (chunk : FsChunk) : ℕ × ℕ := (chunk.physical, chunk.physical + chunk.bytes)

def dupRanges (chunk : FsChunk) : List (ℕ × ℕ) :=
  if chunk.physicalDup ≠ 0 then [(chunk.physicalDup, chunk.physicalDup + chunk.bytes)] else []

def ranges (chunk : FsChunk) : List (ℕ × ℕ) := chunk.range :: chunk.dupRanges

def logicalRange (chunk : FsChunk) : ℕ × ℕ := (chunk.logical, chunk.logical + chunk.bytes)

structure Read (chunk : FsChunk) : Prop where
  bytes_pos : 0 < chunk.bytes
  logical_lt : chunk.logical + chunk.bytes < 2 ^ 64

/-- The sums of `u64` for the chunk do not wrap around. -/
structure NoWrap (chunk : FsChunk) : Prop where
  physical_lt : chunk.physical + chunk.bytes < 2 ^ 64
  dup_lt : chunk.physicalDup + chunk.bytes < 2 ^ 64

end FsChunk

open FsChunk

theorem LeafChunk.read (item : LeafChunk) : item.fsChunk.Read := ⟨item.length_pos, item.range_lt⟩

/-! ## The plan -/

/-- The chunks that stay, behind the ones that stay already. -/
def keptChunks (kept : List FsChunk) : List FsChunk → List FsChunk
  | [] => kept
  | chunk :: chunks =>
    if ∀ a ∈ kept, Apart a.range chunk.range then keptChunks (kept ++ [chunk]) chunks
    else keptChunks kept chunks

def movedChunks (kept : List FsChunk) : List FsChunk → List FsChunk
  | [] => []
  | chunk :: chunks =>
    if ∀ a ∈ kept, Apart a.range chunk.range then movedChunks (kept ++ [chunk]) chunks
    else chunk :: movedChunks kept chunks

/-- The mark behind the chunks. The end of the first copy counts only where the end of the second
copy, or the length of a chunk without one, is not above the mark. -/
def highWater : ℕ → List FsChunk → ℕ
  | last, [] => last
  | last, chunk :: chunks =>
    highWater (if last < chunk.physicalDup + chunk.bytes then chunk.physicalDup + chunk.bytes
        else max last (chunk.physical + chunk.bytes)) chunks

/-- The ranges that are written where the image has them. -/
def fixedRanges (kept chunks : List FsChunk) : List (ℕ × ℕ) :=
  kept.map range ++ chunks.flatMap dupRanges

def totalBytes (chunks : List FsChunk) : ℕ := (chunks.map FsChunk.bytes).sum

/-- The ranges that stay do not overlap and lie below the mark, and what is moved fits behind
it. -/
structure Placeable (kept moved chunks : List FsChunk) (mark : ℕ) : Prop where
  apart : (fixedRanges kept chunks).Pairwise Apart
  ends_le : ∀ r ∈ fixedRanges kept chunks, r.2 ≤ mark
  room : mark + totalBytes moved < 2 ^ 64

/-! ## Moved chunks -/

def placeAll : ℕ → List FsChunk → List FsChunk
  | _, [] => []
  | last, chunk :: chunks =>
    { chunk with physical := last } :: placeAll (wrap64 (last + chunk.bytes)) chunks

def markAfter : ℕ → List FsChunk → ℕ
  | last, [] => last
  | last, chunk :: chunks => markAfter (wrap64 (last + chunk.bytes)) chunks

/-- All chunks of a list are below the mark, and no two of their copies overlap. -/
structure Separate (chunks : List FsChunk) (mark : ℕ) : Prop where
  ends_le : ∀ c ∈ chunks, ∀ r ∈ c.ranges, r.2 ≤ mark
  apart : (chunks.flatMap ranges).Pairwise Apart

theorem Separate.perm {xs ys : List FsChunk} (h : Separate xs mark) (hp : xs.Perm ys) :
    Separate ys mark :=
  ⟨fun c hc => h.ends_le c (hp.mem_iff.mpr hc),
    (hp.flatMap_right ranges).pairwise h.apart Apart.symm⟩

theorem totalBytes_cons (chunk : FsChunk) (chunks : List FsChunk) :
    totalBytes (chunk :: chunks) = chunk.bytes + totalBytes chunks := List.sum_cons

theorem dupRanges_placeAll (last : ℕ) (moved : List FsChunk) :
    (placeAll last moved).flatMap dupRanges = moved.flatMap dupRanges := by
  induction moved generalizing last with
  | nil => rfl
  | cons chunk moved ih =>
    rw [placeAll, List.flatMap_cons, ih]
    rfl

/-- A range that overlaps none of the moved chunks and ends below the last mark ends below the
first one, and the marks do not wrap around. -/
theorem markAfter_of_apart (he : ∀ c ∈ placeAll last moved, c.range.2 ≤ markAfter last moved)
    (hlt : markAfter last moved < 2 ^ 64) :
    markAfter last moved = last + totalBytes moved ∧
      ∀ r : ℕ × ℕ, r.1 < r.2 → (∀ c ∈ placeAll last moved, Apart r c.range) →
        r.2 ≤ markAfter last moved → r.2 ≤ last := by
  induction moved generalizing last with
  | nil => exact ⟨rfl, fun r _ _ hle => hle⟩
  | cons chunk moved ih =>
    have hend : last + chunk.bytes ≤ markAfter last (chunk :: moved) := he _ List.mem_cons_self
    have hw : wrap64 (last + chunk.bytes) = last + chunk.bytes := wrap64_of_lt (hend.trans_lt hlt)
    rw [markAfter, hw] at he hlt ⊢
    rw [placeAll, hw] at he ⊢
    obtain ⟨hmark, hbelow⟩ := ih (List.forall_mem_cons.mp he).2 hlt
    refine ⟨by rw [hmark, totalBytes_cons, Nat.add_assoc], ?_⟩
    intro r hne hapart hle
    have hn := hbelow r hne (List.forall_mem_cons.mp hapart).2 hle
    obtain h | h : r.2 ≤ last ∨ last + chunk.bytes ≤ r.1 := hapart _ List.mem_cons_self
    · exact h
    · omega

theorem placeAll_behind (hro : last + totalBytes moved < 2 ^ 64) :
    markAfter last moved = last + totalBytes moved ∧
      (∀ c ∈ placeAll last moved, last ≤ c.range.1 ∧ c.range.2 ≤ last + totalBytes moved) ∧
      ((placeAll last moved).map range).Pairwise Apart := by
  induction moved generalizing last with
  | nil => exact ⟨rfl, List.forall_mem_nil _, .nil⟩
  | cons chunk moved ih =>
    rw [totalBytes_cons] at hro ⊢
    have hw : wrap64 (last + chunk.bytes) = last + chunk.bytes := wrap64_of_lt (by omega)
    rw [markAfter, placeAll, hw]
    obtain ⟨hmark, hinside, hapart⟩ := @ih (last + chunk.bytes) (by omega)
    refine ⟨by rw [hmark, Nat.add_assoc], ?_, ?_⟩
    · refine List.forall_mem_cons.mpr ⟨⟨le_refl _, by simp only [range]; omega⟩, fun c hc => ?_⟩
      have := hinside c hc
      omega
    · rw [List.map_cons, List.pairwise_cons]
      refine ⟨?_, hapart⟩
      intro r hr
      obtain ⟨c, hc, rfl⟩ := List.mem_map.mp hr
      exact Or.inl (hinside c hc).1

theorem flatMap_ranges_perm (kept moved : List FsChunk) (last : ℕ) :
    ((kept ++ placeAll last moved).flatMap ranges).Perm
      (fixedRanges kept (kept ++ moved) ++ (placeAll last moved).map range) := by
  have hsplit : ((kept ++ placeAll last moved).flatMap ranges).Perm
      ((kept ++ placeAll last moved).map range ++
        (kept ++ placeAll last moved).flatMap dupRanges) :=
    (List.map_append_flatMap_perm _ range dupRanges).symm
  refine hsplit.trans ?_
  rw [fixedRanges, List.map_append, List.flatMap_append, List.flatMap_append, dupRanges_placeAll,
    List.append_assoc, List.append_assoc]
  exact List.perm_append_comm.append_left _

theorem mem_flatMap_ranges {chunks : List FsChunk} {P : ℕ × ℕ → Prop} :
    (∀ c ∈ chunks, ∀ r ∈ c.ranges, P r) ↔ ∀ r ∈ chunks.flatMap ranges, P r := by
  simp only [List.mem_flatMap]
  exact ⟨fun h r ⟨c, hc, hr⟩ => h c hc r hr, fun h c hc r hr => h r ⟨c, hc, hr⟩⟩

theorem range_nonempty {chunk : FsChunk} (h : chunk.Read) : ∀ r ∈ chunk.ranges, r.1 < r.2 := by
  have hpos := h.bytes_pos
  rw [ranges, List.forall_mem_cons, dupRanges]
  refine ⟨Nat.lt_add_of_pos_right hpos, ?_⟩
  split
  · exact List.forall_mem_singleton.mpr (Nat.lt_add_of_pos_right hpos)
  · exact by simp

theorem fixedRange_nonempty (hread : ∀ c ∈ kept ++ moved, c.Read) :
    ∀ r ∈ fixedRanges kept (kept ++ moved), r.1 < r.2 := by
  intro r hr
  rcases List.mem_append.mp hr with hr | hr
  · obtain ⟨c, hc, rfl⟩ := List.mem_map.mp hr
    exact range_nonempty (hread c (by simp [hc])) _ List.mem_cons_self
  · obtain ⟨c, hc, hr⟩ := List.mem_flatMap.mp hr
    exact range_nonempty (hread c hc) _ (List.mem_cons_of_mem _ hr)

/-- The chunks are separate after the remapping exactly if they fit. -/
theorem separate_iff (hread : ∀ c ∈ kept ++ moved, c.Read) (hmark : markAfter mark moved < 2 ^ 64) :
    Separate (kept ++ placeAll mark moved) (markAfter mark moved) ↔
      Placeable kept moved (kept ++ moved) mark := by
  have hp := flatMap_ranges_perm kept moved mark
  constructor
  · intro h
    have hall := mem_flatMap_ranges.mp h.ends_le
    have hapart := hp.pairwise h.apart Apart.symm
    rw [List.pairwise_append] at hapart
    obtain ⟨hfix, -, hcross⟩ := hapart
    obtain ⟨htotal, hbelow⟩ := markAfter_of_apart
      (fun c hc => h.ends_le c (by simp [hc]) _ List.mem_cons_self) hmark
    refine ⟨hfix, ?_, htotal ▸ hmark⟩
    intro r hr
    apply hbelow r (fixedRange_nonempty hread r hr)
    · exact fun c hc => hcross r hr _ (List.mem_map_of_mem hc)
    · exact hall r (hp.mem_iff.mpr (List.mem_append_left _ hr))
  · intro h
    obtain ⟨htotal, hinside, hplace⟩ := placeAll_behind h.room
    constructor
    · rw [mem_flatMap_ranges]
      intro r hr
      rw [htotal]
      rcases List.mem_append.mp (hp.mem_iff.mp hr) with hr | hr
      · exact (h.ends_le r hr).trans (Nat.le_add_right _ _)
      · obtain ⟨c, hc, rfl⟩ := List.mem_map.mp hr
        exact (hinside c hc).2
    · refine hp.symm.pairwise ?_ Apart.symm
      rw [List.pairwise_append]
      refine ⟨h.apart, hplace, ?_⟩
      intro r hr r' hr'
      obtain ⟨c, hc, rfl⟩ := List.mem_map.mp hr'
      exact Or.inl ((h.ends_le r hr).trans (hinside c hc).1)

/-! ## The comparisons -/

theorem physicalCmp_of_noWrap (hent : entry.NoWrap) (hinside : ins.NoWrap) (hpos : 0 < entry.bytes)
    (hpos' : 0 < ins.bytes) :
    (Apart entry.range ins.range ∧ ins.physical < entry.physical ∧ physicalCmp entry ins = -1) ∨
      (Apart entry.range ins.range ∧ entry.physical < ins.physical ∧ physicalCmp entry ins = 1) ∨
      ¬ Apart entry.range ins.range ∧ physicalCmp entry ins = 0 := by
  have h1 := hent.physical_lt
  have h2 := hinside.physical_lt
  rw [physicalCmp, wrap64_of_lt h1, wrap64_of_lt h2, Apart, range, range]
  split_ifs <;> omega

theorem physicalCmp_eq_zero_iff (hent : entry.NoWrap) (hins : ins.NoWrap) (hpos : 0 < entry.bytes)
    (hpos' : 0 < ins.bytes) :
    physicalCmp entry ins = 0 ↔ ¬ Apart entry.range ins.range := by
  obtain ⟨hapart, -, hcmp⟩ | ⟨hapart, -, hcmp⟩ | ⟨ho, hcmp⟩ :=
    physicalCmp_of_noWrap hent hins hpos hpos'
  · exact iff_of_false (by rw [hcmp]; decide) (not_not.mpr hapart)
  · exact iff_of_false (by rw [hcmp]; decide) (not_not.mpr hapart)
  · exact iff_of_true hcmp ho

/-- A chunk that compares equal with an entry starts before the end of the entry, or its end wraps
around. -/
theorem lt_of_physicalCmp_eq_zero (hlt : entry.physical + entry.bytes < 2 ^ 64)
    (hpos : 0 < entry.bytes) (h : physicalCmp entry ins = 0) :
    ins.physical < entry.physical + entry.bytes := by
  rw [physicalCmp, wrap64_of_lt hlt] at h
  split_ifs at h <;> omega

def Ascending (range : FsChunk → ℕ × ℕ) (chunks : List FsChunk) : Prop :=
  chunks.Pairwise fun a b => (range a).2 ≤ (range b).1

theorem Ascending.consistent_physicalCmp {chunks : List FsChunk} (h : Ascending range chunks)
    (hchunks : ∀ c ∈ chunks, c.NoWrap ∧ 0 < c.bytes) (hinside : ins.NoWrap) (hpos : 0 < ins.bytes) :
    Consistent (fun entry => physicalCmp entry ins) chunks := by
  refine h.imp_of_mem ?_
  intro a b ha hb hab
  obtain ⟨hwrapA, hposA⟩ := hchunks a ha
  obtain ⟨hwrapB, hposB⟩ := hchunks b hb
  have hcmpA := physicalCmp_of_noWrap hwrapA hinside hposA hpos
  have hcmpB := physicalCmp_of_noWrap hwrapB hinside hposB hpos
  simp only [range, Apart] at hab hcmpA hcmpB
  beta_reduce
  constructor <;> omega

theorem chunkCmp_of_apart (hent : entry.Read) (hinside : ins.Read)
    (hapart : Apart entry.logicalRange ins.logicalRange) :
    (ins.logical < entry.logical ∧ chunkCmp entry ins.logical = -1) ∨
      (entry.logical < ins.logical ∧ chunkCmp entry ins.logical = 1) := by
  have h1 := hent.bytes_pos
  have h2 := hinside.bytes_pos
  rw [Apart, logicalRange, logicalRange] at hapart
  rw [chunkCmp, wrap64_of_lt hent.logical_lt]
  split_ifs <;> omega

theorem Ascending.consistent_chunkCmp {chunks : List FsChunk} (logical : ℕ)
    (h : Ascending logicalRange chunks) (hchunks : ∀ c ∈ chunks, c.Read) :
    Consistent (fun entry => chunkCmp entry logical) chunks := by
  refine h.imp_of_mem ?_
  intro a b ha hb hab
  have hwrapA := wrap64_of_lt (hchunks a ha).logical_lt
  simp only [logicalRange] at hab
  simp only [chunkCmp]
  constructor <;> omega

/-! ## Reading the chunk items -/

variable {st st' : RestoreChunks} {chunk : FsChunk} {chunks : List FsChunk}

theorem placeChunk_eq_ok {physicalTree : RbNode FsChunk} {overlapping : List FsChunk}
    (h : placeChunk st chunk = .ok (physicalTree, overlapping)) :
    ((∃ a ∈ inorder st.physicalTree, physicalCmp a chunk = 0) ∧ physicalTree = st.physicalTree ∧
        overlapping = chunk :: st.overlappingChunks) ∨
      treeInsert (fun entry => physicalCmp entry chunk) st.physicalTree chunk = .ok physicalTree ∧
        overlapping = st.overlappingChunks := by
  rw [placeChunk] at h
  cases hsearch : treeSearch (fun entry => physicalCmp entry chunk) st.physicalTree with
  | some a =>
    rw [hsearch] at h
    cases h
    obtain ⟨ha, hcmp⟩ := treeSearch_sound hsearch
    exact Or.inl ⟨⟨a, ha, hcmp⟩, rfl, rfl⟩
  | none =>
    rw [hsearch] at h
    obtain ⟨tree, hinside, h⟩ := bind_eq_ok.mp h
    cases h
    exact Or.inr ⟨hinside, rfl⟩

theorem readChunkItem_eq_ok (h : readChunkItem st chunk = .ok st') :
    placeChunk st chunk = .ok (st'.physicalTree, st'.overlappingChunks) ∧
      treeInsert (fun entry => chunkCmp entry chunk.logical) st.chunkTree chunk =
        .ok st'.chunkTree ∧
      st'.lastPhysicalOffset = nextLastPhysicalOffset st.lastPhysicalOffset chunk := by
  obtain ⟨⟨physicalTree, overlapping⟩, hplace, h⟩ := bind_eq_ok.mp h
  obtain ⟨chunkTree, hinside, h⟩ := bind_eq_ok.mp h
  cases h
  exact ⟨hplace, hinside, rfl⟩

/-- The state once chunks were read, whatever they are. -/
structure ReadSoFar (st : RestoreChunks) (chunks : List FsChunk) : Prop where
  valid_chunkTree : Valid st.chunkTree
  valid_physicalTree : Valid st.physicalTree
  perm_chunkTree : (inorder st.chunkTree).Perm chunks
  perm_physicalTree : (inorder st.physicalTree ++ st.overlappingChunks).Perm chunks
  overlaps : ∀ c ∈ st.overlappingChunks, ∃ a ∈ inorder st.physicalTree, physicalCmp a c = 0
  last_eq : st.lastPhysicalOffset = chunks.foldl nextLastPhysicalOffset 0

theorem readSoFar_nil : ReadSoFar {} [] := ⟨valid_nil, valid_nil, .nil, .nil, by simp, rfl⟩

theorem perm_of_insert {α : Type*} {xs below above more : List α} {x : α}
    (happend : xs = below ++ above) (hp : xs.Perm more) :
    (below ++ x :: above).Perm (more ++ [x]) := by
  refine List.perm_middle.trans ?_
  rw [← happend]
  exact (hp.cons x).trans (List.perm_append_singleton x more).symm

theorem ReadSoFar.readChunkItem (h : ReadSoFar st chunks)
    (hread : readChunkItem st chunk = .ok st') : ReadSoFar st' (chunks ++ [chunk]) := by
  obtain ⟨hpla, hinside, hl⟩ := readChunkItem_eq_ok hread
  obtain ⟨hval, below, above, happend, hino⟩ := treeInsert_sound h.valid_chunkTree hinside
  have hchunks : (inorder st'.chunkTree).Perm (chunks ++ [chunk]) := by
    rw [hino]
    exact perm_of_insert happend h.perm_chunkTree
  have hl' : st'.lastPhysicalOffset = (chunks ++ [chunk]).foldl nextLastPhysicalOffset 0 := by
    rw [hl, h.last_eq, List.foldl_append]
    rfl
  obtain ⟨⟨a, ha, hcmp⟩, ht, ho⟩ | ⟨hplace, ho⟩ := placeChunk_eq_ok hpla
  · refine ⟨hval, ht ▸ h.valid_physicalTree, hchunks, ?_, ?_, hl'⟩
    · rw [ht, ho]
      refine List.perm_middle.trans ?_
      exact (h.perm_physicalTree.cons chunk).trans (List.perm_append_singleton chunk chunks).symm
    · rw [ht, ho]
      exact List.forall_mem_cons.mpr ⟨⟨a, ha, hcmp⟩, h.overlaps⟩
  · obtain ⟨hval', below', above', happend', hino'⟩ :=
      treeInsert_sound h.valid_physicalTree hplace
    refine ⟨hval, hval', hchunks, ?_, ?_, hl'⟩
    · rw [hino', ho, List.append_assoc, List.cons_append]
      refine perm_of_insert ?_ h.perm_physicalTree
      rw [happend', List.append_assoc]
    · rw [hino', ho]
      intro c hc
      obtain ⟨a, ha, hcmp⟩ := h.overlaps c hc
      rw [happend', List.mem_append] at ha
      refine ⟨a, ?_, hcmp⟩
      rw [List.mem_append]
      tauto

theorem ReadSoFar.readChunkItems {items : List LeafChunk} (h : ReadSoFar st chunks)
    (hread : readChunkItems st items = .ok st') :
    ReadSoFar st' (chunks ++ items.map LeafChunk.fsChunk) := by
  induction items generalizing st chunks with
  | nil =>
    cases hread
    rw [List.map_nil, List.append_nil]
    exact h
  | cons item items ih =>
    obtain ⟨next, hn, hread⟩ := bind_eq_ok.mp hread
    have hall := ih (h.readChunkItem hn) hread
    rw [List.append_assoc] at hall
    exact hall

/-! ## Remapping -/

theorem logicalRange_setPhysical (logical physical : ℕ) (chunk : FsChunk) :
    (setPhysical logical physical chunk).logicalRange = chunk.logicalRange := by
  rw [setPhysical]
  split <;> rfl

theorem map_setPhysical (last : ℕ) (hnd : ((kept ++ chunk :: moved).map FsChunk.logical).Nodup) :
    (kept ++ chunk :: moved).map (setPhysical chunk.logical last) =
      kept ++ { chunk with physical := last } :: moved := by
  have hother : ∀ c ∈ kept ++ moved, setPhysical chunk.logical last c = c := by
    intro c hc
    rw [(List.perm_middle.map FsChunk.logical).nodup_iff, List.map_cons, List.nodup_cons] at hnd
    refine if_neg fun heq => hnd.1 ?_
    rw [← heq]
    exact List.mem_map_of_mem hc
  have hk : kept.map (setPhysical chunk.logical last) = kept.map id :=
    List.map_congr_left (List.forall_mem_append.mp hother).1
  have hmoved : moved.map (setPhysical chunk.logical last) = moved.map id :=
    List.map_congr_left (List.forall_mem_append.mp hother).2
  simp [hk, hmoved, setPhysical]

theorem remapLoop_sound (hp : (inorder st.chunkTree).Perm (kept ++ moved))
    (hnd : ((kept ++ moved).map FsChunk.logical).Nodup) (h : remapLoop moved st = .ok st') :
    (inorder st'.chunkTree).Perm (kept ++ placeAll st.lastPhysicalOffset moved) ∧
      st'.lastPhysicalOffset = markAfter st.lastPhysicalOffset moved ∧
      (inorder st'.chunkTree).map logicalRange = (inorder st.chunkTree).map logicalRange := by
  induction moved generalizing st kept with
  | nil =>
    cases h
    exact ⟨hp, rfl, rfl⟩
  | cons chunk moved ih =>
    obtain ⟨physicalTree, -, h⟩ := bind_eq_ok.mp h
    obtain ⟨last, hl⟩ : ∃ last, last = st.lastPhysicalOffset := ⟨_, rfl⟩
    rw [← hl] at h ⊢
    have hmap : (inorder (mapEntries (setPhysical chunk.logical last) st.chunkTree)).Perm
        ((kept ++ [{ chunk with physical := last }]) ++ moved) := by
      rw [inorder_mapEntries, List.append_assoc, List.cons_append, List.nil_append,
        ← map_setPhysical last hnd]
      exact hp.map _
    have hnd' : (((kept ++ [{ chunk with physical := last }]) ++ moved).map
        FsChunk.logical).Nodup := by
      rw [List.append_assoc, List.map_append]
      rw [List.map_append] at hnd
      exact hnd
    obtain ⟨hp', hl', hranges⟩ := ih hmap hnd' h
    refine ⟨?_, hl', ?_⟩
    · rw [List.append_assoc] at hp'
      exact hp'
    · rw [hranges, inorder_mapEntries, List.map_map]
      exact List.map_congr_left fun c _ => logicalRange_setPhysical _ _ c

theorem remapLoop_returns (hval : Valid st.physicalTree) (hbelow : ∀ c ∈ inorder st.physicalTree,
      0 < c.bytes ∧ c.physical + c.bytes ≤ st.lastPhysicalOffset) (hpos : ∀ c ∈ moved, 0 < c.bytes)
    (hr : st.lastPhysicalOffset + totalBytes moved < 2 ^ 64) :
    ∃ st', remapLoop moved st = .ok st' := by
  induction moved generalizing st with
  | nil => exact ⟨_, rfl⟩
  | cons chunk moved ih =>
    obtain ⟨last, hl⟩ : ∃ last, last = st.lastPhysicalOffset := ⟨_, rfl⟩
    rw [totalBytes_cons] at hr
    have hcheck := hpos chunk (by simp)
    have hw : wrap64 (last + chunk.bytes) = last + chunk.bytes := wrap64_of_lt (by omega)
    have hcmp : ∀ e ∈ inorder st.physicalTree,
        0 < physicalCmp e { chunk with physical := last } := by
      intro e he
      obtain ⟨hbytes, hend⟩ := hbelow e he
      have hwrapE : wrap64 (e.physical + e.bytes) = e.physical + e.bytes := wrap64_of_lt (by omega)
      simp only [physicalCmp, hwrapE, hw]
      split_ifs <;> omega
    obtain ⟨physicalTree, hinside, hval', hino⟩ :=
      rbInsert_all_below { chunk with physical := last } hval hcmp
    rw [remapLoop]
    simp only [← hl, treeInsert_of_rbInsert hinside, hw]
    apply ih hval'
    · intro c hc
      rw [hino, List.mem_append, List.mem_singleton] at hc
      rcases hc with hc | rfl
      · obtain ⟨hbytes, hend⟩ := hbelow c hc
        exact ⟨hbytes, by simp only; omega⟩
      · exact ⟨hcheck, le_refl _⟩
    · exact (List.forall_mem_cons.mp hpos).2
    · simp only
      omega

/-! ## Reading without wrap-around -/

/-- The state once chunks were read whose sums do not wrap around. -/
structure ReadExactly (st : RestoreChunks) (kept moved : List FsChunk) : Prop where
  ascending_physical : Ascending range (inorder st.physicalTree)
  perm_kept : (inorder st.physicalTree).Perm kept
  overlapping_eq : st.overlappingChunks = moved.reverse
  ascending_logical : Ascending logicalRange (inorder st.chunkTree)

theorem readExactly_nil : ReadExactly {} [] [] := ⟨.nil, .nil, rfl, .nil⟩

section

theorem ReadExactly.placeChunk (h : ReadExactly st kept moved) (hval : Valid st.physicalTree)
    (hk : ∀ c ∈ kept, c.NoWrap ∧ 0 < c.bytes) (hw : chunk.NoWrap) (hpos : 0 < chunk.bytes) :
    ∃ physicalTree overlapping, placeChunk st chunk = .ok (physicalTree, overlapping) ∧
      Ascending range (inorder physicalTree) ∧
      (inorder physicalTree).Perm
        (if ∀ a ∈ kept, Apart a.range chunk.range then kept ++ [chunk] else kept) ∧
      overlapping = (if ∀ a ∈ kept, Apart a.range chunk.range then moved
        else moved ++ [chunk]).reverse := by
  have hall : ∀ c ∈ inorder st.physicalTree, c.NoWrap ∧ 0 < c.bytes :=
    fun c hc => hk c (h.perm_kept.mem_iff.mp hc)
  have hco := h.ascending_physical.consistent_physicalCmp hall hw hpos
  rw [Image.placeChunk]
  cases hsearch : treeSearch (fun entry => physicalCmp entry chunk) st.physicalTree with
  | some a =>
    obtain ⟨ha, hcmp⟩ := treeSearch_sound hsearch
    have ho : ¬ ∀ a ∈ kept, Apart a.range chunk.range := by
      intro hapart
      obtain ⟨hwrapA, hposA⟩ := hall a ha
      exact (physicalCmp_eq_zero_iff hwrapA hw hposA hpos).mp hcmp
        (hapart a (h.perm_kept.mem_iff.mp ha))
    rw [if_neg ho, if_neg ho]
    refine ⟨_, _, rfl, h.ascending_physical, h.perm_kept, ?_⟩
    rw [h.overlapping_eq, List.reverse_append]
    rfl
  | none =>
    have hne := treeSearch_none hco hsearch
    have hapart : ∀ a ∈ kept, Apart a.range chunk.range := by
      intro a ha
      have hmem := h.perm_kept.mem_iff.mpr ha
      obtain ⟨hwrapA, hposA⟩ := hall a hmem
      by_contra ho
      exact hne a hmem ((physicalCmp_eq_zero_iff hwrapA hw hposA hpos).mpr ho)
    obtain ⟨physicalTree, below, above, hins, -, hcut, hino⟩ := treeInsert_spec chunk hval hco hne
    rw [if_pos hapart, if_pos hapart]
    refine ⟨physicalTree, st.overlappingChunks, ?_, ?_, ?_, h.overlapping_eq⟩
    · simp only [hins]
      rfl
    · rw [hino]
      refine hcut.insert h.ascending_physical ?_ ?_ <;>
      · intro c hc hsign
        obtain ⟨hwrapC, hposC⟩ := hall c hc
        have hcmp := physicalCmp_of_noWrap hwrapC hw hposC hpos
        simp only [range, Apart] at hcmp ⊢
        omega
    · rw [hino]
      exact perm_of_insert hcut.append h.perm_kept

theorem insert_chunkTree (hval : Valid st.chunkTree)
    (hascending : Ascending logicalRange (inorder st.chunkTree))
    (hchunks : ∀ c ∈ inorder st.chunkTree, c.Read ∧ Apart c.logicalRange chunk.logicalRange)
    (hread : chunk.Read) :
    ∃ chunkTree, treeInsert (fun entry => chunkCmp entry chunk.logical) st.chunkTree chunk =
        .ok chunkTree ∧ Ascending logicalRange (inorder chunkTree) := by
  have hcmp : ∀ c ∈ inorder st.chunkTree, _ := fun c hc =>
    chunkCmp_of_apart (hchunks c hc).1 hread (hchunks c hc).2
  have hco := hascending.consistent_chunkCmp chunk.logical fun c hc => (hchunks c hc).1
  have hne : ∀ c ∈ inorder st.chunkTree, chunkCmp c chunk.logical ≠ 0 := by
    intro c hc
    have := hcmp c hc
    omega
  obtain ⟨chunkTree, below, above, hinside, -, hcut, hino⟩ := treeInsert_spec chunk hval hco hne
  refine ⟨chunkTree, hinside, ?_⟩
  rw [hino]
  refine hcut.insert hascending ?_ ?_ <;>
  · intro c hc hsign
    have hcmp := hcmp c hc
    have hapart := (hchunks c hc).2
    simp only [logicalRange, Apart] at hcmp hapart ⊢
    omega

/-- The chunk that is read next: nothing wraps around in it, and its logical range is free. -/
structure Next (chunks : List FsChunk) (chunk : FsChunk) : Prop where
  noWrap : chunk.NoWrap
  read : chunk.Read
  apart : ∀ c ∈ chunks, Apart c.logicalRange chunk.logicalRange

section

variable (h : ReadExactly st kept moved) (hsofar : ReadSoFar st chunks)
  (hchunks : ∀ c ∈ chunks, c.NoWrap ∧ c.Read)

include h hsofar hchunks

theorem ReadExactly.readChunkItem (hn : Next chunks chunk) :
    ∃ st', readChunkItem st chunk = .ok st' ∧ ReadExactly st'
      (if ∀ a ∈ kept, Apart a.range chunk.range then kept ++ [chunk] else kept)
      (if ∀ a ∈ kept, Apart a.range chunk.range then moved else moved ++ [chunk]) := by
  have hk : ∀ c ∈ kept, c.NoWrap ∧ 0 < c.bytes := by
    intro c hc
    have hmem := hsofar.perm_physicalTree.mem_iff.mp
      (List.mem_append_left _ (h.perm_kept.mem_iff.mpr hc))
    exact ⟨(hchunks c hmem).1, (hchunks c hmem).2.bytes_pos⟩
  have ht : ∀ c ∈ inorder st.chunkTree, c.Read ∧ Apart c.logicalRange chunk.logicalRange := by
    intro c hc
    have hmem := hsofar.perm_chunkTree.mem_iff.mp hc
    exact ⟨(hchunks c hmem).2, hn.apart c hmem⟩
  obtain ⟨physicalTree, overlapping, hplace, hascending, hp, ho⟩ :=
    h.placeChunk hsofar.valid_physicalTree hk hn.noWrap hn.read.bytes_pos
  obtain ⟨chunkTree, hinside, hlog⟩ :=
    insert_chunkTree hsofar.valid_chunkTree h.ascending_logical ht hn.read
  have hrun : ∃ st', Image.readChunkItem st chunk = .ok st' ∧ st'.physicalTree = physicalTree ∧
      st'.overlappingChunks = overlapping ∧ st'.chunkTree = chunkTree := by
    rw [Image.readChunkItem, hplace]
    simp only [hinside]
    exact ⟨_, rfl, rfl, rfl, rfl⟩
  obtain ⟨st', hrun, rfl, rfl, rfl⟩ := hrun
  exact ⟨st', hrun, hascending, hp, ho, hlog⟩

theorem ReadExactly.readChunkItems {items : List LeafChunk}
    (hitems : ∀ item ∈ items, item.fsChunk.NoWrap)
    (hapart : (chunks ++ items.map LeafChunk.fsChunk).Pairwise
      fun a b => Apart a.logicalRange b.logicalRange) :
    ∃ st', readChunkItems st items = .ok st' ∧
      ReadExactly st' (keptChunks kept (items.map LeafChunk.fsChunk))
        (moved ++ movedChunks kept (items.map LeafChunk.fsChunk)) := by
  induction items generalizing st chunks kept moved with
  | nil =>
    rw [List.map_nil, movedChunks, List.append_nil]
    exact ⟨st, rfl, h⟩
  | cons item items ih =>
    have hn : Next chunks item.fsChunk :=
      ⟨hitems item (by simp), item.read,
        fun c hc => (List.pairwise_append.mp hapart).2.2 c hc _ (by simp)⟩
    obtain ⟨next, hread, hex⟩ := h.readChunkItem hsofar hchunks hn
    have hchunks' : ∀ c ∈ chunks ++ [item.fsChunk], c.NoWrap ∧ c.Read := by
      refine List.forall_mem_append.mpr ⟨hchunks, fun c hc => ?_⟩
      rw [List.mem_singleton.mp hc]
      exact ⟨hn.noWrap, hn.read⟩
    have hapart' : ((chunks ++ [item.fsChunk]) ++ items.map LeafChunk.fsChunk).Pairwise
        fun a b => Apart a.logicalRange b.logicalRange := by
      rw [List.append_assoc]
      exact hapart
    obtain ⟨st', hrun, hfinal⟩ := ih hex (hsofar.readChunkItem hread) hchunks'
      (List.forall_mem_cons.mp hitems).2 hapart'
    refine ⟨st', ?_, ?_⟩
    · rw [Image.readChunkItems, hread]
      exact hrun
    · rw [List.map_cons, keptChunks, movedChunks]
      split_ifs at hfinal ⊢
      · exact hfinal
      · rw [List.append_assoc] at hfinal
        exact hfinal

end

end

theorem foldl_highWater (last : ℕ) (h : ∀ c ∈ chunks, c.NoWrap) :
    chunks.foldl nextLastPhysicalOffset last = highWater last chunks := by
  induction chunks generalizing last with
  | nil => rfl
  | cons chunk chunks ih =>
    have hcheck := h chunk (by simp)
    have hn : nextLastPhysicalOffset last chunk =
        if last < chunk.physicalDup + chunk.bytes then chunk.physicalDup + chunk.bytes
        else max last (chunk.physical + chunk.bytes) := by
      rw [nextLastPhysicalOffset, wrap64_of_lt hcheck.dup_lt, wrap64_of_lt hcheck.physical_lt]
      split_ifs <;> omega
    rw [List.foldl_cons, highWater, hn, ih _ (List.forall_mem_cons.mp h).2]

/-! ## Writing to the device -/

def deviceBytes (chunkTree : RbNode FsChunk) (logical : ℕ) : List ℕ :=
  match logicalToPhysical chunkTree logical 1 0 with
  | .ok (physical, _, physicalDup) => physical :: if physicalDup ≠ 0 then [physicalDup] else []
  | .error _ => []

/-- A logical address inside a chunk, other than the one that stands for the superblock. -/
def InChunk (chunkTree : RbNode FsChunk) (logical : ℕ) : Prop :=
  logical ≠ BTRFS_SUPER_INFO_OFFSET ∧
    ∃ c ∈ inorder chunkTree, c.logical ≤ logical ∧ logical < c.logical + c.bytes

/-- Nothing is written over: the copies of all chunks are separate, and two logical addresses are
not written to one byte of the device. -/
structure Placed (st : RestoreChunks) : Prop where
  separate : Separate (inorder st.chunkTree) st.lastPhysicalOffset
  once : ∀ x y, x ≠ y → InChunk st.chunkTree x → InChunk st.chunkTree y →
    ∀ b ∈ deviceBytes st.chunkTree x, b ∉ deviceBytes st.chunkTree y

section

theorem chunkCmp_eq_zero_iff (h : entry.Read) : chunkCmp entry logical = 0 ↔
      entry.logical ≤ logical ∧ logical < entry.logical + entry.bytes := by
  have hpos := h.bytes_pos
  rw [chunkCmp, wrap64_of_lt h.logical_lt]
  split_ifs <;> simp <;> omega

section

variable (hread : ∀ c ∈ inorder tree, c.Read) (hascending : Ascending logicalRange (inorder tree))

include hread hascending

theorem exists_treeSearch (hin : InChunk tree logical) :
    ∃ c ∈ inorder tree, c.logical ≤ logical ∧ logical < c.logical + c.bytes ∧
      treeSearch (fun entry => chunkCmp entry logical) tree = some c := by
  cases hsearch : treeSearch (fun entry => chunkCmp entry logical) tree with
  | none =>
    obtain ⟨-, c, hc, hinside⟩ := hin
    have hne := treeSearch_none (hascending.consistent_chunkCmp logical hread) hsearch c hc
    exact absurd ((chunkCmp_eq_zero_iff (hread c hc)).mpr hinside) hne
  | some c =>
    obtain ⟨hc, hcmp⟩ := treeSearch_sound hsearch
    obtain ⟨hlo, hhi⟩ := (chunkCmp_eq_zero_iff (hread c hc)).mp hcmp
    exact ⟨c, hc, hlo, hhi, rfl⟩

theorem deviceBytes_inside (hsep : Separate (inorder tree) mark)
    (hmark : mark < 2 ^ 64) (hin : InChunk tree logical) :
    ∃ c ∈ inorder tree, c.logical ≤ logical ∧ ∀ b ∈ deviceBytes tree logical, ∃ r ∈ c.ranges,
        b = r.1 + (logical - c.logical) ∧ b < r.2 := by
  obtain ⟨c, hc, hlo, hhi, hsearch⟩ := exists_treeSearch hread hascending hin
  have hinside : ¬ (logical < c.logical ∨ wrap64 (c.logical + c.bytes) < logical) := by
    rw [wrap64_of_lt (hread c hc).logical_lt]
    omega
  have hphys := hsep.ends_le c hc _ List.mem_cons_self
  simp only [range] at hphys
  have hw : wrap64 (c.physical + (logical - c.logical)) =
      c.physical + (logical - c.logical) := wrap64_of_lt (by omega)
  refine ⟨c, hc, hlo, ?_⟩
  rw [deviceBytes, logicalToPhysical, if_neg hin.1, hsearch]
  simp only [if_neg hinside, hw]
  intro b hb
  by_cases hdup : c.physicalDup = 0
  · have hb' : b = c.physical + (logical - c.logical) := by
      simpa [hdup] using hb
    exact ⟨c.range, List.mem_cons_self, hb', by simp only [range]; omega⟩
  · have hmem : (c.physicalDup, c.physicalDup + c.bytes) ∈ c.ranges := by
      rw [ranges, dupRanges, if_pos hdup]
      exact by simp
    have hdupEnd := hsep.ends_le c hc _ hmem
    have hdupWrap : wrap64 (c.physicalDup + (logical - c.logical)) =
        c.physicalDup + (logical - c.logical) := wrap64_of_lt (by omega)
    rw [if_pos hdup, hdupWrap, if_pos (by omega)] at hb
    rcases List.mem_cons.mp hb with hb | hb
    · exact ⟨c.range, List.mem_cons_self, hb, by simp only [range]; omega⟩
    · exact ⟨_, hmem, List.mem_singleton.mp hb, by
        rw [List.mem_singleton.mp hb]
        omega⟩

end

theorem not_apart_of_mem {r r' : ℕ × ℕ} {b : ℕ} (h : r.1 ≤ b ∧ b < r.2) (h' : r'.1 ≤ b ∧ b < r'.2) :
    ¬ Apart r r' := by
  rw [Apart]
  omega

instance : Std.Symm Apart := ⟨fun _ _ => Apart.symm⟩

theorem Placed.of_separate (hread : ∀ c ∈ inorder st.chunkTree, c.Read)
    (hascending : Ascending logicalRange (inorder st.chunkTree))
    (hsep : Separate (inorder st.chunkTree) st.lastPhysicalOffset)
    (hmark : st.lastPhysicalOffset < 2 ^ 64) : Placed st := by
  refine ⟨hsep, ?_⟩
  intro x y hne hx hy b hbx hby
  obtain ⟨c, hc, hlo, hinside⟩ := deviceBytes_inside hread hascending hsep hmark hx
  obtain ⟨c', hc', hlo', hinside'⟩ := deviceBytes_inside hread hascending hsep hmark hy
  obtain ⟨r, hr, hb, hlt⟩ := hinside b hbx
  obtain ⟨r', hr', hb', hlt'⟩ := hinside' b hby
  have ho : ¬ Apart r r' := not_apart_of_mem ⟨by omega, hlt⟩ ⟨by omega, hlt'⟩
  obtain ⟨hwithin, hacross⟩ := List.pairwise_flatMap.mp hsep.apart
  by_cases heq : c = c'
  · subst heq
    by_cases hrange : r = r'
    · subst hrange
      omega
    · exact ho ((hwithin c hc).forall hr hr' hrange)
  · have hsymm : Std.Symm fun a a' : FsChunk => ∀ r ∈ a.ranges, ∀ r' ∈ a'.ranges, Apart r r' :=
      ⟨fun a a' h r hr r' hr' => (h r' hr' r hr).symm⟩
    exact ho (hacross.forall hc hc' heq r hr r' hr')

end

/-! ## The whole restore -/

variable {items : List LeafChunk}

theorem read_of_mem (items : List LeafChunk) : ∀ c ∈ items.map LeafChunk.fsChunk, c.Read := by
  intro c hc
  obtain ⟨item, -, rfl⟩ := List.mem_map.mp hc
  exact item.read

theorem nodup_logical (hread : ∀ c ∈ chunks, c.Read)
    (hapart : chunks.Pairwise fun a b => Apart a.logicalRange b.logicalRange) :
    (chunks.map FsChunk.logical).Nodup := by
  rw [List.Nodup, List.pairwise_map]
  refine hapart.imp_of_mem ?_
  intro a b ha hb hab heq
  have hposA := (hread a ha).bytes_pos
  have hposB := (hread b hb).bytes_pos
  simp only [Apart, logicalRange] at hab
  omega

theorem nextLastPhysicalOffset_lt (h : last < 2 ^ 64) (chunk : FsChunk) :
    nextLastPhysicalOffset last chunk < 2 ^ 64 := by
  have hw : ∀ n, wrap64 n < 2 ^ 64 := fun n => Nat.mod_lt n (by decide)
  rw [nextLastPhysicalOffset]
  split_ifs
  · exact hw _
  · exact hw _
  · exact h

theorem markAfter_lt (h : last < 2 ^ 64) (moved : List FsChunk) :
    markAfter last moved < 2 ^ 64 := by
  induction moved generalizing last with
  | nil => exact h
  | cons chunk moved ih => exact ih (Nat.mod_lt _ (by decide))

theorem foldl_nextLast_lt (h : last < 2 ^ 64) (chunks : List FsChunk) :
    chunks.foldl nextLastPhysicalOffset last < 2 ^ 64 := by
  induction chunks generalizing last with
  | nil => exact h
  | cons chunk chunks ih => exact ih (nextLastPhysicalOffset_lt h chunk)

theorem le_totalBytes (h : chunk ∈ moved) : chunk.bytes ≤ totalBytes moved :=
  List.single_le_sum (fun _ _ => Nat.zero_le _) _ (List.mem_map_of_mem h)

/-- What fits does not wrap around: a chunk that stays ends below the mark, and one that is moved
starts before the end of one that stays. -/
theorem Placeable.noWrap {all : List FsChunk} (h : Placeable kept moved all mark)
    (hp : (kept ++ moved).Perm all) (hread : ∀ c ∈ all, c.Read)
    (ho : ∀ c ∈ moved, (∀ a ∈ kept, a.physical + a.bytes < 2 ^ 64) →
      ∃ a ∈ kept, c.physical < a.physical + a.bytes) :
    ∀ c ∈ all, c.NoWrap := by
  have hr := h.room
  have hk : ∀ a ∈ kept, a.physical + a.bytes ≤ mark := fun a ha =>
    h.ends_le _ (List.mem_append_left _ (List.mem_map_of_mem ha))
  intro c hc
  constructor
  · rcases List.mem_append.mp (hp.mem_iff.mpr hc) with hc | hc
    · have := hk c hc
      omega
    · obtain ⟨a, ha, hlt⟩ := ho c hc fun a ha => (hk a ha).trans_lt (by omega)
      have hend := hk a ha
      have hbytes := le_totalBytes hc
      omega
  · by_cases hdup : c.physicalDup = 0
    · have hlog := (hread c hc).logical_lt
      omega
    · have hmem : (c.physicalDup, c.physicalDup + c.bytes) ∈ fixedRanges kept all := by
        refine List.mem_append_right _ (List.mem_flatMap.mpr ⟨c, hc, ?_⟩)
        rw [dupRanges, if_pos hdup]
        exact by simp
      have hend := h.ends_le _ hmem
      omega

theorem Placeable.perm {kept' moved' all all' : List FsChunk} (h : Placeable kept moved all mark)
    (hk : kept.Perm kept') (hmoved : moved.Perm moved') (hall : all.Perm all') :
    Placeable kept' moved' all' mark := by
  have hfix : (fixedRanges kept all).Perm (fixedRanges kept' all') :=
    (hk.map range).append (hall.flatMap_right dupRanges)
  have htotal : totalBytes moved = totalBytes moved' := (hmoved.map FsChunk.bytes).sum_eq
  exact ⟨hfix.pairwise h.apart Apart.symm, fun r hr => h.ends_le r (hfix.mem_iff.mpr hr),
    htotal ▸ h.room⟩

section

theorem mem_keptChunks {a : FsChunk} (ha : a ∈ kept) : a ∈ keptChunks kept chunks := by
  induction chunks generalizing kept with
  | nil => exact ha
  | cons chunk chunks ih =>
    rw [keptChunks]
    split
    · exact ih (by simp [ha])
    · exact ih ha

theorem keptChunks_perm (kept chunks : List FsChunk) :
    (keptChunks kept chunks ++ movedChunks kept chunks).Perm (kept ++ chunks) := by
  induction chunks generalizing kept with
  | nil => exact .refl _
  | cons chunk chunks ih =>
    rw [keptChunks, movedChunks]
    split
    · have hp := ih (kept ++ [chunk])
      rw [List.append_assoc] at hp
      exact hp
    · exact List.perm_middle.trans (((ih kept).cons chunk).trans List.perm_middle.symm)

theorem overlaps_of_mem_movedChunks {c : FsChunk} (hc : c ∈ movedChunks kept chunks) :
    ∃ a ∈ keptChunks kept chunks, ¬ Apart a.range c.range := by
  induction chunks generalizing kept with
  | nil => exact absurd hc List.not_mem_nil
  | cons chunk chunks ih =>
    rw [movedChunks] at hc
    rw [keptChunks]
    split_ifs at hc ⊢ with hapart
    · exact ih hc
    · rcases List.mem_cons.mp hc with rfl | hc
      · simp only [not_forall] at hapart
        obtain ⟨a, ha, ho⟩ := hapart
        exact ⟨a, mem_keptChunks ha, ho⟩
      · exact ih hc

end

/-- The chunks of an image that are restored one beside the other. -/
def Restorable (chunks : List FsChunk) : Prop :=
  Placeable (keptChunks [] chunks) (movedChunks [] chunks) chunks (highWater 0 chunks)

theorem fits_of_placed (hread : ∀ c ∈ chunks, c.Read)
    (hapart : chunks.Pairwise fun a b => Apart a.logicalRange b.logicalRange)
    (hsofar : ReadSoFar st₁ chunks) (hremap : remapOverlappingChunks st₁ = .ok st)
    (hplace : Placed st) :
    Placeable (inorder st₁.physicalTree) st₁.overlappingChunks chunks st₁.lastPhysicalOffset := by
  have hsplit := hsofar.perm_physicalTree
  have hnd : ((inorder st₁.physicalTree ++ st₁.overlappingChunks).map FsChunk.logical).Nodup :=
    ((hsplit.map FsChunk.logical).nodup_iff).mpr (nodup_logical hread hapart)
  obtain ⟨hp, hl, -⟩ := remapLoop_sound (hsofar.perm_chunkTree.trans hsplit.symm) hnd hremap
  have hlt : st₁.lastPhysicalOffset < 2 ^ 64 := by
    rw [hsofar.last_eq]
    exact foldl_nextLast_lt (by decide) chunks
  have hsep := hplace.separate.perm hp
  rw [hl, separate_iff (fun c hc => hread c (hsplit.mem_iff.mp hc)) (markAfter_lt hlt _)] at hsep
  exact hsep.perm (.refl _) (.refl _) hsplit

theorem read_iff_logicalRange (c : FsChunk) :
    c.Read ↔ c.logicalRange.1 < c.logicalRange.2 ∧ c.logicalRange.2 < 2 ^ 64 := by
  simp only [logicalRange]
  exact ⟨fun h => ⟨by have := h.bytes_pos; omega, h.logical_lt⟩, fun h => ⟨by omega, h.2⟩⟩

theorem placed_of_fits (hread : ∀ c ∈ chunks, c.Read)
    (hapart : chunks.Pairwise fun a b => Apart a.logicalRange b.logicalRange)
    (hsofar : ReadSoFar st₁ chunks) (hlog : Ascending logicalRange (inorder st₁.chunkTree))
    (hf : Placeable (inorder st₁.physicalTree) st₁.overlappingChunks chunks
      st₁.lastPhysicalOffset) :
    ∃ st, remapOverlappingChunks st₁ = .ok st ∧ Placed st := by
  have hsplit := hsofar.perm_physicalTree
  have hmem : ∀ c ∈ inorder st₁.physicalTree ++ st₁.overlappingChunks, c.Read :=
    fun c hc => hread c (hsplit.mem_iff.mp hc)
  obtain ⟨st, hremap⟩ : ∃ st, remapLoop st₁.overlappingChunks st₁ = .ok st := by
    apply remapLoop_returns hsofar.valid_physicalTree
    · intro c hc
      exact ⟨(hmem c (by simp [hc])).bytes_pos,
        hf.ends_le _ (List.mem_append_left _ (List.mem_map_of_mem hc))⟩
    · exact fun c hc => (hmem c (by simp [hc])).bytes_pos
    · exact hf.room
  have hnd : ((inorder st₁.physicalTree ++ st₁.overlappingChunks).map FsChunk.logical).Nodup :=
    ((hsplit.map FsChunk.logical).nodup_iff).mpr (nodup_logical hread hapart)
  obtain ⟨hp, hl, hranges⟩ := remapLoop_sound (hsofar.perm_chunkTree.trans hsplit.symm) hnd hremap
  have hlt : st₁.lastPhysicalOffset < 2 ^ 64 := (Nat.le_add_right _ _).trans_lt hf.room
  have hmark := markAfter_lt hlt st₁.overlappingChunks
  have hsep : Separate (inorder st.chunkTree) st.lastPhysicalOffset := by
    rw [hl]
    exact ((separate_iff hmem hmark).mpr (hf.perm (.refl _) (.refl _) hsplit.symm)).perm hp.symm
  -- the remapping leaves the logical ranges as they are
  have hr' : ∀ c ∈ inorder st.chunkTree, c.Read := by
    intro c hc
    have hrange := List.mem_map_of_mem (f := logicalRange) hc
    rw [hranges] at hrange
    obtain ⟨c₁, hc₁, heq⟩ := List.mem_map.mp hrange
    rw [read_iff_logicalRange, ← heq, ← read_iff_logicalRange]
    exact hread c₁ (hsofar.perm_chunkTree.mem_iff.mp hc₁)
  have hlog' : Ascending logicalRange (inorder st.chunkTree) := by
    rw [Ascending, ← List.pairwise_map (R := fun a b : ℕ × ℕ => a.2 ≤ b.1), hranges,
      List.pairwise_map]
    exact hlog
  exact ⟨st, hremap, Placed.of_separate hr' hlog' hsep (hl ▸ hmark)⟩

/-- Whatever the image holds, the chunks are placed beside each other exactly if they are
restorable. -/
theorem buildChunks_placed_iff (items : List LeafChunk)
    (hapart : items.Pairwise fun a b => Apart a.fsChunk.logicalRange b.fsChunk.logicalRange) :
    (∃ st, buildChunks items = .ok st ∧ Placed st) ↔ Restorable (items.map LeafChunk.fsChunk) := by
  obtain ⟨chunks, hchunks⟩ : ∃ chunks, chunks = items.map LeafChunk.fsChunk := ⟨_, rfl⟩
  have hread : ∀ c ∈ chunks, c.Read := hchunks ▸ read_of_mem items
  have hapart' : chunks.Pairwise fun a b => Apart a.logicalRange b.logicalRange := by
    rw [hchunks, List.pairwise_map]
    exact hapart
  -- what reading does when nothing wraps around
  have hexactly : (∀ c ∈ chunks, c.NoWrap) → ∃ st₁, readChunkItems {} items = .ok st₁ ∧
      ReadExactly st₁ (keptChunks [] chunks) (movedChunks [] chunks) := by
    intro hw
    have hrun := readExactly_nil.readChunkItems readSoFar_nil (by simp)
      (fun item hi => hw _ (hchunks ▸ List.mem_map_of_mem hi)) (hchunks ▸ hapart')
    rw [← hchunks] at hrun
    exact hrun
  rw [← hchunks]
  constructor
  · rintro ⟨st, hbuild, hplace⟩
    obtain ⟨st₁, hitems, hremap⟩ := bind_eq_ok.mp hbuild
    have hsofar := readSoFar_nil.readChunkItems hitems
    rw [List.nil_append, ← hchunks] at hsofar
    have hf := fits_of_placed hread hapart' hsofar hremap hplace
    have hw := hf.noWrap hsofar.perm_physicalTree hread fun c hc he => by
      obtain ⟨a, ha, hcmp⟩ := hsofar.overlaps c hc
      have hpos := (hread a (hsofar.perm_physicalTree.mem_iff.mp (by simp [ha]))).bytes_pos
      exact ⟨a, ha, lt_of_physicalCmp_eq_zero (he a ha) hpos hcmp⟩
    obtain ⟨st₁', hitems', hex⟩ := hexactly hw
    rw [hitems, Except.ok.injEq] at hitems'
    subst hitems'
    rw [hsofar.last_eq, foldl_highWater 0 hw, hex.overlapping_eq] at hf
    exact hf.perm hex.perm_kept (List.reverse_perm _) (.refl _)
  · intro hf
    have hp := keptChunks_perm [] chunks
    have hw := hf.noWrap hp hread fun c hc _ => by
      obtain ⟨a, ha, ho⟩ := overlaps_of_mem_movedChunks hc
      simp only [Apart, range] at ho
      exact ⟨a, ha, by omega⟩
    obtain ⟨st₁, hitems, hex⟩ := hexactly hw
    have hsofar := readSoFar_nil.readChunkItems hitems
    rw [List.nil_append, ← hchunks] at hsofar
    have hf' : Placeable (inorder st₁.physicalTree) st₁.overlappingChunks chunks
        st₁.lastPhysicalOffset := by
      rw [hsofar.last_eq, foldl_highWater 0 hw]
      exact hf.perm hex.perm_kept.symm (hex.overlapping_eq ▸ (List.reverse_perm _).symm) (.refl _)
    obtain ⟨st, hremap, hplace⟩ := placed_of_fits hread hapart' hsofar hex.ascending_logical hf'
    exact ⟨st, bind_eq_ok.mpr ⟨st₁, hitems, hremap⟩, hplace⟩

/-! ## Chunks of two devices -/

def singleChunk (logical length physical : ℕ)
    (h : 0 < length ∧ logical + length < 2 ^ 64 ∧ physical < 2 ^ 64) : LeafChunk :=
  ⟨logical, length, BTRFS_BLOCK_GROUP_SYSTEM, physical, 0, h.1, h.2.1, h.2.2, by decide⟩

def lowItems : List LeafChunk :=
  [singleChunk 1048576 4194304 4194304 (by decide),
    singleChunk 8388608 4194304 16777216 (by decide),
    singleChunk 16777216 4194304 16777216 (by decide)]

def highItems : List LeafChunk :=
  [singleChunk 1048576 8388608 1048576 (by decide),
    singleChunk 16777216 1048576 2097152 (by decide)]

/-- The third chunk is moved behind the second one. -/
theorem buildChunks_lowItems : ∃ st, buildChunks lowItems = .ok st ∧ Placed st := by
  have hf : Restorable (lowItems.map LeafChunk.fsChunk) :=
    ⟨by decide +kernel, by decide +kernel, by decide +kernel⟩
  exact (buildChunks_placed_iff lowItems (by decide +kernel)).mpr hf

/-- The first chunk sets the mark to its length, 8388608, below its end. The second one is moved
there, into the first chunk: `tree_insert` does not return. -/
theorem buildChunks_highItems :
    (highItems.Pairwise fun a b => Apart a.fsChunk.logicalRange b.fsChunk.logicalRange) ∧
    (readChunkItems {} highItems).map RestoreChunks.lastPhysicalOffset = .ok 8388608 ∧
    highItems.map (fun item => item.fsChunk.range) = [(1048576, 9437184), (2097152, 3145728)] ∧
    (buildChunks highItems).map RestoreChunks.lastPhysicalOffset = .error .bug ∧
    ¬ ∃ st, buildChunks highItems = .ok st ∧ Placed st := by
  have hbug : (buildChunks highItems).map RestoreChunks.lastPhysicalOffset = .error .bug := by
    decide +kernel
  refine ⟨by decide +kernel, by decide +kernel, by decide +kernel, hbug, ?_⟩
  rintro ⟨st, hbuild, -⟩
  rw [hbuild] at hbug
  cases hbug

end Btrfs.Image
