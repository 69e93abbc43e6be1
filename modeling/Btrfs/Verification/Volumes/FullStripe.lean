import Btrfs.Verification.Volumes.MapInjective
import Btrfs.Verification.Volumes.RowWrite

/-! # The two paths through a chunk with parity

A write asks for all stripes of a full stripe, sorted by their logical addresses; a read asks for
one stripe. -/

namespace Btrfs.Volumes

open ExtentCache Raid56 RbTree

/-! ## All stripes of a row -/

def rowPlan (map : MapLookup) (row : ℕ) : StripePlan := ⟨map.numStripes, 0, row, 0⟩

/-- The stripes of a row, data first and then parity. -/
def rowTargets (map : MapLookup) (row : ℕ) : List BioStripe :=
  (List.range map.numStripes).map fun k => (rowPlan map row).target map (rotated map row k)

section

variable {map : MapLookup} {profile : Profile} (h : Accepted map profile)
  (hparity : profile.parity = true)

include h hparity

theorem Accepted.raidMap_entries (row : ℕ) :
    (List.range map.numStripes).map (rowEntry map profile row) =
      ((List.range (nrDataStripes map)).map fun k =>
        map.ce.start + (row * nrDataStripes map + k) * map.stripeLen) ++
      BTRFS_RAID5_P_STRIPE ::
        if map.has BTRFS_BLOCK_GROUP_RAID6 = true then [BTRFS_RAID6_Q_STRIPE] else [] := by
  have hd : ∀ n, n ≤ profile.columns map.numStripes →
      (List.range n).map (rowEntry map profile row) = (List.range n).map fun k =>
        map.ce.start + (row * profile.columns map.numStripes + k) * map.stripeLen := by
    intro n hn
    apply List.map_congr_left
    intro k hk
    have hlt := List.mem_range.mp hk
    rw [rowEntry, if_pos (by omega)]
  have hp : rowEntry map profile row (profile.columns map.numStripes) = BTRFS_RAID5_P_STRIPE := by
    simp [rowEntry]
  have hq : rowEntry map profile row (profile.columns map.numStripes + 1) =
      BTRFS_RAID6_Q_STRIPE := by
    simp [rowEntry]
  have hcount := h.parity_count hparity
  rw [h.nrDataStripes_eq hparity, h.has_raid6]
  by_cases hsix : profile = .raid6
  · rw [if_pos hsix] at hcount
    have hf : (profile == Profile.raid6) = true := by simp [hsix]
    rw [hf]
    conv_lhs => rw [hcount]
    rw [List.range_succ, List.range_succ, List.map_append, List.map_append, hd _ le_rfl]
    simp [hp, hq]
  · rw [if_neg hsix] at hcount
    have hf : (profile == Profile.raid6) = false := by simp [hsix]
    rw [hf]
    conv_lhs => rw [hcount]
    rw [List.range_succ, List.map_append, hd _ le_rfl]
    simp [hp]

theorem Accepted.mapFound_row (rw : Rw) (offset : ℕ) {mirrorNum stripesAllocated : ℕ}
    (hle : mirrorNum ≤ profile.numCopies map.numStripes)
    (hallocated : stripesRequired map rw true ≤ stripesAllocated)
    (hrow : map.ce.start +
      ((layout h).row offset + 1) * profile.columns map.numStripes * map.stripeLen ≤ 2 ^ 64) :
    mapFound map rw offset true mirrorNum true stripesAllocated =
      .ok ⟨0, map.stripeLen, rowTargets map ((layout h).row offset),
        some ((List.range map.numStripes).map (rowEntry map profile ((layout h).row offset)))⟩ := by
  have hst : ¬ offset < offset / map.stripeLen * map.stripeLen :=
    not_lt.mpr (Nat.div_mul_le_self _ _)
  have hf := h.fillMulti_plan rw offset hle true (fun _ => hparity) hallocated
  have hchoose := h.chooseStripes_eq rw mirrorNum true offset
  rw [h.stripePlan_raidMap hparity] at hf hchoose
  generalize (layout h).row offset = row at hrow hf hchoose ⊢
  have hent : ∀ k, k < map.numStripes →
      wrap64 (fillRaidMap map row (rotated map row k)) = rowEntry map profile row k := by
    intro k hk
    rw [h.fillRaidMap_rotated hparity row hk]
    apply wrap64_of_lt
    -- the last entry of the row is the largest
    have hl : rowEntry map profile row (map.numStripes - 1) ≤ BTRFS_RAID6_Q_STRIPE := by
      have hcolumns := h.columns_lt hparity
      unfold rowEntry
      rw [if_neg (by omega)]
      split <;> decide
    have hbelow : rowEntry map profile row k ≤ rowEntry map profile row (map.numStripes - 1) := by
      by_cases heq : k = map.numStripes - 1
      · rw [heq]
      · exact (h.rowEntry_lt hparity hrow (by omega) (by omega)).le
    exact (hbelow.trans hl).trans_lt (by decide)
  have hidx : ¬ map.numStripes ≤ 0 := not_le.mpr h.stripes_pos
  have hsort := h.sortRow hparity hrow (fun i => wrap64 (fillRaidMap map row i))
    ((rowPlan map row).target map) hent
  rw [← List.range_eq_range'] at hf
  simp only [mapFound, divide_of_pos h.stripeLen_pos, hst, bind, Except.bind, hchoose, hidx, hf]
  erw [hsort]
  simp only [List.map_map]
  rfl

/-- The position in its row of the stripe that a read goes to. -/
def readPosition (columns col mirrorNum : ℕ) : ℕ :=
  if 1 < mirrorNum then columns + mirrorNum - 2 else col

theorem Accepted.readPosition_lt {mirrorNum : ℕ} (hle : mirrorNum ≤ profile.numCopies map.numStripes)
    (a : ℕ) :
    readPosition (profile.columns map.numStripes) ((layout h).col a) mirrorNum < map.numStripes := by
  have hcol := (layout h).col_lt a
  have hcolumns : (layout h).columns = profile.columns map.numStripes := rfl
  have hcount := h.parity_count hparity
  unfold readPosition
  split
  · cases profile with
    | raid5 =>
      simp only [Profile.numCopies, reduceCtorEq, if_false] at hle hcount
      omega
    | raid6 =>
      simp only [Profile.numCopies, if_true] at hle hcount
      omega
    | _ => cases hparity
  · omega

theorem Accepted.stripePlan_read_row (mirrorNum a : ℕ) : stripePlan map .read mirrorNum false a =
      ⟨1, rotated map ((layout h).row a)
        (readPosition (profile.columns map.numStripes) ((layout h).col a) mirrorNum),
        (layout h).row a, a % map.stripeLen⟩ := by
  cases mirrorNum with
  | zero =>
    rw [h.stripePlan_read]
    cases profile with
    | raid5 => rfl
    | raid6 => rfl
    | _ => cases hparity
  | succ m =>
    rw [h.stripePlan_mirror (Nat.succ_pos m)]
    cases profile with
    | raid5 => rfl
    | raid6 => rfl
    | _ => cases hparity

end

/-! ## The calls -/

section

variable {tree : MapTree} {map : MapLookup} {profile : Profile} (h : Accepted map profile)
  (hparity : profile.parity = true) {a : ℕ} (hfound : Found tree map a)

include h hparity hfound

theorem Accepted.mapBlock_row {mirrorNum : ℕ} (hle : mirrorNum ≤ profile.numCopies map.numStripes)
    (hrow : map.ce.start +
      ((layout h).row a + 1) * profile.columns map.numStripes * map.stripeLen ≤ 2 ^ 64) :
    btrfsMapBlock' 2 tree .write (map.ce.start + a) true mirrorNum true =
      .ok ⟨0, map.stripeLen, rowTargets map ((layout h).row a),
        some ((List.range map.numStripes).map (rowEntry map profile ((layout h).row a)))⟩ := by
  obtain ⟨-, ce, hsearch, rfl⟩ := hfound
  have hwanted : wantsRaidMap ce.entry .write true mirrorNum true = true := by
    rw [wantsRaidMap, h.has_parity, hparity]
    rfl
  obtain ⟨allocated, hen, hc⟩ := @mapBlockRounds_retry mirrorNum 8 _ tree true true ce .write
    hsearch (Nat.le_add_right _ a)
  rw [hwanted] at hen hc
  rw [Nat.add_sub_cancel_left, h.mapFound_row hparity .write a hle (hen rfl) hrow] at hc
  exact hc

theorem Accepted.mapBlock_read_row {mirrorNum : ℕ}
    (hle : mirrorNum ≤ profile.numCopies map.numStripes) {raidMapRet : Bool}
    (hplain : mirrorNum ≤ 1 ∨ raidMapRet = false) :
    btrfsMapBlock' 2 tree .read (map.ce.start + a) true mirrorNum raidMapRet =
      .ok ⟨0, mapLength map a, [StripePlan.target ⟨1, 0, (layout h).row a, a % map.stripeLen⟩ map
          (rotated map ((layout h).row a)
            (readPosition (profile.columns map.numStripes) ((layout h).col a) mirrorNum))], none⟩ := by
  obtain ⟨-, ce, hsearch, rfl⟩ := hfound
  have hwanted : wantsRaidMap ce.entry .read true mirrorNum raidMapRet = false := by
    rw [wantsRaidMap]
    rcases hplain with hone | hplain
    · have hnot : decide (1 < mirrorNum) = false := decide_eq_false (by omega)
      rw [hnot]
      simp
    · rw [hplain]
      simp
  have hround := @mapBlockRounds_found mirrorNum 1 _ tree true raidMapRet ce .read hsearch
    (Nat.le_add_right _ a) 1 (by rw [hwanted]; exact fun _ => le_rfl)
  have hone : stripesRequired ce.entry .read false ≤ 1 := le_rfl
  rw [hwanted, Nat.add_sub_cancel_left, h.mapFound_direct .read a hle hone,
    h.stripePlan_read_row hparity] at hround
  rw [btrfsMapBlock', if_pos ⟨rfl, rfl⟩, hround]
  rfl

end

/-! ## Agreement -/

/-- A read goes to the stripe that the full stripe lists for an address, at an offset in it. -/
def ReadsEntry (tree : MapTree) (logical mirrorNum : ℕ) (raidMapRet : Bool) (stripes : List BioStripe)
    (raidMap : List ℕ) (entry offset : ℕ) : Prop :=
  ∃ (i : ℕ) (s : BioStripe) (length : ℕ), raidMap[i]? = some entry ∧ stripes[i]? = some s ∧
    btrfsMapBlock' 2 tree .read logical true mirrorNum raidMapRet =
      .ok ⟨0, length, [⟨s.dev, wrap64 (s.physical + offset)⟩], none⟩

/-- What a write of an address is given, and that reads of the address agree with it. -/
structure PathsAgree (tree : MapTree) (map : MapLookup) (a : ℕ) (stripes : List BioStripe)
    (raidMap : List ℕ) : Prop where
  write : ∀ mirrorNum ≤ copiesOf map,
    btrfsMapBlock' 2 tree .write (map.ce.start + a) true mirrorNum true =
      .ok ⟨0, map.stripeLen, stripes, some raidMap⟩
  /-- Data in increasing order, then P and Q. -/
  entries : raidMap = ((List.range (nrDataStripes map)).map fun k =>
      map.ce.start + (a / (nrDataStripes map * map.stripeLen) * nrDataStripes map + k) *
        map.stripeLen) ++
    BTRFS_RAID5_P_STRIPE ::
      if map.has BTRFS_BLOCK_GROUP_RAID6 = true then [BTRFS_RAID6_Q_STRIPE] else []
  increasing : raidMap.Pairwise (· < ·)
  /-- Each stripe of the chunk once, at the offset of the full stripe. -/
  once : stripes.Perm (map.stripes.map fun s =>
    ⟨s.dev, wrap64 (s.physical + a / (nrDataStripes map * map.stripeLen) * map.stripeLen)⟩)
  data : ∀ mirrorNum ≤ 1, ∀ raidMapRet, ReadsEntry tree (map.ce.start + a) mirrorNum raidMapRet stripes
    raidMap (map.ce.start + (a - a % map.stripeLen)) (a % map.stripeLen)
  p : ReadsEntry tree (map.ce.start + a) 2 false stripes raidMap BTRFS_RAID5_P_STRIPE
    (a % map.stripeLen)
  q : map.has BTRFS_BLOCK_GROUP_RAID6 = true → ReadsEntry tree (map.ce.start + a) 3 false stripes
    raidMap BTRFS_RAID6_Q_STRIPE (a % map.stripeLen)

section

variable {map : MapLookup} {profile : Profile} (h : Accepted map profile)

theorem wrap64_add_add (x y z : ℕ) : wrap64 (wrap64 (x + y) + z) = wrap64 (x + z + y) := by
  unfold wrap64
  omega

include h

theorem Accepted.rowTargets_perm (row : ℕ) : (rowTargets map row).Perm (map.stripes.map fun s =>
      ⟨s.dev, wrap64 (s.physical + row * map.stripeLen)⟩) := by
  have hall : (List.range map.numStripes).map ((rowPlan map row).target map) =
      map.stripes.map fun s => ⟨s.dev, wrap64 (s.physical + row * map.stripeLen)⟩ := by
    apply List.ext_getElem
    · simp [MapLookup.numStripes]
    · intro i hi hi'
      have hlt : i < map.stripes.length := by simpa using hi'
      have hstripe : map.stripe i = map.stripes[i] := by
        simp [MapLookup.stripe, List.getElem?_eq_getElem hlt]
      simp [StripePlan.target, rowPlan, hstripe]
  have hp := (h.rotated_perm row).map ((rowPlan map row).target map)
  rw [hall, List.map_map] at hp
  exact hp

variable {tree : MapTree} (hparity : profile.parity = true) {a : ℕ} (hfound : Found tree map a)

include hparity hfound

theorem Accepted.readsEntry {mirrorNum : ℕ} (hle : mirrorNum ≤ profile.numCopies map.numStripes)
    {raidMapRet : Bool} (hplain : mirrorNum ≤ 1 ∨ raidMapRet = false) :
    ReadsEntry tree (map.ce.start + a) mirrorNum raidMapRet (rowTargets map ((layout h).row a))
      ((List.range map.numStripes).map (rowEntry map profile ((layout h).row a)))
      (rowEntry map profile ((layout h).row a)
        (readPosition (profile.columns map.numStripes) ((layout h).col a) mirrorNum))
      (a % map.stripeLen) := by
  have hlt := h.readPosition_lt hparity hle a
  have hr := h.mapBlock_read_row hparity hfound hle hplain
  refine ⟨readPosition (profile.columns map.numStripes) ((layout h).col a) mirrorNum,
    (rowPlan map ((layout h).row a)).target map (rotated map ((layout h).row a)
      (readPosition (profile.columns map.numStripes) ((layout h).col a) mirrorNum)),
    mapLength map a, ?_, ?_, ?_⟩
  · simp [List.getElem?_range hlt]
  · simp [rowTargets, List.getElem?_range hlt]
  · rw [hr]
    simp [StripePlan.target, rowPlan, wrap64_add_add]

theorem Accepted.pathsAgree (hrow : map.ce.start +
      ((layout h).row a + 1) * profile.columns map.numStripes * map.stripeLen ≤ 2 ^ 64) :
    PathsAgree tree map a (rowTargets map ((layout h).row a))
      ((List.range map.numStripes).map (rowEntry map profile ((layout h).row a))) := by
  have hd := h.nrDataStripes_eq hparity
  have hidx : a / (nrDataStripes map * map.stripeLen) = (layout h).row a := by
    rw [hd, Nat.mul_comm, ← Nat.div_div_eq_div_mul]
    rfl
  have hcolumns : (layout h).columns = profile.columns map.numStripes := rfl
  constructor
  · intro mirrorNum hle
    rw [h.copiesOf_eq] at hle
    exact h.mapBlock_row hparity hfound hle hrow
  · rw [hidx]
    exact h.raidMap_entries hparity _
  · apply List.pairwise_map.mpr
    exact List.pairwise_lt_range.imp_of_mem fun _ hj hij =>
      h.rowEntry_lt hparity hrow hij (List.mem_range.mp hj)
  · rw [hidx]
    exact h.rowTargets_perm _
  · intro mirrorNum hone raidMapRet
    have hle : mirrorNum ≤ profile.numCopies map.numStripes := by
      cases profile with
      | raid5 => exact hone.trans (Nat.le_succ 1)
      | raid6 => exact hone.trans (Nat.le_add_right 1 2)
      | _ => cases hparity
    have hent := @Accepted.readsEntry _ _ h _ hparity _ hfound _ hle raidMapRet (Or.inl hone)
    have haddress : rowEntry map profile ((layout h).row a)
        (readPosition (profile.columns map.numStripes) ((layout h).col a) mirrorNum) =
          map.ce.start + (a - a % map.stripeLen) := by
      have hcol := (layout h).col_lt a
      have hsplit := (layout h).address_eq a
      have hu : (layout h).unit = map.stripeLen := rfl
      rw [hcolumns] at hcol
      rw [hcolumns, hu] at hsplit
      rw [readPosition, if_neg (by omega), rowEntry, if_pos hcol]
      omega
    rw [haddress] at hent
    exact hent
  · have hle : 2 ≤ profile.numCopies map.numStripes := by
      cases profile with
      | raid5 => exact le_rfl
      | raid6 => exact Nat.le_succ 2
      | _ => cases hparity
    have hent := @Accepted.readsEntry _ _ h _ hparity _ hfound _ hle false (Or.inr rfl)
    simpa [readPosition, rowEntry] using hent
  · intro hsix
    rw [h.has_raid6, beq_iff_eq] at hsix
    have hle : 3 ≤ profile.numCopies map.numStripes := by
      rw [hsix]
      exact le_rfl
    have hent := @Accepted.readsEntry _ _ h _ hparity _ hfound _ hle false (Or.inr rfl)
    have hpos : readPosition (profile.columns map.numStripes) ((layout h).col a) 3 =
        profile.columns map.numStripes + 1 := rfl
    have hq : rowEntry map profile ((layout h).row a) (profile.columns map.numStripes + 1) =
        BTRFS_RAID6_Q_STRIPE := by
      simp [rowEntry]
    rw [hpos, hq] at hent
    exact hent

end

/-- In a chunk with parity of whole full stripes a write is given the stripes of the full stripe
in the order of their logical addresses, and reads of an address and of its parity go to the
stripes listed there. Only chunks that end past the last address can keep one from being found. -/
theorem btrfsMapBlock'_pathsAgree {tree : MapTree} (h : ReadChunks tree) {chunk : Chunk}
    {findDevice : ℕ → ℕ} {start : ℕ} (hmem : mapOfChunk findDevice start chunk ∈ inorder tree)
    (hparity : (mapOfChunk findDevice start chunk).has
      (BTRFS_BLOCK_GROUP_RAID5 ||| BTRFS_BLOCK_GROUP_RAID6) = true)
    (hrows : nrDataStripes (mapOfChunk findDevice start chunk) * chunk.stripeLen ∣ chunk.length) :
    ((∀ map ∈ inorder tree, map.ce.start + map.ce.size < 2 ^ 64) →
      ∀ a < chunk.length, Found tree (mapOfChunk findDevice start chunk) a) ∧
    ∀ a < chunk.length, Found tree (mapOfChunk findDevice start chunk) a →
      ∃ stripes raidMap, PathsAgree tree (mapOfChunk findDevice start chunk) a stripes raidMap := by
  have ht := h.acceptedTree
  obtain ⟨profile, hmap⟩ := ht.accepted _ hmem
  have hs : chunk.length = (mapOfChunk findDevice start chunk).ce.size := rfl
  have hlen : chunk.stripeLen = (mapOfChunk findDevice start chunk).stripeLen := rfl
  rw [hs, hlen] at hrows
  rw [hs]
  rw [hmap.has_parity] at hparity
  rw [hmap.nrDataStripes_eq hparity] at hrows
  generalize mapOfChunk findDevice start chunk = map at *
  constructor
  · intro hbound a ha
    have := hbound map hmem
    exact ⟨by omega, ht.search_found hbound hmem (Nat.le_add_right _ a) (by omega)⟩
  · intro a ha hfound
    obtain ⟨hlog, ce, hsearch, hent⟩ := hfound
    obtain ⟨-, hbound⟩ := (ht.search hlog hsearch).2 (hent ▸ Nat.le_add_right _ a)
    rw [hent] at hbound
    -- the full stripe of the address lies in the chunk
    have hrow : ((layout hmap).row a + 1) * profile.columns map.numStripes * map.stripeLen ≤
        map.ce.size := by
      obtain ⟨rows, hrows⟩ := hrows
      have hlt : (layout hmap).row a < rows := by
        rw [RowLayout.row, Nat.div_div_eq_div_mul]
        apply Nat.div_lt_of_lt_mul
        have hu : (layout hmap).unit * (layout hmap).columns =
            profile.columns map.numStripes * map.stripeLen := Nat.mul_comm _ _
        rw [hu, ← hrows]
        exact ha
      rw [hrows, Nat.mul_assoc, Nat.mul_comm]
      exact Nat.mul_le_mul_left _ hlt
    exact ⟨_, _, hmap.pathsAgree hparity ⟨hlog, ce, hsearch, hent⟩ (by omega)⟩

/-- A chunk of two full stripes with P and Q. -/
theorem btrfsMapBlock'_pathsAgree_raid6 :
    ∃ tree map, ReadChunks tree ∧ map ∈ inorder tree ∧ map.ce.size = 262144 ∧
      ∃ stripes raidMap, PathsAgree tree map 200000 stripes raidMap := by
  let chunk : Chunk := ⟨262144, 65536, BTRFS_BLOCK_GROUP_DATA ||| BTRFS_BLOCK_GROUP_RAID6, 4096, 1,
    [⟨1, 0⟩, ⟨2, 0⟩, ⟨3, 0⟩, ⟨4, 0⟩]⟩
  have hr : readOneChunk 4096 id .nil 1048576 chunk 0 176 =
      .ok (.ok (.node .black .nil (mapOfChunk id 1048576 chunk) .nil)) := by
    decide +kernel
  have ht := ReadChunks.read .nil (by decide) (by decide) hr
  have hmem : mapOfChunk id 1048576 chunk ∈
      inorder (.node .black .nil (mapOfChunk id 1048576 chunk) .nil) := by simp
  obtain ⟨hfound, hagree⟩ := btrfsMapBlock'_pathsAgree ht hmem (by decide +kernel)
    (by decide +kernel)
  have hbound : ∀ map ∈ inorder (.node .black .nil (mapOfChunk id 1048576 chunk) .nil),
      map.ce.start + map.ce.size < 2 ^ 64 := by
    intro map hmap
    obtain rfl : map = mapOfChunk id 1048576 chunk := by simpa using hmap
    decide
  exact ⟨_, _, ht, hmem, rfl, hagree 200000 (by decide) (hfound hbound 200000 (by decide))⟩

/-- A chunk with parity that ends at the last address is not found, neither for a write nor for a
read. -/
theorem btrfsMapBlock'_lastChunk :
    ∃ tree map, ReadChunks tree ∧ inorder tree = [map] ∧ map.ce.size = 131072 ∧
      map.ce.start + map.ce.size = 2 ^ 64 ∧
      (∀ raidMapRet, btrfsMapBlock' 2 tree .write map.ce.start true 0 raidMapRet =
        .ok ⟨-ENOENT, u64Max, [], none⟩) ∧
      ∀ raidMapRet, ∀ mirrorNum ≤ 2, btrfsMapBlock' 2 tree .read map.ce.start true mirrorNum
        raidMapRet = .ok ⟨-ENOENT, u64Max, [], none⟩ := by
  let chunk : Chunk := ⟨131072, 65536, BTRFS_BLOCK_GROUP_DATA ||| BTRFS_BLOCK_GROUP_RAID5, 4096, 1,
    [⟨1, 0⟩, ⟨2, 0⟩, ⟨3, 0⟩]⟩
  have hread : readOneChunk 4096 id .nil (2 ^ 64 - 131072) chunk 0 144 =
      .ok (.ok (.node .black .nil (mapOfChunk id (2 ^ 64 - 131072) chunk) .nil)) := by
    decide +kernel
  exact ⟨_, _, ReadChunks.read .nil (by decide) (by decide) hread, rfl, rfl, by decide +kernel,
    by decide +kernel, by decide +kernel⟩

end Btrfs.Volumes
