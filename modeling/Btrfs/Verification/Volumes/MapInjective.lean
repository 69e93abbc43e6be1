import Btrfs.Verification.Volumes.MapTotal

/-! # Reads of different bytes go to different places -/

namespace Btrfs.Volumes

open ExtentCache Raid56 RbTree

/-- The stripe index and the physical offset that `__btrfs_map_block` reads from. -/
def readLocation (map : MapLookup) (a mirrorNum : ℕ) : ℕ × ℕ :=
  let plan := stripePlan map .read mirrorNum false a
  (plan.stripeIndex, (plan.target map plan.stripeIndex).physical)

/-! ## The size of a stripe -/

section

variable {chunk : Chunk} {findDevice : ℕ → ℕ} {start : ℕ} {profile : Profile}
  (h : Accepted (mapOfChunk findDevice start chunk) profile)

theorem numStripes_mapOfChunk (findDevice : ℕ → ℕ) (start : ℕ) (chunk : Chunk) :
    (mapOfChunk findDevice start chunk).numStripes = chunk.stripes.length := List.length_map _

include h

theorem Accepted.chunkBytesByType_eq (calcSize : ℕ) :
    chunkBytesByType chunk.type calcSize chunk.stripes.length chunk.subStripes =
      .ok (calcSize * profile.columns chunk.stripes.length) := by
  have hcount := h.count
  have hmirrored : hasFlags chunk.type (BTRFS_BLOCK_GROUP_RAID1 ||| BTRFS_BLOCK_GROUP_DUP) =
    (profile == .raid1 || profile == .dup) := h.has_mirrored
  have hraid10 : hasFlags chunk.type BTRFS_BLOCK_GROUP_RAID10 = (profile == .raid10) := h.has_raid10
  have hraid5 : hasFlags chunk.type BTRFS_BLOCK_GROUP_RAID5 = (profile == .raid5) := h.has_raid5
  have hraid6 : hasFlags chunk.type BTRFS_BLOCK_GROUP_RAID6 = (profile == .raid6) := h.has_raid6
  rw [numStripes_mapOfChunk] at hcount
  simp only [chunkBytesByType, hmirrored, hraid10, hraid5, hraid6]
  cases profile with
  | single =>
    have hone : chunk.stripes.length = 1 := hcount
    simp [Profile.columns, hone]
  | raid10 =>
    have hsub : chunk.subStripes = 2 := hcount.1
    simp [Profile.columns, hsub, divide, bind, Except.bind, pure, Except.pure]
  | _ => simp [Profile.columns]

theorem Accepted.btrfsStripeLength_eq :
    btrfsStripeLength chunk = .ok (chunk.length / profile.columns chunk.stripes.length) := by
  have hcount := h.count
  have hcolumns := h.columns_pos
  have hf : chunk.type &&& BTRFS_BLOCK_GROUP_PROFILE_MASK = profile.flag := h.flag
  rw [numStripes_mapOfChunk] at hcount hcolumns
  simp only [btrfsStripeLength, hf]
  cases profile with
  | raid10 =>
    have hsub : chunk.subStripes = 2 := hcount.1
    have hfac : divide chunk.stripes.length chunk.subStripes = .ok (chunk.stripes.length / 2) := by
      rw [hsub]
      exact divide_of_pos (by decide)
    rw [hfac]
    exact divide_of_pos hcolumns
  | single => exact (congrArg Except.ok (Nat.div_one _)).symm
  | raid1 => exact (congrArg Except.ok (Nat.div_one _)).symm
  | dup => exact (congrArg Except.ok (Nat.div_one _)).symm
  | _ => exact divide_of_pos hcolumns

end

/-! ## Locations -/

theorem add_wrap64_inj {p x y : ℕ} (hx : x < 2 ^ 64) (hy : y < 2 ^ 64)
    (heq : wrap64 (p + x) = wrap64 (p + y)) : x = y :=
  (Nat.ModEq.add_left_cancel' p heq).eq_of_lt_of_lt hx hy

section

variable {map : MapLookup} {profile : Profile} (h : Accepted map profile)

include h

theorem Accepted.readLocation_eq {m : ℕ} (hm : 0 < m) (a : ℕ) : readLocation map a m =
      (profile.mirrorPlace map.numStripes ((layout h).row a) ((layout h).col a) m,
        wrap64 ((map.stripe (profile.mirrorPlace map.numStripes ((layout h).row a)
          ((layout h).col a) m)).physical + (layout h).depth a)) := by
  simp only [readLocation, h.stripePlan_mirror hm, StripePlan.target]
  rw [Nat.add_assoc, Nat.add_comm (a % map.stripeLen)]
  rfl

/-- A mirror that a read can ask for: of a chunk with parity only the data itself. -/
def Mirror (map : MapLookup) (profile : Profile) (m : ℕ) : Prop :=
  1 ≤ m ∧ m ≤ profile.numCopies map.numStripes ∧ (profile.parity = true → m = 1)

theorem Accepted.mirrorPlace_inj {row col col' m m' : ℕ} (hm : Mirror map profile m)
    (hm' : Mirror map profile m') (hcol : col < profile.columns map.numStripes)
    (hcol' : col' < profile.columns map.numStripes)
    (heq : profile.mirrorPlace map.numStripes row col m =
      profile.mirrorPlace map.numStripes row col' m') : col = col' ∧ m = m' := by
  obtain ⟨hlo, hhi, hone⟩ := hm
  obtain ⟨hlo', hhi', hone'⟩ := hm'
  cases profile with
  | raid5 =>
    obtain rfl := hone rfl
    obtain rfl := hone' rfl
    simp only [Profile.columns] at heq hcol hcol'
    exact ⟨eq_of_add_mod_eq (by omega) (by omega) heq, rfl⟩
  | raid6 =>
    obtain rfl := hone rfl
    obtain rfl := hone' rfl
    simp only [Profile.columns] at heq hcol hcol'
    exact ⟨eq_of_add_mod_eq (by omega) (by omega) heq, rfl⟩
  | _ =>
    simp only [Profile.mirrorPlace, Profile.columns, Profile.numCopies] at heq hcol hcol' hhi hhi'
    omega

theorem Accepted.mirrorPlace_ne_parity (hparity : profile.parity = true) {row col k : ℕ}
    (hcol : col < profile.columns map.numStripes) (hk : profile.columns map.numStripes ≤ k)
    (hlt : k < map.numStripes) :
    profile.mirrorPlace map.numStripes row col 1 ≠ (row + k) % map.numStripes := by
  intro heq
  have hplace : profile.mirrorPlace map.numStripes row col 1 = (row + col) % map.numStripes := by
    cases profile with
    | raid5 => rfl
    | raid6 => rfl
    | _ => cases hparity
  rw [hplace] at heq
  have := eq_of_add_mod_eq (by omega) hlt heq
  omega

theorem Accepted.depth_lt_stripe
    (hr : map.stripeLen * profile.columns map.numStripes ∣ map.ce.size) {a : ℕ}
    (ha : a < map.ce.size) :
    (layout h).depth a < map.ce.size / profile.columns map.numStripes := by
  obtain ⟨rows, hr⟩ := hr
  have hlt : a < (layout h).unit * (layout h).columns * rows := hr ▸ ha
  have hdiv : map.ce.size / profile.columns map.numStripes = map.stripeLen * rows := by
    rw [hr, Nat.mul_right_comm, Nat.mul_div_cancel _ h.columns_pos]
  rw [hdiv]
  exact (layout h).depth_lt hlt

theorem Accepted.readLocation_inj (hs : map.ce.size < 2 ^ 64)
    (hr : map.stripeLen * profile.columns map.numStripes ∣ map.ce.size) {a b m n : ℕ}
    (ha : a < map.ce.size) (hb : b < map.ce.size) (hm : Mirror map profile m)
    (hn : Mirror map profile n) (heq : readLocation map a m = readLocation map b n) :
    a = b ∧ m = n := by
  have hbound : ∀ {x}, x < map.ce.size → (layout h).depth x < 2 ^ 64 := fun hx =>
    ((h.depth_lt_stripe hr hx).trans_le (Nat.div_le_self _ _)).trans hs
  rw [h.readLocation_eq hm.1, h.readLocation_eq hn.1] at heq
  obtain ⟨hplace, hphys⟩ := Prod.mk.inj heq
  rw [hplace] at hphys
  have hdepth := add_wrap64_inj (hbound ha) (hbound hb) hphys
  have hrow : (layout h).row a = (layout h).row b := by
    rw [← (layout h).depth_div a, ← (layout h).depth_div b, hdepth]
  rw [hrow] at hplace
  obtain ⟨hcol, hmir⟩ := h.mirrorPlace_inj hm hn ((layout h).col_lt a) ((layout h).col_lt b) hplace
  exact ⟨(layout h).address_inj hcol hdepth, hmir⟩

end

/-! ## The call -/

/-- A mirror that a read of the chunk can ask for; with parity only the data itself. -/
def ReadMirror (map : MapLookup) (m : ℕ) : Prop :=
  1 ≤ m ∧ m ≤ copiesOf map ∧
    (map.has (BTRFS_BLOCK_GROUP_RAID5 ||| BTRFS_BLOCK_GROUP_RAID6) = true → m = 1)

/-- The byte of the chunk has an address, and the chunk is found for it. -/
def Found (tree : MapTree) (map : MapLookup) (a : ℕ) : Prop :=
  map.ce.start + a < 2 ^ 64 ∧ ∃ ce, searchMapping tree (map.ce.start + a) = some ce ∧ ce.entry = map

structure ReadsInto (tree : MapTree) (map : MapLookup) (stripeLength : ℕ) : Prop where
  /-- Only chunks that end past the last address can keep a chunk from being found. -/
  found : (∀ map ∈ inorder tree, map.ce.start + map.ce.size < 2 ^ 64) →
    ∀ a < map.ce.size, Found tree map a
  /-- The call returns the location of the byte. -/
  returned : ∀ a m raidMapRet, a < map.ce.size → Found tree map a → ReadMirror map m →
    btrfsNumCopies tree (map.ce.start + a) = copiesOf map ∧
    ∃ length, btrfsMapBlock' 2 tree .read (map.ce.start + a) true m raidMapRet =
      .ok ⟨0, length, [⟨(map.stripe (readLocation map a m).1).dev, (readLocation map a m).2⟩], none⟩
  /-- It is an offset into the device extent of its stripe. -/
  inside : ∀ a m, a < map.ce.size → ReadMirror map m →
    (readLocation map a m).1 < map.numStripes ∧ ∃ k < stripeLength,
      (readLocation map a m).2 = wrap64 ((map.stripe (readLocation map a m).1).physical + k)
  /-- So it lies in that extent, whose offsets are `u64`. -/
  extent : ∀ a m, a < map.ce.size → ReadMirror map m →
    (map.stripe (readLocation map a m).1).physical + stripeLength ≤ 2 ^ 64 →
    (map.stripe (readLocation map a m).1).physical ≤ (readLocation map a m).2 ∧
      (readLocation map a m).2 < (map.stripe (readLocation map a m).1).physical + stripeLength
  injective : ∀ a b m n, a < map.ce.size → b < map.ce.size → ReadMirror map m → ReadMirror map n →
    readLocation map a m = readLocation map b n → a = b ∧ m = n
  /-- The positions of P and Q in the full stripe of a byte are not its own. -/
  parity : ∀ a, a < map.ce.size →
    map.has (BTRFS_BLOCK_GROUP_RAID5 ||| BTRFS_BLOCK_GROUP_RAID6) = true →
    (readLocation map a 1).1 ≠ (nrDataStripes map +
      (stripePlan map .read 1 false a).stripeNr % map.numStripes) % map.numStripes ∧
    (map.has BTRFS_BLOCK_GROUP_RAID6 = true → (readLocation map a 1).1 ≠ (nrDataStripes map +
      (stripePlan map .read 1 false a).stripeNr % map.numStripes + 1) % map.numStripes)

section

variable {tree : MapTree} (h : AcceptedTree tree) {map : MapLookup} (hmem : map ∈ inorder tree)
  {profile : Profile} (hmap : Accepted map profile)

include hmap

theorem Accepted.mirror {m : ℕ} (hm : ReadMirror map m) : Mirror map profile m := by
  obtain ⟨hlo, hhi, hparity⟩ := hm
  rw [hmap.copiesOf_eq] at hhi
  rw [hmap.has_parity] at hparity
  exact ⟨hlo, hhi, hparity⟩

theorem Accepted.mapBlock_read {a m : ℕ} (raidMapRet : Bool) (hfound : Found tree map a)
    (hm : Mirror map profile m) :
    btrfsMapBlock' 2 tree .read (map.ce.start + a) true m raidMapRet = .ok ⟨0, mapLength map a,
        [⟨(map.stripe (readLocation map a m).1).dev, (readLocation map a m).2⟩], none⟩ := by
  obtain ⟨-, ce, hsearch, rfl⟩ := hfound
  have hwanted : wantsRaidMap ce.entry .read true m raidMapRet = false := by
    rw [wantsRaidMap, hmap.has_parity]
    cases hparity : profile.parity with
    | false => rfl
    | true =>
      rw [hm.2.2 hparity]
      rfl
  have hen : true = true → stripesRequired ce.entry .read
      (wantsRaidMap ce.entry .read true m raidMapRet) ≤ 1 := by
    intro _
    rw [hwanted]
    exact le_rfl
  have hone : stripesRequired ce.entry .read false ≤ 1 := le_rfl
  have hround := mapBlockRounds_found hsearch (Nat.le_add_right _ a) 1 hen
  rw [hwanted, Nat.add_sub_cancel_left, hmap.mapFound_direct .read a hm.2.1 hone] at hround
  rw [btrfsMapBlock', if_pos ⟨rfl, rfl⟩, hround, readLocation, hmap.stripePlan_mirror hm.1]
  rfl

theorem Accepted.readLocation_inside {a m : ℕ}
    (hr : map.stripeLen * profile.columns map.numStripes ∣ map.ce.size) (ha : a < map.ce.size)
    (hm : Mirror map profile m) :
    (readLocation map a m).1 < map.numStripes ∧
      ∃ k < map.ce.size / profile.columns map.numStripes, (readLocation map a m).2 =
        wrap64 ((map.stripe (readLocation map a m).1).physical + k) := by
  rw [hmap.readLocation_eq hm.1]
  exact ⟨hmap.mirrorPlace_lt hm.1 hm.2.1 _ ((layout hmap).col_lt a), _,
    hmap.depth_lt_stripe hr ha, rfl⟩

theorem Accepted.readLocation_ne_parity (a : ℕ) (hparity : profile.parity = true) :
    (readLocation map a 1).1 ≠ (nrDataStripes map +
      (stripePlan map .read 1 false a).stripeNr % map.numStripes) % map.numStripes ∧
    (map.has BTRFS_BLOCK_GROUP_RAID6 = true → (readLocation map a 1).1 ≠ (nrDataStripes map +
      (stripePlan map .read 1 false a).stripeNr % map.numStripes + 1) % map.numStripes) := by
  have hcolumns := hmap.columns_lt hparity
  have hcol := (layout hmap).col_lt a
  rw [hmap.readLocation_eq Nat.one_pos, hmap.stripePlan_mirror Nat.one_pos,
    hmap.nrDataStripes_eq hparity]
  have hrot : ∀ k, (k + (layout hmap).row a % map.numStripes) % map.numStripes =
      ((layout hmap).row a + k) % map.numStripes := by
    intro k
    simp [Nat.add_comm]
  refine ⟨?_, fun hraid6 => ?_⟩
  · rw [hrot]
    exact hmap.mirrorPlace_ne_parity hparity hcol le_rfl hcolumns
  · rw [hmap.has_raid6, beq_iff_eq] at hraid6
    have hthree : 3 ≤ map.numStripes := by
      have hcount := hmap.count
      rw [hraid6] at hcount
      exact hcount
    rw [Nat.add_right_comm, hrot]
    refine hmap.mirrorPlace_ne_parity hparity hcol (Nat.le_succ _) ?_
    rw [hraid6, Profile.columns]
    omega

include h hmem

theorem AcceptedTree.readsInto (hr : map.stripeLen * profile.columns map.numStripes ∣ map.ce.size) :
    ReadsInto tree map (map.ce.size / profile.columns map.numStripes) where
  found := by
    intro hbound a ha
    have := hbound map hmem
    exact ⟨by omega, h.search_found hbound hmem (Nat.le_add_right _ a) (by omega)⟩
  returned := by
    intro a m raidMapRet ha hfound hm
    refine ⟨?_, _, hmap.mapBlock_read raidMapRet hfound (hmap.mirror hm)⟩
    obtain ⟨hlog, ce, hsearch, rfl⟩ := hfound
    obtain ⟨hhi, hbound⟩ := (h.search hlog hsearch).2 (Nat.le_add_right _ a)
    exact btrfsNumCopies_found hsearch (Nat.le_add_right _ a) hhi hbound
  inside _ _ ha hm := hmap.readLocation_inside hr ha (hmap.mirror hm)
  extent := by
    intro a m ha hm hf
    obtain ⟨-, k, hk, heq⟩ := hmap.readLocation_inside hr ha (hmap.mirror hm)
    rw [heq, wrap64_of_lt (by omega)]
    omega
  injective _ _ _ _ ha hb hm hn heq :=
    hmap.readLocation_inj (h.u64 map hmem).2 hr ha hb (hmap.mirror hm) (hmap.mirror hn) heq
  parity a _ hparity := hmap.readLocation_ne_parity a (hmap.has_parity.symm.trans hparity)

end

/-- Reads of a chunk of whole full stripes stay in the device extents of its stripes, different
bytes and different mirrors go to different places, and none goes to parity. -/
theorem btrfsMapBlock'_readsInto {tree : MapTree} (h : ReadChunks tree) {chunk : Chunk}
    {findDevice : ℕ → ℕ} {start : ℕ} (hmem : mapOfChunk findDevice start chunk ∈ inorder tree)
    {fullStripe : ℕ} (hfull : chunkBytesByType chunk.type chunk.stripeLen chunk.stripes.length
      chunk.subStripes = .ok fullStripe) (hrows : fullStripe ∣ chunk.length) :
    ∃ stripeLength, btrfsStripeLength chunk = .ok stripeLength ∧
      ReadsInto tree (mapOfChunk findDevice start chunk) stripeLength := by
  have ht := h.acceptedTree
  obtain ⟨profile, hmap⟩ := ht.accepted _ hmem
  rw [hmap.chunkBytesByType_eq] at hfull
  obtain rfl := Except.ok.inj hfull
  refine ⟨_, hmap.btrfsStripeLength_eq, ?_⟩
  rw [← numStripes_mapOfChunk findDevice start chunk] at hrows
  rw [← numStripes_mapOfChunk findDevice start chunk]
  exact ht.readsInto hmem hmap hrows

/-- A chunk of two full stripes with parity. -/
theorem btrfsMapBlock'_readsInto_raid5 :
    ∃ tree map, ReadChunks tree ∧ map ∈ inorder tree ∧ map.ce.size = 262144 ∧
      ReadsInto tree map 131072 := by
  let chunk : Chunk := ⟨262144, 65536, BTRFS_BLOCK_GROUP_DATA ||| BTRFS_BLOCK_GROUP_RAID5, 4096, 1,
    [⟨1, 0⟩, ⟨2, 0⟩, ⟨3, 0⟩]⟩
  have hr : readOneChunk 4096 id .nil 1048576 chunk 0 144 =
      .ok (.ok (.node .black .nil (mapOfChunk id 1048576 chunk) .nil)) := by
    decide +kernel
  have ht := ReadChunks.read .nil (by decide) (by decide) hr
  have hmem : mapOfChunk id 1048576 chunk ∈
      inorder (.node .black .nil (mapOfChunk id 1048576 chunk) .nil) := by simp
  have hf : chunkBytesByType chunk.type chunk.stripeLen chunk.stripes.length chunk.subStripes =
      .ok 131072 := by decide +kernel
  obtain ⟨stripeLength, hlen, hrd⟩ := btrfsMapBlock'_readsInto ht hmem hf
    (by decide : 131072 ∣ 262144)
  have heq : btrfsStripeLength chunk = .ok 131072 := by decide +kernel
  obtain rfl := Except.ok.inj (hlen.symm.trans heq)
  exact ⟨_, _, ht, hmem, rfl, hrd⟩

/-- A chunk whose device extent begins in the last sector of the device addresses: its second sector
is read from an offset in front of the extent. -/
theorem btrfsMapBlock'_leaves_extent :
    ∃ tree map, ReadChunks tree ∧ inorder tree = [map] ∧ map.ce.size = 65536 ∧
      (map.stripe 0).physical = 2 ^ 64 - 4096 ∧
      btrfsMapBlock' 2 tree .read (map.ce.start + 8192) true 1 false =
        .ok ⟨0, 57344, [⟨1, 4096⟩], none⟩ := by
  let chunk : Chunk := ⟨65536, 65536, BTRFS_BLOCK_GROUP_DATA, 4096, 1, [⟨1, 2 ^ 64 - 4096⟩]⟩
  have hread : readOneChunk 4096 id .nil 1048576 chunk 0 80 =
      .ok (.ok (.node .black .nil (mapOfChunk id 1048576 chunk) .nil)) := by
    decide +kernel
  exact ⟨_, _, ReadChunks.read .nil (by decide) (by decide) hread, rfl, rfl, rfl, by decide +kernel⟩

end Btrfs.Volumes
