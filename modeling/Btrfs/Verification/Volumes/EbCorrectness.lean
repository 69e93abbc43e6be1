import Btrfs.Verification.Volumes.ExtentBuffers

/-! # Correctness of writes of extent buffers -/

namespace Btrfs.Volumes

open Raid56

/-! ## What a write does -/

section

variable {info : FsInfo} {map : MapLookup} {profile : Profile} {addr : Ptr → ℕ}
  {devs devs' : Devices} {eb : ExtentBuffer}

theorem ValidChunk.bound_of_ebWrite (h : ValidChunk info map profile) (hst : map.Covers eb.start)
    (hwrite : writeAndMapEb addr info devs eb = .ok devs') :
    map.ce.start + map.ce.size < 2 ^ 64 := by
  by_contra hend
  obtain ⟨a, ha⟩ := Nat.exists_eq_add_of_le hst.1
  have hlt := hst.2
  have hmap := h.tree.mapBlock_eq h.mem (by omega : a < map.ce.size) .write 0 true
  rw [if_neg hend, ← ha] at hmap
  simp only [writeAndMapEb, hmap] at hwrite
  cases hwrite

theorem Accepted.writePlaces_eq {map : MapLookup} {profile : Profile} (h : Accepted map profile)
    (hpar : profile.parity = false) (a : ℕ) :
    writePlaces map (map.ce.start + a) = ((layout h).copies ((layout h).row a)
      ((layout h).col a)).map (map.stripeAt ((layout h).depth a)) := by
  simp only [writePlaces, Nat.add_sub_cancel_left, h.stripePlan_write hpar]
  rfl

theorem InTree.ebWritten_of_copies (h : InTree info map profile) (hpar : profile.parity = false)
    (hst : map.Covers eb.start) (hwrite : writeAndMapEb addr info devs eb = .ok devs') :
    EbWritten info map devs devs' eb := by
  obtain ⟨a, ha⟩ := Nat.exists_eq_add_of_le hst.1
  have hlt := hst.2
  have hmap : btrfsMapBlock info.mappingTree .write eb.start 0 true =
      .ok (.ok ⟨mapLength map a, writePlaces map eb.start, none⟩) := by
    rw [ha, h.writePlaces_eq hpar, h.tree.mapBlock_eq h.mem (by omega), if_pos h.bound,
      h.mapInChunk_write hpar]
    rfl
  have hlanding : ∀ y place, landing map eb y place =
      landed eb.len place (writePlaces map eb.start) := by
    intro y place
    rw [landing, h.hasParity_eq, hpar]
    rfl
  simp only [writeAndMapEb, hmap] at hwrite
  obtain ⟨hshape, hbytes⟩ := writeTargets_ok hwrite
  refine ⟨hshape, ?_, ?_⟩
  · intro y _ m _ place _
    rw [hlanding, hbytes]
  · intro map' _ _ y _ _ m _
    rw [hlanding, hbytes]

/-- With parity the full stripe of the first address is written, in its own chunk only. -/
theorem Stored.ebWritten_of_row (hval : ValidChunks info) (hcheck : ValidChunk info map profile)
    (h : Stored info map profile) (hpar : profile.parity = true) (hst : map.Covers eb.start)
    (hhigh : eb.start + eb.len ≤ map.ce.start + map.ce.size)
    (hwrite : writeAndMapEb addr info devs eb = .ok devs')
    (hmapped : ¬ EbReadsAround info map eb) : EbWritten info map devs devs' eb := by
  obtain ⟨a, ha⟩ := Nat.exists_eq_add_of_le hst.1
  have hlt := hst.2
  have haLt : a < map.ce.size := by omega
  have hend := h.row_end_le haLt
  have hbound := h.bound
  have hhas : map.hasParity = true := h.toInTree.hasParity_eq.trans hpar
  have hcovered : ∀ x, eb.Covers (map.ce.start + x) ↔ a ≤ x ∧ x < a + eb.len := by
    intro x
    rw [ExtentBuffer.Covers]
    omega
  have hf : ∀ x, fullStripe map (map.ce.start + x) = fullStripe map eb.start ↔
      (layout h.toAccepted).row x = (layout h.toAccepted).row a := by
    intro x
    rw [ha, h.toInTree.fullStripe_eq hpar, h.toInTree.fullStripe_eq hpar]
  have hrow : writeRow addr info map profile devs ((layout h.toAccepted).row a) a eb.len eb.data =
      .ok (0, devs') := by
    have hmap : btrfsMapBlock info.mappingTree .write eb.start 0 true =
        .ok (.ok ⟨map.stripeLen, rowStripes map ((layout h.toAccepted).row a),
          some ((List.range map.numStripes).map
            (rowEntry map profile ((layout h.toAccepted).row a)))⟩) := by
      rw [ha, h.tree.mapBlock_eq h.mem haLt, if_pos h.bound, h.mapInChunk_parity hpar a (by omega)]
      rfl
    have heb : (⟨map.ce.start + a, eb.len, eb.data⟩ : ExtentBuffer) = eb := by rw [← ha]
    simp only [writeAndMapEb, hmap] at hwrite
    rw [writeRow, heb]
    split at hwrite
    · cases hwrite
    · rename_i ret devs₁ hparityWrite
      split at hwrite
      · cases hwrite
      · rename_i hret
        rw [hparityWrite, not_not.mp hret, Except.ok.inj hwrite]
  have hwritten := h.rowWritten_of_writeRow hpar hend hrow
  have hlanding : ∀ x place, landing map eb (map.ce.start + x) place =
      if (a ≤ x ∧ x < a + eb.len) ∧ (layout h.toAccepted).row x = (layout h.toAccepted).row a then
        some (x - a) else none := by
    intro x place
    have hidx : map.ce.start + x - eb.start = x - a := by omega
    rw [landing, if_pos hhas, hidx]
    exact if_congr (and_congr (hcovered x) (hf x)) rfl rfl
  -- the bytes of the chunk itself
  have hown : ∀ x < map.ce.size, ∀ m, ReadMirror map m →
      byteAt devs' (readPlace map m (map.ce.start + x)) =
        ((landing map eb (map.ce.start + x) (readPlace map m (map.ce.start + x))).map eb.data).or
          (byteAt devs (readPlace map m (map.ce.start + x))) := by
    intro x hx m hm
    obtain rfl : m = 1 := hm.2.2 hhas
    have hb := hwritten.bytes x hx
    rw [hlanding, h.readPlace_parity hpar]
    rw [chunkByte] at hb
    rw [hb]
    by_cases hs : (layout h.toAccepted).row x = (layout h.toAccepted).row a
    · rw [if_pos hs]
      by_cases hin : a ≤ x ∧ x < a + eb.len
      · rw [if_pos hin, if_pos ⟨hin, hs⟩]
        rfl
      · have hr : info.unmapped (map.ce.start + x / map.stripeLen * map.stripeLen) = false := by
          by_contra hunmapped
          apply hmapped
          refine ⟨hhas, .inr ⟨map.ce.start + x, ⟨by omega, by omega⟩, (hcovered x).not.mpr hin,
            (hf x).mpr hs, ?_⟩⟩
          rw [Nat.add_sub_cancel_left]
          exact Bool.eq_true_of_not_eq_false hunmapped
        rw [if_neg hin, if_neg fun hc => hin hc.1, rmwByte, hr]
        rfl
    · rw [if_neg hs, if_neg fun hc => hs hc.2]
      rfl
  refine ⟨hwritten.shape, ?_, ?_⟩
  · rintro y ⟨hge, hle⟩ m hm place hplace
    have hr : info.unmapped eb.start = false := by
      by_contra hunmapped
      exact hmapped ⟨hhas, .inl (Bool.eq_true_of_not_eq_false hunmapped)⟩
    rw [ebPlace, hr] at hplace
    obtain rfl := Option.some.inj hplace
    obtain ⟨x, rfl⟩ := Nat.exists_eq_add_of_le (hst.1.trans hge)
    exact hown x (by omega) m hm
  · intro map' hmem hbound' y hy hout m hm
    by_cases heq : map' = map
    · subst heq
      obtain ⟨x, rfl⟩ := Nat.exists_eq_add_of_le hy.1
      have hyLt := hy.2
      exact hown x (by omega) m hm
    · obtain ⟨profile', hcheck'⟩ := hval.chunk map' hmem
      have hstored' := hcheck'.stored hbound'
      obtain ⟨x, rfl⟩ := Nat.exists_eq_add_of_le hy.1
      have hyLt := hy.2
      have hm' := hstored'.toAccepted.mirror hm
      have hn : landing map eb (map'.ce.start + x) (readPlace map' m (map'.ce.start + x)) =
          none := by
        rw [landing, if_pos hhas, if_neg fun hc => hout hc.1]
      rw [hn]
      apply h.byteAt_of_writeRow hpar hend hrow
      rw [hstored'.readPlace_eq hm'.1]
      intro i hi hdev hin
      have hdepth := hstored'.toPlaced.depth_lt (by omega : x < map'.ce.size)
      have hplaceLt := hstored'.mirrorPlace_lt hm'.1 hm'.2.1 ((layout hstored'.toAccepted).row x)
        ((layout hstored'.toAccepted).col_lt x)
      have hapart := hval.apart map map' profile profile' hcheck hcheck' (Ne.symm heq) i hi _
        hplaceLt hdev.symm
      simp only [MapLookup.locate] at hin
      omega

end

/-- A written buffer is read back from every mirror, and all else reads as before, exactly when its
bytes land where they are read and no others do, or the bytes that end up there are the same. -/
theorem writeAndMapEb_roundTrip_iff {info : FsInfo} (hvalid : ValidChunks info) {map : MapLookup}
    (hmem : map ∈ info.mappingTree) {addr : Ptr → ℕ} {devs devs' : Devices} {eb : ExtentBuffer}
    (hstart : map.Covers eb.start) (hhigh : eb.start + eb.len ≤ map.ce.start + map.ce.size)
    (hwrite : writeAndMapEb addr info devs eb = .ok devs')
    (hmapped : ¬ EbReadsAround info map eb) :
    EbRoundTrip info map devs devs' eb ↔ LandsRight info map devs eb := by
  obtain ⟨profile, hcheck⟩ := hvalid.chunk map hmem
  have hstored := hcheck.stored (hcheck.bound_of_ebWrite hstart hwrite)
  have hwritten : EbWritten info map devs devs' eb := by
    cases hpar : profile.parity with
    | false => exact hstored.toInTree.ebWritten_of_copies hpar hstart hwrite
    | true => exact hstored.ebWritten_of_row hvalid hcheck hpar hstart hhigh hwrite hmapped
  exact hwritten.roundTrip_iff hvalid hstored.toInTree hstart.1 hhigh

/-! ## Buffers that stay together -/

/-- The number of stripes over which the data of a chunk without parity goes round. -/
def dataStripes (map : MapLookup) : ℕ :=
  if map.has BTRFS_BLOCK_GROUP_RAID0 then map.numStripes
  else if map.has BTRFS_BLOCK_GROUP_RAID10 then map.numStripes / map.subStripes
  else 1

/-- The buffer lies in one full stripe of a chunk with parity; in a chunk without, it lies in one
stripe, or all the data of the chunk does. -/
def Together (map : MapLookup) (eb : ExtentBuffer) : Prop :=
  if map.hasParity then ∀ y, eb.Covers y → fullStripe map y = fullStripe map eb.start
  else dataStripes map = 1 ∨ (eb.start - map.ce.start) % map.stripeLen + eb.len ≤ map.stripeLen

theorem Accepted.dataStripes_eq {map : MapLookup} {profile : Profile} (h : Accepted map profile)
    (hpar : profile.parity = false) : dataStripes map = profile.columns map.numStripes := by
  have hcount := h.count
  simp only [dataStripes, h.has_raid0, h.has_raid10]
  cases profile with
  | raid10 =>
    rw [hcount.1]
    rfl
  | raid5 => cases hpar
  | raid6 => cases hpar
  | _ => rfl

theorem Accepted.mirrorPlace_mem {map : MapLookup} {profile : Profile} (h : Accepted map profile)
    (hpar : profile.parity = false) {m : ℕ} (hm : Mirror map profile m) (row row' : ℕ) {col : ℕ}
    (hcol : col < profile.columns map.numStripes) :
    profile.mirrorPlace map.numStripes row col m ∈ (layout h).copies row' col := by
  obtain ⟨hlow, hhigh, -⟩ := hm
  change _ ∈ List.range' _ _
  rw [List.mem_range'_1]
  cases profile with
  | raid5 => cases hpar
  | raid6 => cases hpar
  | _ =>
    simp only [Profile.mirrorPlace, Profile.copyRange, Profile.columns, Profile.numCopies] at *
    omega

/-- A buffer that stays together is one run on each of its devices. -/
theorem Accepted.together_run {map : MapLookup} {profile : Profile} (h : Accepted map profile)
    (hpar : profile.parity = false) {eb : ExtentBuffer} (htog : Together map eb) {a k : ℕ}
    (ha : eb.start = map.ce.start + a) (hk : k < eb.len) :
    (layout h).col (a + k) = (layout h).col a ∧
      (layout h).depth (a + k) = (layout h).depth a + k := by
  have hno : map.hasParity = false := h.has_parity.trans hpar
  rw [Together, hno, h.dataStripes_eq hpar, ha, Nat.add_sub_cancel_left] at htog
  rcases htog with hone | hwithin
  · have hcol : ∀ b, (layout h).col b = 0 := by
      intro b
      have hlt := (layout h).col_lt b
      have hcolumns : (layout h).columns = 1 := hone
      omega
    have hdepth := (layout h).depth_of_one_column hone
    exact ⟨by rw [hcol, hcol], by rw [hdepth, hdepth]⟩
  · obtain ⟨-, hcol, hdepth⟩ := (layout h).add_within (by
      change a % map.stripeLen + k < map.stripeLen
      omega : a % (layout h).unit + k < (layout h).unit)
    exact ⟨hcol, hdepth⟩

theorem exists_of_landed {len k : ℕ} {loc : ℕ × ℕ} {targets : List BioStripe}
    (h : landed len loc targets = some k) :
    ∃ stripe ∈ targets, loc.1 = stripe.dev ∧ stripe.physical ≤ loc.2 ∧
      loc.2 < stripe.physical + len := by
  induction targets with
  | nil => cases h
  | cons stripe rest ih =>
    rw [landed] at h
    cases hrest : landed len loc rest with
    | some j =>
      rw [hrest] at h
      obtain ⟨target, hmem, hin⟩ := ih (hrest.trans h)
      exact ⟨target, List.mem_cons_of_mem stripe hmem, hin⟩
    | none =>
      rw [hrest, Option.none_or] at h
      split at h
      · rename_i hin
        exact ⟨stripe, List.mem_cons_self, hin⟩
      · cases h

/-- What lands at a place of a chunk, when a buffer is written at one depth of some stripes. -/
theorem Placed.landed_eq {map : MapLookup} {profile : Profile} (h : Placed map profile)
    {indices : List ℕ} {x len j y : ℕ} (hx : x + len ≤ map.stripeSize profile)
    (hlt : ∀ i ∈ indices, i < map.numStripes) (hj : j < map.numStripes)
    (hy : y < map.stripeSize profile) :
    landed len (map.locate j y) (indices.map (map.stripeAt x)) =
      if j ∈ indices ∧ x ≤ y ∧ y < x + len then some (y - x) else none := by
  induction indices with
  | nil => simp [landed]
  | cons i rest ih =>
    obtain ⟨hi, hrest⟩ := List.forall_mem_cons.mp hlt
    rw [List.map_cons, landed, ih hrest]
    by_cases hji : j = i
    · subst hji
      by_cases hin : x ≤ y ∧ y < x + len
      · have hat : (map.locate j y).1 = (map.stripeAt x j).dev ∧
            (map.stripeAt x j).physical ≤ (map.locate j y).2 ∧
            (map.locate j y).2 < (map.stripeAt x j).physical + len := by
          exact ⟨rfl, by simp only [MapLookup.locate, MapLookup.stripeAt]; omega⟩
        have hidx : (map.locate j y).2 - (map.stripeAt x j).physical = y - x := by
          simp only [MapLookup.locate, MapLookup.stripeAt]
          omega
        have hmem : j ∈ j :: rest := List.mem_cons_self
        rw [if_pos hat, hidx, if_pos (⟨hmem, hin⟩ : j ∈ j :: rest ∧ x ≤ y ∧ y < x + len)]
        split <;> rfl
      · have hat : ¬ ((map.locate j y).1 = (map.stripeAt x j).dev ∧
            (map.stripeAt x j).physical ≤ (map.locate j y).2 ∧
            (map.locate j y).2 < (map.stripeAt x j).physical + len) := by
          simp only [MapLookup.locate, MapLookup.stripeAt]
          omega
        rw [if_neg hat, if_neg fun hc => hin hc.2, if_neg fun hc => hin hc.2]
        rfl
    · -- the stripes of the chunk are apart
      have hat : ¬ ((map.locate j y).1 = (map.stripeAt x i).dev ∧
          (map.stripeAt x i).physical ≤ (map.locate j y).2 ∧
          (map.locate j y).2 < (map.stripeAt x i).physical + len) := by
        rintro ⟨hdev, hin⟩
        have hapart := h.disjoint j i hj hi hji hdev
        simp only [MapLookup.locate, MapLookup.stripeAt] at hin
        omega
      rw [if_neg hat, Option.or_none]
      simp only [List.mem_cons, hji, false_or]

section

variable {info : FsInfo} {map : MapLookup} {profile : Profile} {devs : Devices} {eb : ExtentBuffer}

/-- Without parity the bytes of such a buffer land at their places, and nothing lands elsewhere. -/
theorem Stored.landsRight_of_together (hval : ValidChunks info)
    (hcheck : ValidChunk info map profile) (h : Stored info map profile)
    (hpar : profile.parity = false) (hst : map.Covers eb.start)
    (hhigh : eb.start + eb.len ≤ map.ce.start + map.ce.size)
    (hmapped : info.unmapped eb.start = false) (htog : Together map eb) :
    LandsRight info map devs eb := by
  obtain ⟨a, ha⟩ := Nat.exists_eq_add_of_le hst.1
  have hno : map.hasParity = false := h.toInTree.hasParity_eq.trans hpar
  have hrun : ∀ k < eb.len, _ := fun k hk => h.toAccepted.together_run hpar htog ha hk
  have hcolLt := (layout h.toAccepted).col_lt a
  -- the whole of the run lies in the stripes
  have hend : 0 < eb.len → (layout h.toAccepted).depth a + eb.len ≤ map.stripeSize profile := by
    intro hpos
    have hdepth := (hrun (eb.len - 1) (by omega)).2
    have hlt := h.toPlaced.depth_lt (by omega : a + (eb.len - 1) < map.ce.size)
    omega
  have hlanding : ∀ y place, landing map eb y place = landed eb.len place
      (((layout h.toAccepted).copies ((layout h.toAccepted).row a)
        ((layout h.toAccepted).col a)).map (map.stripeAt ((layout h.toAccepted).depth a))) := by
    intro y place
    rw [landing, hno, ha, h.toAccepted.writePlaces_eq hpar]
    rfl
  have hcopies := (layout h.toAccepted).copies_lt ((layout h.toAccepted).row a) _ hcolLt
  constructor
  · rintro y ⟨hlow, hlt⟩ m hm
    obtain ⟨k, rfl⟩ := Nat.exists_eq_add_of_le hlow
    have hk : k < eb.len := by omega
    obtain ⟨hcol, hdepth⟩ := hrun k hk
    have hm' := h.toAccepted.mirror hm
    have hmem := h.toAccepted.mirrorPlace_mem hpar hm' ((layout h.toAccepted).row (a + k))
      ((layout h.toAccepted).row a) hcolLt
    refine ⟨readPlace map m (eb.start + k), by rw [ebPlace, hmapped]; rfl, ?_⟩
    have hdepLt := h.toPlaced.depth_lt (by omega : a + k < map.ce.size)
    rw [hlanding, ha, Nat.add_assoc, h.toAccepted.readPlace_eq hm'.1, hcol,
      h.toPlaced.landed_eq (hend (by omega)) hcopies (hcopies _ hmem) hdepLt, hdepth,
      if_pos ⟨hmem, by omega, by omega⟩, Nat.add_sub_cancel_left, ← Nat.add_assoc,
      Nat.add_sub_cancel_left]
    rfl
  · intro map' hmem' hbound' y hy hout m hm k hk
    exfalso
    obtain ⟨profile', hcheck'⟩ := hval.chunk map' hmem'
    have hstored' := hcheck'.stored hbound'
    have hm' := hstored'.toAccepted.mirror hm
    obtain ⟨x, rfl⟩ := Nat.exists_eq_add_of_le hy.1
    have hx : x < map'.ce.size := by
      have hlt := hy.2
      omega
    have hdepLt := hstored'.toPlaced.depth_lt hx
    have hplaceLt := hstored'.mirrorPlace_lt hm'.1 hm'.2.1 ((layout hstored'.toAccepted).row x)
      ((layout hstored'.toAccepted).col_lt x)
    rw [hlanding, hstored'.readPlace_eq hm'.1] at hk
    have hpos : 0 < eb.len := by
      obtain ⟨stripe, -, -, hin⟩ := exists_of_landed hk
      omega
    by_cases heq : map' = map
    · subst heq
      obtain rfl : profile' = profile :=
        Profile.flag_injective (hcheck'.flag.symm.trans hcheck.flag)
      rw [h.toPlaced.landed_eq (hend hpos) hcopies hplaceLt hdepLt] at hk
      split at hk
      · rename_i hin
        obtain ⟨hmem, hlow, hhi⟩ := hin
        -- the byte of the buffer at this depth is the same address
        obtain ⟨j, hj⟩ := Nat.exists_eq_add_of_le hlow
        obtain ⟨hcol, hdepth⟩ := hrun j (by omega)
        rw [← hj] at hdepth
        have hmem' := h.toAccepted.mirrorPlace_mem hpar hm'
          ((layout h.toAccepted).row x) ((layout h.toAccepted).row a)
          ((layout h.toAccepted).col_lt x)
        have hcolumns := (layout h.toAccepted).copies_disjoint _ _ _ _ hcolLt
          ((layout h.toAccepted).col_lt x) hmem hmem'
        have hsame := (layout h.toAccepted).address_inj (hcol.trans hcolumns) hdepth
        apply hout
        rw [ExtentBuffer.Covers]
        omega
      · cases hk
    · obtain ⟨stripe, hmem, hdev, hin⟩ := exists_of_landed hk
      obtain ⟨i, hi, rfl⟩ := List.mem_map.mp hmem
      have hapart := hval.apart map map' profile profile' hcheck hcheck' (Ne.symm heq) i
        (hcopies i hi) _ hplaceLt hdev.symm
      have hall := hend hpos
      simp only [MapLookup.locate, MapLookup.stripeAt] at hin
      omega

end

/-- A buffer that stays together and is read through the mapping is read back from every mirror
after it was written, and all else reads as before. -/
theorem writeAndMapEb_roundTrip {info : FsInfo} (hvalid : ValidChunks info) {map : MapLookup}
    (hmem : map ∈ info.mappingTree) {addr : Ptr → ℕ} {devs devs' : Devices} {eb : ExtentBuffer}
    (hstart : map.Covers eb.start) (hhigh : eb.start + eb.len ≤ map.ce.start + map.ce.size)
    (hwrite : writeAndMapEb addr info devs eb = .ok devs')
    (hmapped : info.unmapped eb.start = false ∧ ¬ EbReadsAround info map eb)
    (htogether : Together map eb) : EbRoundTrip info map devs devs' eb := by
  apply (writeAndMapEb_roundTrip_iff hvalid hmem hstart hhigh hwrite hmapped.2).mpr
  obtain ⟨profile, hcheck⟩ := hvalid.chunk map hmem
  have hsto := hcheck.stored (hcheck.bound_of_ebWrite hstart hwrite)
  cases hpar : profile.parity with
  | false => exact hsto.landsRight_of_together hvalid hcheck hpar hstart hhigh hmapped.1 htogether
  | true =>
    have hhas : map.hasParity = true := hsto.toInTree.hasParity_eq.trans hpar
    rw [Together, if_pos hhas] at htogether
    constructor
    · intro y hy m _
      refine ⟨readPlace map m y, by rw [ebPlace, hmapped.1]; rfl, ?_⟩
      rw [landing, if_pos hhas, if_pos ⟨hy, htogether y hy⟩]
      rfl
    · intro map' _ _ y _ hout m _ k hk
      rw [landing, if_pos hhas, if_neg fun hc => hout hc.1] at hk
      cases hk

/-! ## A chunk of two stripes -/

def raid0Chunk : Chunk where
  length := 262144
  stripeLen := 65536
  type := BTRFS_BLOCK_GROUP_METADATA ||| BTRFS_BLOCK_GROUP_RAID0
  sectorSize := 4096
  subStripes := 1
  stripes := [⟨1, 1048576⟩, ⟨2, 1048576⟩]

def raid0Map : MapLookup := mapOfChunk id 1048576 raid0Chunk

def raid0Info : FsInfo where
  mappingTree := [raid0Map]
  nodesize := 16384
  onRestoring := false
  fsDevices := [1, 2]

theorem raid0Map_valid : ValidChunk raid0Info raid0Map .raid0 :=
  validChunk_alone rfl (rfl : _ = mapOfChunk id _ raid0Chunk) (by decide) (by decide) (by decide)
    (by decide) (by decide)

theorem raid0Info_valid : ValidChunks raid0Info where
  chunk := by
    intro map hmap
    rw [List.mem_singleton.mp hmap]
    exact ⟨.raid0, raid0Map_valid⟩
  apart := by
    intro map map' profile profile' h h' hne
    exact absurd ((List.mem_singleton.mp h.mem).trans (List.mem_singleton.mp h'.mem).symm) hne

theorem raid0Info_mapped (eb : ExtentBuffer) : ¬ EbReadsAround raid0Info raid0Map eb :=
  fun h => absurd h.1 (by decide)

def onesBlock (start : ℕ) : ExtentBuffer := ⟨start, 16384, fun _ => 1⟩

/-- A tree block in one stripe, the last before the stripe on the other device. -/
theorem ebRoundTrip_in_stripe :
    ∃ devs', writeAndMapEb (fun _ => 0) raid0Info zeroDevices (onesBlock (1048576 + 49152)) =
        .ok devs' ∧
      EbRoundTrip raid0Info raid0Map zeroDevices devs' (onesBlock (1048576 + 49152)) := by
  obtain ⟨devs', hwrite⟩ : ∃ devs', writeAndMapEb (fun _ => 0) raid0Info zeroDevices
    (onesBlock (1048576 + 49152)) = .ok devs' := ⟨_, rfl⟩
  refine ⟨devs', hwrite, ?_⟩
  have hst : raid0Map.Covers (onesBlock (1048576 + 49152)).start := ⟨by decide, by decide⟩
  exact writeAndMapEb_roundTrip raid0Info_valid (List.mem_singleton_self _) hst (by decide)
    hwrite ⟨by decide, raid0Info_mapped _⟩ (.inr (by decide))

/-- A tree block that starts 4 KiB before the end of a stripe: the rest of it is not where it is
read. -/
theorem ebWrite_loses_next_stripe : ValidChunks raid0Info ∧ raid0Map ∈ raid0Info.mappingTree ∧
      raid0Map.Covers (1048576 + 61440) ∧
      1048576 + 61440 + 16384 ≤ raid0Map.ce.start + raid0Map.ce.size ∧
      ∃ devs', writeAndMapEb (fun _ => 0) raid0Info zeroDevices (onesBlock (1048576 + 61440)) =
          .ok devs' ∧
        ¬ EbRoundTrip raid0Info raid0Map zeroDevices devs' (onesBlock (1048576 + 61440)) := by
  have hst : raid0Map.Covers (1048576 + 61440) := ⟨by decide, by decide⟩
  refine ⟨raid0Info_valid, List.mem_singleton_self _, hst, by decide, _, rfl, ?_⟩
  have hstored := raid0Map_valid.stored (by decide)
  have hwrt := hstored.toInTree.ebWritten_of_copies rfl hst
    (rfl : writeAndMapEb (fun _ => 0) raid0Info zeroDevices (onesBlock (1048576 + 61440)) = .ok _)
  intro htrip
  have hlands := (hwrt.roundTrip_iff raid0Info_valid hstored.toInTree hst.1 (by decide)).mp htrip
  -- the first byte of the second stripe
  obtain ⟨place, hplace, hb⟩ := hlands.range (1048576 + 65536) ⟨by decide, by decide⟩ 1
    ⟨by decide, by decide, fun _ => rfl⟩
  obtain rfl : place = (2, 1048576) := (Option.some.inj hplace).symm
  exact absurd hb (by decide)

/-! ## The parity of a full stripe after a write -/

open PqCode Gf

/-! ## Consistent rows -/

/-- A byte of a row on the devices; the stripes are counted data first, then P and Q. -/
def rowByte (map : MapLookup) (devs : Devices) (row k b : ℕ) : Option Byte :=
  byteAt devs (map.locate (rotated map row k) (row * map.stripeLen + b))

/-- P is the XOR of the data of a row, and Q its RAID6 syndrome. -/
def RowConsistent (map : MapLookup) (profile : Profile) (devs : Devices) (row : ℕ) : Prop :=
  ∃ bytes : ℕ → ℕ → Byte,
    (∀ k < map.numStripes, ∀ b < map.stripeLen, rowByte map devs row k b = some (bytes k b)) ∧
      ParityOf (profile.columns map.numStripes) map.stripeLen (profile = .raid6) bytes

section

variable {info : FsInfo} {map : MapLookup} {profile : Profile} (h : Stored info map profile)
  (hparity : profile.parity = true) {row : ℕ}
  (hrow : (row + 1) * profile.columns map.numStripes * map.stripeLen ≤ map.ce.size)

include h hparity hrow

theorem Stored.rowConsistent_of_writeRow {addr : Ptr → ℕ} {devs devs' : Devices} {a t : ℕ}
    {data : ℕ → Byte}
    (hwrite : writeRow addr info map profile devs row a t data = .ok (0, devs')) :
    RowConsistent map profile devs' row := by
  obtain ⟨stripeData, -, hparityOf, hfit, rfl⟩ := h.writeRow_eq_store hparity hrow hwrite
  have hp := h.rotated_perm row
  have hin := h.row_stripe_end_le hrow
  refine ⟨fun k => stripeData (rotated map row k), ?_, hparityOf⟩
  intro k hk b hb
  have hmem : rotated map row k ∈ (List.range map.numStripes).map (rotated map row) :=
    List.mem_map_of_mem (List.mem_range.mpr hk)
  have hlt : ∀ i ∈ (List.range map.numStripes).map (rotated map row), i < map.numStripes :=
    fun i hi => List.mem_range.mp (hp.mem_iff.mp hi)
  rw [rowByte, h.toPlaced.byteAt_storeStripes hin stripeData
    (hp.nodup_iff.mpr List.nodup_range) hlt hfit (hlt _ hmem) (by omega),
    if_pos ⟨hmem, by omega, by omega⟩, Nat.add_sub_cancel_left]

end

/-! ## Writes of a buffer inside a full stripe -/

/-- The chunk after a write: the data stripes hold the buffer at its range and the previous bytes
elsewhere, and the parity of the full stripe is consistent with them. -/
structure RowUpdated (map : MapLookup) (profile : Profile) (devs devs' : Devices)
    (eb : ExtentBuffer) : Prop where
  bytes : ∀ y, map.Covers y → byteAt devs' (readPlace map 1 y) =
    if eb.Covers y then some (eb.data (y - eb.start)) else byteAt devs (readPlace map 1 y)
  parity : RowConsistent map profile devs' (fullStripe map eb.start)

/-- Where bytes of the full stripe are kept that are read from device 1 instead of through the
mapping, the device has the same bytes. -/
def KeepsUnmapped (info : FsInfo) (map : MapLookup) (devs : Devices) (eb : ExtentBuffer) : Prop :=
  ∀ y, map.Covers y → fullStripe map y = fullStripe map eb.start → ¬ eb.Covers y →
    info.unmapped (map.ce.start + (y - map.ce.start) / map.stripeLen * map.stripeLen) = true →
      (info.firstDevice devs).bind (fun d => byteAt devs (d, y)) = byteAt devs (readPlace map 1 y)

/-- The buffer lies in the full stripe of its first address. -/
def InsideFullStripe (map : MapLookup) (eb : ExtentBuffer) : Prop :=
  map.Covers eb.start ∧ ∀ y, eb.Covers y → map.Covers y ∧ fullStripe map y = fullStripe map eb.start

theorem insideFullStripe_of_le {map : MapLookup} {eb : ExtentBuffer}
    (hpos : 0 < map.stripeLen * nrDataStripes map) (hst : map.Covers eb.start)
    (hend : eb.start + eb.len ≤ map.ce.start + map.ce.size)
    (hrow : eb.start + eb.len ≤ map.ce.start +
      (fullStripe map eb.start + 1) * (map.stripeLen * nrDataStripes map)) :
    InsideFullStripe map eb := by
  refine ⟨hst, ?_⟩
  rintro y ⟨hlow, hhigh⟩
  have hge := hst.1
  refine ⟨⟨by omega, by omega⟩, ?_⟩
  apply le_antisymm
  · apply Nat.le_of_lt_succ
    rw [fullStripe, Nat.div_lt_iff_lt_mul hpos, Nat.succ_eq_add_one]
    omega
  · exact Nat.div_le_div_right (by omega)

section

variable {info : FsInfo} {map : MapLookup} {profile : Profile} {addr : Ptr → ℕ}
  {devs devs' : Devices} {eb : ExtentBuffer}

theorem Stored.rowUpdated_iff (h : Stored info map profile) (hparity : profile.parity = true)
    {a : ℕ} (ha : eb.start = map.ce.start + a) (hinside : InsideFullStripe map eb)
    (hwritten : RowWritten h.toInTree devs devs' ((layout h.toAccepted).row a) a eb.len eb.data)
    (hconsistent : RowConsistent map profile devs' ((layout h.toAccepted).row a)) :
    RowUpdated map profile devs devs' eb ↔ KeepsUnmapped info map devs eb := by
  have hcovered : ∀ x, eb.Covers (map.ce.start + x) ↔ a ≤ x ∧ x < a + eb.len := by
    intro x
    rw [ExtentBuffer.Covers]
    omega
  have hf : ∀ x, fullStripe map (map.ce.start + x) = fullStripe map eb.start ↔
      (layout h.toAccepted).row x = (layout h.toAccepted).row a := by
    intro x
    rw [ha, h.toInTree.fullStripe_eq hparity, h.toInTree.fullStripe_eq hparity]
  have hplace : ∀ devs x, byteAt devs (readPlace map 1 (map.ce.start + x)) =
      chunkByte h.toAccepted devs x := by
    intro devs x
    rw [h.readPlace_parity hparity]
    rfl
  constructor
  · intro hupdated y hy hs hout hunmapped
    obtain ⟨x, rfl⟩ := Nat.exists_eq_add_of_le hy.1
    have hx : x < map.ce.size := by
      have hlt := hy.2
      omega
    have hbytes := hupdated.bytes _ hy
    rw [if_neg hout, hplace, hplace, hwritten.bytes x hx, if_pos ((hf x).mp hs),
      if_neg ((hcovered x).not.mp hout), rmwByte] at hbytes
    rw [Nat.add_sub_cancel_left] at hunmapped
    rwa [if_pos hunmapped, ← hplace] at hbytes
  · intro hkeeps
    constructor
    · intro y hy
      obtain ⟨x, rfl⟩ := Nat.exists_eq_add_of_le hy.1
      have hx : x < map.ce.size := by
        have hlt := hy.2
        omega
      have hidx : map.ce.start + x - eb.start = x - a := by omega
      rw [hplace, hplace, hwritten.bytes x hx, hidx]
      by_cases hs : (layout h.toAccepted).row x = (layout h.toAccepted).row a
      · rw [if_pos hs]
        by_cases hin : a ≤ x ∧ x < a + eb.len
        · rw [if_pos hin, if_pos ((hcovered x).mpr hin)]
        · -- a byte that is read before the row is written
          have hout := (hcovered x).not.mpr hin
          rw [if_neg hin, rmwByte]
          split
          · have hk := hkeeps _ hy ((hf x).mpr hs) hout (by rwa [Nat.add_sub_cancel_left])
            rwa [hplace] at hk
          · rfl
      · have hout : ¬ eb.Covers (map.ce.start + x) :=
          fun hin => hs ((hf x).mp (hinside.2 _ hin).2)
        rw [if_neg hs, if_neg hout]
    · rwa [ha, h.toInTree.fullStripe_eq hparity]

theorem ValidChunk.writeRow_of_call (hcheck : ValidChunk info map profile)
    (hparity : profile.parity = true) {a : ℕ} (ha : eb.start = map.ce.start + a)
    (hlt : a < map.ce.size) {length : ℕ} {stripes : List BioStripe} {raidMap : List ℕ}
    (hmap : btrfsMapBlock info.mappingTree .write eb.start 0 true =
      .ok (.ok ⟨length, stripes, some raidMap⟩))
    (hwrite : writeRaid56WithParity addr info devs eb stripes length raidMap = .ok (0, devs')) :
    ∃ h : Stored info map profile, writeRow addr info map profile devs
      ((layout h.toAccepted).row a) a eb.len eb.data = .ok (0, devs') := by
  have hblock := hcheck.tree.mapBlock_eq hcheck.mem hlt .write 0 true
  rw [← ha, hmap] at hblock
  split at hblock
  · rename_i hbound
    have h := hcheck.stored hbound
    have hend := h.row_end_le hlt
    rw [h.mapInChunk_parity hparity a (by omega)] at hblock
    obtain ⟨rfl, rfl, rfl⟩ : length = map.stripeLen ∧
        stripes = rowStripes map ((layout h.toAccepted).row a) ∧
        raidMap = (List.range map.numStripes).map
          (rowEntry map profile ((layout h.toAccepted).row a)) := by
      simpa [Except.map, rowStripes] using hblock
    refine ⟨h, ?_⟩
    have heb : (⟨map.ce.start + a, eb.len, eb.data⟩ : ExtentBuffer) = eb := by rw [← ha]
    rw [writeRow, heb]
    exact hwrite
  · cases hblock

end

/-- A successful write of a buffer inside a full stripe updates its data and parity exactly when
what is read around the mapping is what the full stripe held. -/
theorem writeRaid56WithParity_rowUpdated_iff {info : FsInfo} {map : MapLookup} {profile : Profile}
    (hchunk : ValidChunk info map profile) (hparity : profile.parity = true) {addr : Ptr → ℕ}
    {devs devs' : Devices} {eb : ExtentBuffer} (hinside : InsideFullStripe map eb) {length : ℕ}
    {stripes : List BioStripe} {raidMap : List ℕ}
    (hmap : btrfsMapBlock info.mappingTree .write eb.start 0 true =
      .ok (.ok ⟨length, stripes, some raidMap⟩))
    (hwrite : writeRaid56WithParity addr info devs eb stripes length raidMap = .ok (0, devs')) :
    RowUpdated map profile devs devs' eb ↔ KeepsUnmapped info map devs eb := by
  obtain ⟨a, ha⟩ := Nat.exists_eq_add_of_le hinside.1.1
  have hlt : a < map.ce.size := by
    have hend := hinside.1.2
    omega
  obtain ⟨h, hrow⟩ := hchunk.writeRow_of_call hparity ha hlt hmap hwrite
  have hend := h.row_end_le hlt
  exact h.rowUpdated_iff hparity ha hinside (h.rowWritten_of_writeRow hparity hend hrow)
    (h.rowConsistent_of_writeRow hparity hend hrow)

/-- A tree block at the end of a full stripe. -/
theorem rowUpdated_at_end : ∃ length stripes raidMap devs',
      btrfsMapBlock raid5Info.mappingTree .write (1048576 + 49152) 0 true =
        .ok (.ok ⟨length, stripes, some raidMap⟩) ∧
      writeRaid56WithParity (fun _ => 0) raid5Info zeroDevices (onesBlock (1048576 + 49152)) stripes
        length raidMap = .ok (0, devs') ∧
      RowUpdated raid5Map .raid5 zeroDevices devs' (onesBlock (1048576 + 49152)) := by
  have hmap : ∀ y, raid5Info.unmapped (raid5Map.ce.start + y) = false := by
    intro y
    change (1048576 + y == BTRFS_SUPER_INFO_OFFSET) = false
    rw [beq_eq_false_iff_ne, BTRFS_SUPER_INFO_OFFSET]
    omega
  refine ⟨_, _, _, _, rfl, rfl, ?_⟩
  have hins := insideFullStripe_of_le (by decide : 0 < raid5Map.stripeLen * nrDataStripes raid5Map)
    (⟨by decide, by decide⟩ : raid5Map.Covers (onesBlock (1048576 + 49152)).start) (by decide)
    (by decide)
  apply (@writeRaid56WithParity_rowUpdated_iff _ _ _ raid5Map_valid rfl (fun _ => 0) _ _ _ hins
    _ _ _ rfl rfl).mpr
  intro y _ _ _ hunmapped
  rw [hmap] at hunmapped
  cases hunmapped

/-! ## A chunk at the address of the superblock -/

def lowRaid5Map : MapLookup := mapOfChunk id 0 raid5Chunk

def lowRaid5Info : FsInfo := { raid5Info with mappingTree := [lowRaid5Map] }

/-- Zero but for the first device, which holds other bytes from 80 KiB to 128 KiB. -/
def superDevices : Devices := fun d =>
  ⟨d, 3, 2097152, fun x => if d = 1 ∧ 81920 ≤ x ∧ x < 131072 then 1 else 0⟩

theorem lowRaid5Map_valid : ValidChunk lowRaid5Info lowRaid5Map .raid5 :=
  validChunk_alone rfl (rfl : _ = mapOfChunk id _ raid5Chunk) (by decide) (by decide) (by decide)
    (by decide) (by decide)

theorem superDevices_zero (d : ℕ) {x : ℕ} (hlow : 1048576 ≤ x) (hhigh : x < 2097152) :
    byteAt superDevices (d, x) = some 0 := by
  have hout : ¬ (d = 1 ∧ 81920 ≤ x ∧ x < 131072) := by omega
  simp [byteAt, superDevices, hhigh, hout]

/-- The first quarter of the stripe at 64 KiB is written: the rest of it becomes what the first
device has at 64 KiB. -/
theorem rowWrite_takes_first_device : ValidChunk lowRaid5Info lowRaid5Map .raid5 ∧
      RowConsistent lowRaid5Map .raid5 superDevices 1 ∧
      fullStripe lowRaid5Map 65536 = 1 ∧ InsideFullStripe lowRaid5Map (onesBlock 65536) ∧
      ∃ length stripes raidMap devs', btrfsMapBlock lowRaid5Info.mappingTree .write 65536 0 true =
          .ok (.ok ⟨length, stripes, some raidMap⟩) ∧
        writeRaid56WithParity (fun _ => 0) lowRaid5Info superDevices (onesBlock 65536) stripes length
          raidMap = .ok (0, devs') ∧
        ¬ RowUpdated lowRaid5Map .raid5 superDevices devs' (onesBlock 65536) := by
  refine ⟨lowRaid5Map_valid, ?_, by decide, ?_, _, _, _, _, rfl, rfl, ?_⟩
  · refine ⟨fun _ _ => 0, ?_, ?_, nofun⟩
    · intro k hk b hb
      change k < 2 at hk
      have hphys : (lowRaid5Map.stripe (rotated lowRaid5Map 1 k)).physical = 1048576 := by
        interval_cases k <;> rfl
      have hlen : lowRaid5Map.stripeLen = 65536 := rfl
      exact superDevices_zero _ (by omega) (by omega)
    · intro x hx
      rfl
  · exact insideFullStripe_of_le (by decide) ⟨by decide, by decide⟩ (by decide) (by decide)
  · intro hupdated
    have hbytes := hupdated.bytes 81920 ⟨by decide, by decide⟩
    exact absurd hbytes (by decide)

end Btrfs.Volumes
