import Btrfs.Verification.Volumes.Correctness
import Btrfs.Verification.Volumes.MapInjective

/-! # Reads from mirrors and writes of extent buffers -/

namespace Btrfs.Volumes

open Raid56

/-! ## Reading from a mirror -/

/-- Where a read of an address of a chunk with a mirror number goes. -/
def readPlace (map : MapLookup) (mirror y : ℕ) : ℕ × ℕ :=
  let plan := stripePlan map .read mirror false (y - map.ce.start)
  map.locate plan.stripeIndex (plan.stripeNr * map.stripeLen + plan.stripeOffset)

section

variable {info : FsInfo} {map : MapLookup} {profile : Profile} {m : ℕ}

theorem Accepted.readPlace_eq (h : Accepted map profile) (hm : 0 < m) (a : ℕ) :
    readPlace map m (map.ce.start + a) = map.locate
      (profile.mirrorPlace map.numStripes ((layout h).row a) ((layout h).col a) m)
      ((layout h).depth a) := by
  simp only [readPlace, Nat.add_sub_cancel_left, h.stripePlan_mirror hm]
  rfl

theorem Accepted.readPlace_parity (h : Accepted map profile) (hparity : profile.parity = true)
    (a : ℕ) : readPlace map 1 (map.ce.start + a) =
      map.locate ((layout h).cell a).1 ((layout h).depth a) := by
  rw [h.readPlace_eq Nat.one_pos]
  cases profile with
  | raid5 => rfl
  | raid6 => rfl
  | _ => cases hparity

theorem InTree.mirrorRuns_of_le (h : InTree info map profile) (hm : 0 < m)
    (hle : m ≤ profile.numCopies map.numStripes) :
    MirrorRuns info m map.ce.start map.ce.size (mapLength map)
      fun a => readPlace map m (map.ce.start + a) where
  pos _ ha := h.mapLength_pos ha
  next := by
    intro a k hk
    rw [h.readPlace_eq hm, h.readPlace_eq hm]
    rw [h.mapLength_eq] at hk
    by_cases hsingle : profile = .single
    · -- a single stripe is not cut
      subst hsingle
      have hdepth := (layout h.toAccepted).depth_of_one_column rfl
      have hcol : ∀ b, (layout h.toAccepted).col b = 0 := fun b => Nat.mod_one _
      rw [hdepth, hdepth, hcol, hcol, MapLookup.locate, MapLookup.locate, Nat.add_assoc]
      rfl
    · rw [if_neg hsingle] at hk
      have hwithin : a % map.stripeLen + k < map.stripeLen := by omega
      obtain ⟨hrow, hcol, hdepth⟩ := (layout h.toAccepted).add_within hwithin
      rw [hrow, hcol, hdepth, MapLookup.locate, MapLookup.locate, Nat.add_assoc]
  mapped := by
    intro a ha
    have hf : (map.has (BTRFS_BLOCK_GROUP_RAID5 ||| BTRFS_BLOCK_GROUP_RAID6) &&
        ((Rw.read == .write) || decide (1 < m)) && false) = false := Bool.and_false _
    have hlt := h.mirrorPlace_lt hm hle ((layout h.toAccepted).row a)
      ((layout h.toAccepted).col_lt a)
    rw [h.tree.mapBlock_eq h.mem ha, if_pos h.bound, h.readPlace_eq hm,
      mapInChunk_direct hf (h.stripePlan_mirror hm a) Nat.one_pos hlt]
    rfl

theorem InTree.mirrorRuns_of_mirror (h : InTree info map profile) (hm : Mirror map profile m) :
    MirrorRuns info m map.ce.start map.ce.size (mapLength map)
      fun a => readPlace map m (map.ce.start + a) :=
  h.mirrorRuns_of_le hm.1 hm.2.1

/-- A byte of a mirror reads the same in two states exactly when it is the same in both. -/
theorem MirrorRuns.readByte_eq_iff {mirror base size : ℕ} {run : ℕ → ℕ} {loc : ℕ → ℕ × ℕ}
    (h : MirrorRuns info mirror base size run loc) {devs devs' : Devices} {a : ℕ} (ha : a < size) :
    (∀ buf, readDataFromDisk info devs' buf (base + a) 1 mirror =
      readDataFromDisk info devs buf (base + a) 1 mirror) ↔
        byteAt devs' (loc a) = byteAt devs (loc a) := by
  have hfilled : ∀ (devs : Devices) buf, filled (fun a => byteAt devs (loc a)) a 1 0 buf =
      fun x => if x = 0 then (byteAt devs (loc a)).getD 0 else buf x := by
    intro devs buf
    funext x
    rw [filled]
    by_cases hx : x = 0
    · simp [hx]
    · simp [if_neg hx]
  constructor
  · intro hall
    have hr := hall fun _ => 0
    rw [h.readByte ha, h.readByte ha, hfilled, hfilled] at hr
    cases hnew : byteAt devs' (loc a) <;> cases hold : byteAt devs (loc a) <;>
      simp only [hnew, hold, Except.ok.injEq, Prod.mk.injEq] at hr
    · rfl
    · exact absurd hr.1 (by decide)
    · exact absurd hr.1 (by decide)
    · exact congrArg some (congrFun hr.2 0)
  · intro heq buf
    rw [h.readByte ha, h.readByte ha, hfilled, hfilled, heq]

end

/-! ## Writing the copies -/

/-- The byte of a buffer that is written last to a place, when the buffer is written to stripes. -/
def landed (len : ℕ) (loc : ℕ × ℕ) : List BioStripe → Option ℕ
  | [] => none
  | stripe :: rest =>
    (landed len loc rest).or
      (if loc.1 = stripe.dev ∧ stripe.physical ≤ loc.2 ∧ loc.2 < stripe.physical + len then
        some (loc.2 - stripe.physical) else none)

theorem store_nothing (devs : Devices) (d offset : ℕ) (data : ℕ → Byte) :
    store devs d offset 0 data = devs := by
  have hs : copyBytes (devs d).data offset data 0 0 = (devs d).data := by
    funext x
    rw [copyBytes, if_neg (by omega)]
  rw [store, hs]
  exact Function.update_eq_self d devs

variable {devs devs' : Devices} {data : ℕ → Byte} {len : ℕ}

theorem writeExtentToDisk_ok {stripe : BioStripe}
    (h : writeExtentToDisk devs data len stripe = (0, devs')) :
    SameShape devs devs' ∧ ∀ loc, byteAt devs' loc =
      if loc.1 = stripe.dev ∧ stripe.physical ≤ loc.2 ∧ loc.2 < stripe.physical + len then
        some (data (loc.2 - stripe.physical))
      else byteAt devs loc := by
  have hmvd : (devs stripe.dev).moved len stripe.physical = len := by
    by_contra hsh
    have hret := congrArg Prod.fst h
    by_cases hneg : (devs stripe.dev).moved len stripe.physical < 0
    · simp only [writeExtentToDisk, pwrite, hneg, if_true] at hret
      omega
    · simp only [writeExtentToDisk, pwrite, hneg, if_false, hsh, ne_eq, not_false_eq_true,
        if_true] at hret
      exact absurd hret (by decide)
  have hstore : devs' = store devs stripe.dev stripe.physical len data := by
    have hneg : ¬ (len : ℤ) < 0 := by omega
    simp only [writeExtentToDisk, pwrite, hmvd, hneg, if_false, ne_eq, not_true_eq_false, Prod.mk.injEq, true_and] at h
    exact h.symm
  subst hstore
  refine ⟨sameShape_store _ _ _ _ _, ?_⟩
  intro loc
  rcases Nat.eq_zero_or_pos len with rfl | hpos
  · rw [store_nothing, if_neg (by omega)]
  · exact byteAt_store (Device.fits_of_moved hpos hmvd) data loc

theorem writeTargets_ok {targets : List BioStripe}
    (h : writeTargets data len targets devs = .ok devs') :
    SameShape devs devs' ∧ ∀ loc, byteAt devs' loc =
      ((landed len loc targets).map data).or (byteAt devs loc) := by
  induction targets generalizing devs with
  | nil =>
    obtain rfl := Except.ok.inj h
    exact ⟨fun _ => ⟨rfl, rfl, rfl⟩, fun _ => rfl⟩
  | cons stripe rest ih =>
    rw [writeTargets] at h
    split at h
    rename_i ret devs₁ hwrite
    split at h
    · cases h
    · rename_i hret
      rw [not_not.mp hret] at hwrite
      obtain ⟨hshape, hbytes⟩ := writeExtentToDisk_ok hwrite
      obtain ⟨hshape', hbytes'⟩ := ih h
      refine ⟨hshape.trans hshape', ?_⟩
      intro loc
      rw [hbytes' loc, hbytes loc, landed]
      cases landed len loc rest with
      | some k => rfl
      | none => split <;> rfl

/-! # Round trips of extent buffers -/

/-! ## What is written and read -/

/-- A filesystem of valid chunks; the stripes of different chunks lie in disjoint device ranges. -/
structure ValidChunks (info : FsInfo) : Prop where
  chunk : ∀ map ∈ info.mappingTree, ∃ profile, ValidChunk info map profile
  apart : ∀ map map' profile profile', ValidChunk info map profile →
    ValidChunk info map' profile' → map ≠ map' →
    ∀ i < map.numStripes, ∀ j < map'.numStripes, (map.stripe i).dev = (map'.stripe j).dev →
    (map.stripe i).physical + map.stripeSize profile ≤ (map'.stripe j).physical ∨
      (map'.stripe j).physical + map'.stripeSize profile' ≤ (map.stripe i).physical

def ExtentBuffer.Covers (eb : ExtentBuffer) (y : ℕ) : Prop := eb.start ≤ y ∧ y < eb.start + eb.len

instance (eb : ExtentBuffer) (y : ℕ) : Decidable (eb.Covers y) :=
  inferInstanceAs (Decidable (eb.start ≤ y ∧ y < eb.start + eb.len))

def MapLookup.Covers (map : MapLookup) (y : ℕ) : Prop :=
  map.ce.start ≤ y ∧ y < map.ce.start + map.ce.size

/-- After a write every mirror has the buffer, and all other addresses of the filesystem read as
before. -/
structure EbRoundTrip (info : FsInfo) (map : MapLookup) (devs devs' : Devices) (eb : ExtentBuffer) :
    Prop where
  range : ∀ m, ReadMirror map m → ∀ data, ∃ out,
    readWholeEb info devs' { eb with data := data } m = .ok (0, { eb with data := out }) ∧
      ∀ k < eb.len, out k = eb.data k
  others : ∀ map' ∈ info.mappingTree, ∀ y, map'.Covers y → ¬ eb.Covers y →
    ∀ m, ReadMirror map' m → ∀ buf,
      readDataFromDisk info devs' buf y 1 m = readDataFromDisk info devs buf y 1 m

/-! ## Where the bytes of a buffer go -/

/-- The stripes to which a buffer without parity is written, all of it from their start on. -/
def writePlaces (map : MapLookup) (start : ℕ) : List BioStripe :=
  let plan := stripePlan map .write 0 false (start - map.ce.start)
  (List.range' plan.stripeIndex plan.numStripes).map
    (map.stripeAt (plan.stripeNr * map.stripeLen + plan.stripeOffset))

/-- The byte of the buffer that is written to the place of an address. With parity it is its own
byte, in the full stripe in which the buffer starts. -/
def landing (map : MapLookup) (eb : ExtentBuffer) (y : ℕ) (place : ℕ × ℕ) : Option ℕ :=
  if map.hasParity then
    if eb.Covers y ∧ fullStripe map y = fullStripe map eb.start then some (y - eb.start) else none
  else landed eb.len place (writePlaces map eb.start)

/-- The place from which `read_whole_eb` takes an address of the buffer. -/
def ebPlace (info : FsInfo) (devs : Devices) (map : MapLookup) (eb : ExtentBuffer) (m y : ℕ) :
    Option (ℕ × ℕ) :=
  if info.unmapped eb.start then (info.firstDevice devs).map fun d => (d, y)
  else some (readPlace map m y)

/-- What lands at the places of the buffer, or what was there if nothing does, are its bytes, and
what lands at other places was there already. -/
structure LandsRight (info : FsInfo) (map : MapLookup) (devs : Devices) (eb : ExtentBuffer) :
    Prop where
  range : ∀ y, eb.Covers y → ∀ m, ReadMirror map m → ∃ place, ebPlace info devs map eb m y = some place ∧
    ((landing map eb y place).map eb.data).or (byteAt devs place) = some (eb.data (y - eb.start))
  others : ∀ map' ∈ info.mappingTree, map'.ce.start + map'.ce.size < 2 ^ 64 →
    ∀ y, map'.Covers y → ¬ eb.Covers y → ∀ m, ReadMirror map' m →
    ∀ k, landing map eb y (readPlace map' m y) = some k →
      byteAt devs (readPlace map' m y) = some (eb.data k)

/-- With parity, the buffer or a stripe that holds bytes to keep is read from device 1 instead of
through the mapping. -/
def EbReadsAround (info : FsInfo) (map : MapLookup) (eb : ExtentBuffer) : Prop :=
  map.hasParity ∧ (info.unmapped eb.start ∨ ∃ x, map.Covers x ∧ ¬ eb.Covers x ∧
    fullStripe map x = fullStripe map eb.start ∧
    info.unmapped (map.ce.start + (x - map.ce.start) / map.stripeLen * map.stripeLen))

/-- What a write has done to the places that are read. -/
structure EbWritten (info : FsInfo) (map : MapLookup) (devs devs' : Devices) (eb : ExtentBuffer) :
    Prop where
  shape : SameShape devs devs'
  range : ∀ y, eb.Covers y → ∀ m, ReadMirror map m → ∀ place, ebPlace info devs map eb m y = some place →
    byteAt devs' place = ((landing map eb y place).map eb.data).or (byteAt devs place)
  others : ∀ map' ∈ info.mappingTree, map'.ce.start + map'.ce.size < 2 ^ 64 →
    ∀ y, map'.Covers y → ¬ eb.Covers y → ∀ m, ReadMirror map' m →
    byteAt devs' (readPlace map' m y) =
      ((landing map eb y (readPlace map' m y)).map eb.data).or (byteAt devs (readPlace map' m y))

/-! ## Reading the buffer -/

variable {devs devs' : Devices} {info : FsInfo} {m : ℕ} {map : MapLookup} {profile : Profile}
  {eb : ExtentBuffer}

theorem SameShape.firstDevice_eq (h : SameShape devs devs') (info : FsInfo) :
    info.firstDevice devs' = info.firstDevice devs := by
  unfold FsInfo.firstDevice
  congr 1
  funext d
  rw [(h d).1]

theorem readWholeEbLoop_unmapped {start len d : ℕ} (hunmapped : info.unmapped start = true)
    (hdev : info.firstDevice devs = some d) (data : ℕ → Byte) :
    ReadsAll (fun y => byteAt devs (d, y)) start len 0 data
      (readWholeEbLoop info devs start m len 0 len data) := by
  rcases Nat.eq_zero_or_pos len with rfl | hpos
  · rfl
  · have hsrc : wholeEbSource info devs start m 0 len = .ok (some (devs d, start, len)) := by
      simp only [wholeEbSource, hunmapped, if_true, hdev]
    have honce := readWholeEbLoop_once hpos hpos hsrc data
    have hr : Runs len (fun _ => len) fun y => (d, y) := ⟨fun _ _ => hpos, fun _ _ _ => rfl⟩
    have hiff := hr.fits_iff devs hpos (le_refl len) (a := start)
    rw [ReadsAll, ← if_congr hiff rfl rfl]
    split
    · rename_i hfit
      rw [if_pos hfit] at honce
      have hre := (hr.pread_run hpos le_rfl (hiff.mp hfit) data 0).2
      rw [pread, hfit.moved_eq, Int.toNat_natCast] at hre
      rw [honce, (Prod.mk.inj hre).2]
    · rename_i hfit
      rwa [if_neg hfit] at honce

theorem readWholeEb_ok_iff (info : FsInfo) (devs : Devices) (eb : ExtentBuffer) (m : ℕ)
    (out : ℕ → Byte) :
    readWholeEb info devs eb m = .ok (0, { eb with data := out }) ↔
      readWholeEbLoop info devs eb.start m eb.len 0 eb.len eb.data = .ok (0, out) := by
  rw [readWholeEb]
  cases readWholeEbLoop info devs eb.start m eb.len 0 eb.len eb.data with
  | error fault => simp
  | ok result =>
    obtain ⟨ret, data⟩ := result
    simp

theorem InTree.readWholeEb_eq_iff (h : InTree info map profile) (hm : Mirror map profile m)
    (devs : Devices) (hlow : map.ce.start ≤ eb.start)
    (hhigh : eb.start + eb.len ≤ map.ce.start + map.ce.size) :
    (∀ data, ∃ out, readWholeEb info devs { eb with data := data } m =
        .ok (0, { eb with data := out }) ∧ ∀ k < eb.len, out k = eb.data k) ↔
      ∀ y, eb.Covers y → ∃ place, ebPlace info devs map eb m y = some place ∧
        byteAt devs place = some (eb.data (y - eb.start)) := by
  have hl : ∀ data out, readWholeEb info devs { eb with data := data } m =
      .ok (0, { eb with data := out }) ↔
        readWholeEbLoop info devs eb.start m eb.len 0 eb.len data = .ok (0, out) :=
    fun data out => readWholeEb_ok_iff info devs { eb with data := data } m out
  have hidx : ∀ P : ℕ → Byte → Prop, (∀ k < eb.len, P (eb.start + k) (eb.data k)) ↔
      ∀ y, eb.Covers y → P y (eb.data (y - eb.start)) := by
    intro P
    constructor
    · rintro hall y ⟨hle, hlt⟩
      have hy := hall (y - eb.start) (by omega)
      rwa [Nat.add_sub_cancel' hle] at hy
    · intro hall k hk
      have hy := hall (eb.start + k) ⟨by omega, by omega⟩
      rwa [Nat.add_sub_cancel_left] at hy
  simp only [hl]
  cases hunm : info.unmapped eb.start with
  | false =>
    obtain ⟨a, ha⟩ := Nat.exists_eq_add_of_le hlow
    have hst : eb.start + 0 = map.ce.start + a := ha
    rw [readsAll_eq_iff (fun data => (h.mirrorRuns_of_mirror hm).readWholeEbLoop_spec hunm
      hst (by omega : a + eb.len ≤ map.ce.size) le_rfl data) eb.data]
    simp only [← Nat.add_assoc, ← ha, ebPlace, hunm, Bool.false_eq_true, if_false,
      Option.some.injEq, exists_eq_left']
    exact hidx fun y v => byteAt devs (readPlace map m y) = some v
  | true =>
    cases hdev : info.firstDevice devs with
    | some d =>
      rw [readsAll_eq_iff (fun data => readWholeEbLoop_unmapped hunm hdev data) eb.data]
      simp only [ebPlace, hunm, if_true, hdev, Option.map_some, Option.some.injEq, exists_eq_left']
      exact hidx fun y v => byteAt devs (d, y) = some v
    | none =>
      simp only [ebPlace, hunm, if_true, hdev, Option.map_none, reduceCtorEq, false_and,
        exists_false]
      rcases Nat.eq_zero_or_pos eb.len with hz | hpos
      · refine iff_of_true ?_ ?_
        · intro data
          rw [hz]
          exact ⟨data, rfl, by simp⟩
        · rintro y ⟨hle, hlt⟩
          omega
      · refine iff_of_false ?_ fun hall => hall eb.start ⟨le_rfl, by omega⟩
        intro hall
        obtain ⟨out, hr, -⟩ := hall fun _ => 0
        obtain ⟨n, hn⟩ := Nat.exists_eq_succ_of_ne_zero hpos.ne'
        simp only [hn, readWholeEbLoop, wholeEbSource, hunm, hdev] at hr
        cases hr

theorem EbWritten.roundTrip_iff (hval : ValidChunks info) (h : InTree info map profile)
    (hlow : map.ce.start ≤ eb.start) (hhigh : eb.start + eb.len ≤ map.ce.start + map.ce.size)
    (hwritten : EbWritten info map devs devs' eb) :
    EbRoundTrip info map devs devs' eb ↔ LandsRight info map devs eb := by
  have hplace : ∀ m y, ebPlace info devs' map eb m y = ebPlace info devs map eb m y := by
    intro m y
    rw [ebPlace, ebPlace, hwritten.shape.firstDevice_eq]
  have hrange : ∀ m, ReadMirror map m →
      ((∀ data, ∃ out, readWholeEb info devs' { eb with data := data } m =
          .ok (0, { eb with data := out }) ∧ ∀ k < eb.len, out k = eb.data k) ↔
        ∀ y, eb.Covers y → ∃ place, ebPlace info devs map eb m y = some place ∧
          ((landing map eb y place).map eb.data).or (byteAt devs place) =
            some (eb.data (y - eb.start))) := by
    intro m hm
    rw [h.readWholeEb_eq_iff (h.toAccepted.mirror hm) devs' hlow hhigh]
    refine forall₂_congr fun y hy => exists_congr fun place => ?_
    rw [hplace]
    exact and_congr_right fun heq => by rw [hwritten.range y hy m hm place heq]
  have hothers : ∀ map' ∈ info.mappingTree, ∀ y, map'.Covers y → ¬ eb.Covers y → ∀ m,
      ReadMirror map' m →
      ((∀ buf, readDataFromDisk info devs' buf y 1 m = readDataFromDisk info devs buf y 1 m) ↔
        (map'.ce.start + map'.ce.size < 2 ^ 64 → ∀ k,
          landing map eb y (readPlace map' m y) = some k →
            byteAt devs (readPlace map' m y) = some (eb.data k))) := by
    intro map' hmem y hy hout m hm
    obtain ⟨profile', hcheck⟩ := hval.chunk map' hmem
    obtain ⟨a, rfl⟩ := Nat.exists_eq_add_of_le hy.1
    have ha : a < map'.ce.size := by
      have := hy.2
      omega
    by_cases hbound : map'.ce.start + map'.ce.size < 2 ^ 64
    · have hr := (hcheck.stored hbound).toInTree.mirrorRuns_of_mirror (hcheck.accepted.mirror hm)
      rw [hr.readByte_eq_iff ha, hwritten.others map' hmem hbound _ hy hout m hm]
      cases landing map eb (map'.ce.start + a) (readPlace map' m (map'.ce.start + a)) with
      | none => simp
      | some k =>
        simp only [Option.some.injEq, forall_eq', hbound, true_imp_iff]
        exact eq_comm
    · -- such a chunk is never found
      have hmap := hcheck.tree.mapBlock_eq hmem ha .read m false
      rw [if_neg hbound] at hmap
      refine iff_of_true ?_ fun hcontra => absurd hcontra hbound
      intro buf
      simp only [readDataFromDisk, readDataLoop, hmap]
  constructor
  · intro htrip
    exact ⟨fun y hy m hm => (hrange m hm).mp (htrip.range m hm) y hy,
      fun map' hmem hbound y hy hout m hm =>
        (hothers map' hmem y hy hout m hm).mp (htrip.others map' hmem y hy hout m hm) hbound⟩
  · intro hlands
    exact ⟨fun m hm => (hrange m hm).mpr fun y hy => hlands.range y hy m hm,
      fun map' hmem y hy hout m hm => (hothers map' hmem y hy hout m hm).mpr
        fun hbound => hlands.others map' hmem hbound y hy hout m hm⟩

end Btrfs.Volumes
