import Btrfs.Verification.Volumes.MapInjective
import Btrfs.Verification.Shared.Calls

/-! # Reverse mapping inverts the mapping -/

namespace Btrfs.Volumes

open ExtentCache Raid56 RbTree

/-! ## The stripes of a column -/

/-- The stripe holds the column of a row, or for parity any column of it. -/
def Profile.Holds (n : ℕ) : Profile → ℕ → ℕ → Prop
  | .single, col, i | .raid0, col, i => i = col
  | .raid1, _, i | .dup, _, i => i < n
  | .raid10, col, i => i / 2 = col
  | .raid5, _, _ | .raid6, _, _ => True

/-- The stripes that a plan without a `raid_map` takes hold the column of the address. -/
structure PlanHolds {map : MapLookup} {profile : Profile} (h : Accepted map profile) (a : ℕ)
    (plan : StripePlan) : Prop where
  row : plan.stripeNr = (layout h).row a
  offset : plan.stripeOffset = a % map.stripeLen
  holds : ∀ i ∈ List.range' plan.stripeIndex plan.numStripes,
    profile.Holds map.numStripes ((layout h).col a) i

section

variable {map : MapLookup} {profile : Profile} (h : Accepted map profile)

include h

theorem Accepted.holds_place (a : ℕ) : profile.Holds map.numStripes ((layout h).col a)
    (profile.place map.numStripes ((layout h).row a) ((layout h).col a)) := by
  have hpos := h.stripes_pos
  cases profile with
  | raid1 => exact Nat.mod_lt _ hpos
  | dup => exact hpos
  | raid10 => exact Nat.mul_div_cancel _ (by decide)
  | raid5 => trivial
  | raid6 => trivial
  | _ => rfl

theorem Accepted.holds_mirrorPlace {m : ℕ} (hm : 0 < m)
    (hle : m ≤ profile.numCopies map.numStripes) (a : ℕ) :
    profile.Holds map.numStripes ((layout h).col a)
      (profile.mirrorPlace map.numStripes ((layout h).row a) ((layout h).col a) m) := by
  cases profile with
  | raid1 =>
    simp only [Profile.Holds, Profile.mirrorPlace, Profile.numCopies] at hle ⊢
    omega
  | dup =>
    simp only [Profile.Holds, Profile.mirrorPlace, Profile.numCopies] at hle ⊢
    omega
  | raid10 =>
    simp only [Profile.Holds, Profile.mirrorPlace, Profile.numCopies] at hle ⊢
    omega
  | raid5 => trivial
  | raid6 => trivial
  | _ => rfl

theorem Accepted.planHolds_read {m : ℕ} (hle : m ≤ profile.numCopies map.numStripes) (a : ℕ) :
    PlanHolds h a (stripePlan map .read m false a) := by
  rcases Nat.eq_zero_or_pos m with rfl | hm
  · rw [h.stripePlan_read]
    refine ⟨rfl, rfl, ?_⟩
    intro i hi
    obtain rfl : i = _ := by simpa using hi
    exact h.holds_place a
  · rw [h.stripePlan_mirror hm]
    refine ⟨rfl, rfl, ?_⟩
    intro i hi
    obtain rfl : i = _ := by simpa using hi
    exact h.holds_mirrorPlace hm hle a

theorem Accepted.planHolds (rw : Rw) {m : ℕ} (hle : m ≤ profile.numCopies map.numStripes) (a : ℕ) :
    PlanHolds h a (stripePlan map rw m false a) := by
  cases rw with
  | read => exact h.planHolds_read hle a
  | write =>
    cases hparity : profile.parity with
    | true =>
      rw [h.stripePlan_write_data hparity]
      exact h.planHolds_read hle a
    | false =>
      rw [h.stripePlan_write_mirror hparity, h.stripePlan_write hparity]
      refine ⟨rfl, rfl, ?_⟩
      intro i hi
      rw [List.mem_range'_1] at hi
      cases profile <;> simp only [Profile.copyRange, Profile.Holds] at hi ⊢ <;> omega

end

/-! ## One stripe -/

section

variable {map : MapLookup} {profile : Profile} (h : Accepted map profile)

def rmapLen (map : MapLookup) (profile : Profile) : ℕ :=
  if profile.parity then map.stripeLen * profile.columns map.numStripes else map.stripeLen

/-- The number of the unit, or for parity of the row, that a stripe has at a row. -/
def Profile.rmapNr (n : ℕ) : Profile → ℕ → ℕ → ℕ
  | .raid0, row, i => row * n + i
  | .raid10, row, i => (row * n + i) / 2
  | _, row, _ => row

theorem Profile.rmapNr_of_parity {profile : Profile} (hpar : profile.parity = true) (n row i : ℕ) :
    profile.rmapNr n row i = row := by
  cases profile with
  | raid5 => rfl
  | raid6 => rfl
  | _ => cases hpar

theorem Profile.rmapNr_raid10 {n : ℕ} (heven : n % 2 = 0) (row i : ℕ) :
    Profile.raid10.rmapNr n row i = row * (n / 2) + i / 2 := by
  have hmul : row * n = 2 * (row * (n / 2)) := by
    have hhalf : n = 2 * (n / 2) := by omega
    conv_lhs => rw [hhalf]
    ring
  simp only [Profile.rmapNr]
  rw [hmul, Nat.mul_add_div (by decide)]

include h

theorem Accepted.rmapLengths'_eq :
    rmapLengths' map = .ok (map.ce.size / profile.columns map.numStripes, rmapLen map profile) := by
  have hcols := h.columns_pos
  have hcount := h.count
  have hd := h.nrDataStripes_eq
  simp only [rmapLengths', h.has_raid10, h.has_raid0, h.has_parity]
  cases profile with
  | raid10 =>
    have hfac : divide map.numStripes map.subStripes = .ok (map.numStripes / 2) := by
      rw [hcount.1]
      rfl
    simp only [Profile.columns] at hcols ⊢
    simp [hfac, divide_of_pos hcols, rmapLen, Profile.parity, bind, Except.bind, pure, Except.pure]
  | raid0 =>
    simp only [Profile.columns] at hcols ⊢
    simp [divide_of_pos hcols, rmapLen, Profile.parity, bind, Except.bind, pure, Except.pure]
  | raid5 =>
    simp [hd rfl, divide_of_pos hcols, rmapLen, Profile.parity, bind, Except.bind, pure,
      Except.pure]
  | raid6 =>
    simp [hd rfl, divide_of_pos hcols, rmapLen, Profile.parity, bind, Except.bind, pure,
      Except.pure]
  | _ => simp [Profile.columns, rmapLen, Profile.parity, pure, Except.pure]

theorem Accepted.rmapStripeNr_eq (row i : ℕ) :
    rmapStripeNr map row i = .ok (profile.rmapNr map.numStripes row i) := by
  have hcount := h.count
  simp only [rmapStripeNr, h.has_raid10, h.has_raid0]
  cases profile with
  | raid10 =>
    rw [hcount.1]
    rfl
  | _ => rfl

/-- The address for a stripe that holds a column is the unit, or for parity the row, of every
address of the column. -/
theorem Accepted.rmap_covers {a i : ℕ} (hhol : profile.Holds map.numStripes ((layout h).col a) i) :
    profile.rmapNr map.numStripes ((layout h).row a) i * rmapLen map profile ≤ a ∧
      a < profile.rmapNr map.numStripes ((layout h).row a) i * rmapLen map profile +
        rmapLen map profile := by
  have hsplit := (layout h).address_eq a
  have hcol := (layout h).col_lt a
  have hmod := (layout h).mod_unit_lt a
  have hu : (layout h).unit = map.stripeLen := rfl
  have hcolumns : (layout h).columns = profile.columns map.numStripes := rfl
  have hcount := h.count
  rw [hu, hcolumns] at hsplit
  rw [hu] at hmod
  rw [hcolumns] at hcol
  generalize (layout h).row a = row at *
  generalize (layout h).col a = col at *
  by_cases hparity : profile.parity = true
  · -- the units of a row are below each other
    rw [profile.rmapNr_of_parity hparity, rmapLen, if_pos hparity]
    have hrow : (row * profile.columns map.numStripes + col) * map.stripeLen =
        row * (map.stripeLen * profile.columns map.numStripes) + col * map.stripeLen := by
      ring
    have hl : col * map.stripeLen + map.stripeLen ≤
        map.stripeLen * profile.columns map.numStripes := by
      rw [← Nat.succ_mul, Nat.mul_comm map.stripeLen]
      exact Nat.mul_le_mul_right _ hcol
    omega
  · have hnr : profile.rmapNr map.numStripes row i =
        row * profile.columns map.numStripes + col := by
      cases profile with
      | single =>
        simp only [Profile.columns] at hcol ⊢
        simp only [Profile.rmapNr]
        omega
      | raid0 =>
        rw [hhol]
        rfl
      | raid1 =>
        simp only [Profile.columns] at hcol ⊢
        simp only [Profile.rmapNr]
        omega
      | dup =>
        simp only [Profile.columns] at hcol ⊢
        simp only [Profile.rmapNr]
        omega
      | raid10 =>
        rw [Profile.rmapNr_raid10 hcount.2, hhol]
        rfl
      | raid5 => exact absurd rfl hparity
      | raid6 => exact absurd rfl hparity
    rw [hnr, rmapLen, if_neg hparity]
    omega

theorem Accepted.rmap_inside
    (hrows : map.stripeLen * profile.columns map.numStripes ∣ map.ce.size) {row i : ℕ}
    (hi : i < map.numStripes)
    (hrow : row < map.ce.size / profile.columns map.numStripes / map.stripeLen) :
    profile.rmapNr map.numStripes row i * rmapLen map profile < map.ce.size := by
  have hcols := h.columns_pos
  have hlen := h.stripeLen_pos
  have hcount := h.count
  obtain ⟨rows, hsi⟩ := hrows
  rw [hsi, Nat.mul_right_comm, Nat.mul_div_cancel _ hcols, Nat.mul_div_cancel_left _ hlen] at hrow
  rw [hsi]
  by_cases hparity : profile.parity = true
  · rw [profile.rmapNr_of_parity hparity, rmapLen, if_pos hparity, Nat.mul_comm]
    exact Nat.mul_lt_mul_of_pos_left hrow (Nat.mul_pos hlen hcols)
  · have hnr : profile.rmapNr map.numStripes row i < profile.columns map.numStripes * rows := by
      have hs : profile.columns map.numStripes * row + profile.columns map.numStripes ≤
          profile.columns map.numStripes * rows := by
        exact Nat.mul_le_mul_left _ hrow
      cases profile with
      | single =>
        simp only [Profile.columns, Profile.rmapNr] at hs ⊢
        omega
      | raid0 =>
        simp only [Profile.columns, Profile.rmapNr] at hs ⊢
        rw [Nat.mul_comm row]
        omega
      | raid1 =>
        simp only [Profile.columns, Profile.rmapNr] at hs ⊢
        omega
      | dup =>
        simp only [Profile.columns, Profile.rmapNr] at hs ⊢
        omega
      | raid10 =>
        have heven : map.numStripes % 2 = 0 := hcount.2
        rw [Profile.rmapNr_raid10 heven, Nat.mul_comm row]
        simp only [Profile.columns] at hs ⊢
        omega
      | raid5 => exact absurd rfl hparity
      | raid6 => exact absurd rfl hparity
    rw [rmapLen, if_neg hparity, Nat.mul_assoc, Nat.mul_comm map.stripeLen]
    exact Nat.mul_lt_mul_of_pos_right hnr hlen

end

/-! ## The loop -/

/-- The stripe takes part for a device and an offset on it. -/
def Meets (devidOf : ℕ → ℕ) (length physical devid : ℕ) (stripe : BioStripe) : Prop :=
  (devid = 0 ∨ devidOf stripe.dev = devid) ∧ stripe.physical ≤ physical ∧
    physical < wrap64 (stripe.physical + length)

/-- The addresses found so far: none twice, and all of the chunk. -/
structure Addresses (map : MapLookup) (buf : List ℕ) : Prop where
  nodup : buf.Nodup
  inside : ∀ A ∈ buf, map.ce.start ≤ A ∧ A < map.ce.start + map.ce.size

section

variable {map : MapLookup} {profile : Profile} (h : Accepted map profile)
  (hrows : map.stripeLen * profile.columns map.numStripes ∣ map.ce.size)
  (hbound : map.ce.start + map.ce.size < 2 ^ 64) {devidOf : ℕ → ℕ} {physical devid : ℕ}

include h hrows hbound

theorem Accepted.rmapStripe_spec {i : ℕ} (hi : i < map.numStripes) (stripe : BioStripe)
    {buf : List ℕ} (hbuf : Addresses map buf) :
    ∃ buf', rmapStripe' devidOf map (map.ce.size / profile.columns map.numStripes)
        (rmapLen map profile) physical devid i stripe buf = .ok buf' ∧
      Addresses map buf' ∧ buf ⊆ buf' ∧
      (Meets devidOf (map.ce.size / profile.columns map.numStripes) physical devid stripe →
        map.ce.start + profile.rmapNr map.numStripes
          ((physical - stripe.physical) / map.stripeLen) i * rmapLen map profile ∈ buf') := by
  unfold rmapStripe'
  by_cases hdev : devid ≠ 0 ∧ devidOf stripe.dev ≠ devid
  · rw [if_pos hdev]
    refine ⟨buf, rfl, hbuf, List.Subset.refl _, ?_⟩
    rintro ⟨hz | hs, -⟩
    · exact absurd hz hdev.1
    · exact absurd hs hdev.2
  rw [if_neg hdev]
  by_cases hout : physical < stripe.physical ∨
      wrap64 (stripe.physical + map.ce.size / profile.columns map.numStripes) ≤ physical
  · rw [if_pos hout]
    refine ⟨buf, rfl, hbuf, List.Subset.refl _, ?_⟩
    rintro ⟨-, hlo, hhi⟩
    omega
  rw [if_neg hout]
  have hw : wrap64 (stripe.physical + map.ce.size / profile.columns map.numStripes) ≤
      stripe.physical + map.ce.size / profile.columns map.numStripes := Nat.mod_le _ _
  have hrow : (physical - stripe.physical) / map.stripeLen <
      map.ce.size / profile.columns map.numStripes / map.stripeLen := by
    apply Nat.div_lt_div_of_lt_of_dvd
    · obtain ⟨rows, hsi⟩ := hrows
      rw [hsi, Nat.mul_right_comm, Nat.mul_div_cancel _ h.columns_pos]
      exact Nat.dvd_mul_right _ _
    · omega
  have hinside := h.rmap_inside hrows hi hrow
  have haddress : wrap64 (map.ce.start + profile.rmapNr map.numStripes
      ((physical - stripe.physical) / map.stripeLen) i * rmapLen map profile) =
        map.ce.start + profile.rmapNr map.numStripes
          ((physical - stripe.physical) / map.stripeLen) i * rmapLen map profile :=
    wrap64_of_lt (by omega)
  simp only [divide_of_pos h.stripeLen_pos, h.rmapStripeNr_eq, bind, Except.bind, haddress]
  generalize hA : map.ce.start + profile.rmapNr map.numStripes
    ((physical - stripe.physical) / map.stripeLen) i * rmapLen map profile = A
  by_cases hmem : A ∈ buf
  · rw [if_pos hmem]
    exact ⟨buf, rfl, hbuf, List.Subset.refl _, fun _ => hmem⟩
  · rw [if_neg hmem]
    refine ⟨buf ++ [A], rfl, ⟨?_, ?_⟩, List.subset_append_left _ _, fun _ => by simp⟩
    · rw [List.nodup_append]
      refine ⟨hbuf.nodup, List.nodup_singleton A, ?_⟩
      intro B hB C hC heq
      rw [List.mem_singleton.mp hC] at heq
      exact hmem (heq ▸ hB)
    · refine List.forall_mem_append.mpr ⟨hbuf.inside, fun B hB => ?_⟩
      rw [List.mem_singleton.mp hB]
      omega

theorem Accepted.rmapStripes_spec {stripes : List BioStripe} {i : ℕ}
    (hlen : i + stripes.length ≤ map.numStripes) {buf : List ℕ} (hbuf : Addresses map buf) :
    ∃ buf', rmapStripes devidOf map (map.ce.size / profile.columns map.numStripes)
        (rmapLen map profile) physical devid i stripes buf = .ok buf' ∧
      Addresses map buf' ∧ buf ⊆ buf' ∧
      ∀ (j : ℕ) (stripe : BioStripe), stripes[j]? = some stripe →
        Meets devidOf (map.ce.size / profile.columns map.numStripes) physical devid stripe →
        map.ce.start + profile.rmapNr map.numStripes
          ((physical - stripe.physical) / map.stripeLen) (i + j) * rmapLen map profile ∈ buf' := by
  induction stripes generalizing i buf with
  | nil => exact ⟨buf, rfl, hbuf, List.Subset.refl _, by simp⟩
  | cons s rest ih =>
    rw [List.length_cons] at hlen
    obtain ⟨buf₁, hround, hbuf₁, hsub₁, hfound⟩ :=
      @Accepted.rmapStripe_spec _ _ h hrows hbound devidOf physical devid i (by omega) s _ hbuf
    obtain ⟨buf₂, hl, hbuf₂, hsub₂, hr⟩ := ih (i := i + 1) (by omega) hbuf₁
    refine ⟨buf₂, bind_eq_ok.mpr ⟨buf₁, hround, hl⟩, hbuf₂, List.Subset.trans hsub₁ hsub₂, ?_⟩
    intro j stripe hj hmeets
    cases j with
    | zero =>
      obtain rfl : s = stripe := by simpa using hj
      exact hsub₂ (hfound hmeets)
    | succ j =>
      have hcell := hr j stripe (by simpa using hj) hmeets
      have hidx : i + 1 + j = i + (j + 1) := by omega
      rw [hidx] at hcell
      exact hcell

end

/-! ## The call -/

/-- `btrfs_rmap_block` finds an address of the chunk back from one of its copies. -/
def Inverted (devidOf : ℕ → ℕ) (tree : MapTree) (map : MapLookup) (a : ℕ) (s : BioStripe) : Prop :=
  ∃ logical stripeLen,
    btrfsRmapBlock' devidOf tree map.ce.start s.physical (devidOf s.dev) = .ok (logical, stripeLen) ∧
    Addresses map logical ∧ ∃ A ∈ logical, A ≤ map.ce.start + a ∧ map.ce.start + a < A + stripeLen

section

variable {tree : MapTree} {map : MapLookup} {profile : Profile} (h : Accepted map profile)
  (hrows : map.stripeLen * profile.columns map.numStripes ∣ map.ce.size)
  (hbound : map.ce.start + map.ce.size < 2 ^ 64) (devidOf : ℕ → ℕ)

include h hrows hbound

theorem Accepted.inverted (hfound : Found tree map 0)
    (hf : ∀ s ∈ map.stripes, s.physical + map.ce.size / profile.columns map.numStripes < 2 ^ 64)
    {a i : ℕ} (ha : a < map.ce.size) (hi : i < map.numStripes)
    (hholds : profile.Holds map.numStripes ((layout h).col a) i) {plan : StripePlan}
    (hrow : plan.stripeNr = (layout h).row a) (hoff : plan.stripeOffset = a % map.stripeLen) :
    Inverted devidOf tree map a (plan.target map i) := by
  obtain ⟨-, ce, hsearch, rfl⟩ := hfound
  have hlt : i < ce.entry.stripes.length := hi
  have hstripe : ce.entry.stripe i = ce.entry.stripes[i] := by
    simp [MapLookup.stripe, List.getElem?_eq_getElem hlt]
  have hdepth := h.depth_lt_stripe hrows ha
  have hend := hf _ (List.getElem_mem hlt)
  have hphys : (plan.target ce.entry i).physical =
      ce.entry.stripes[i].physical + (layout h).depth a := by
    have hu : (layout h).unit = ce.entry.stripeLen := rfl
    simp only [StripePlan.target, hrow, hoff, hstripe]
    rw [Nat.add_assoc, Nat.add_comm (a % _), ← hu]
    exact wrap64_of_lt (by rw [← RowLayout.depth]; omega)
  have hdev : (plan.target ce.entry i).dev = ce.entry.stripes[i].dev := by
    rw [StripePlan.target, hstripe]
  have hmeets : Meets devidOf (ce.entry.ce.size / profile.columns ce.entry.numStripes)
      (plan.target ce.entry i).physical (devidOf (plan.target ce.entry i).dev)
      ce.entry.stripes[i] := by
    refine ⟨Or.inr (by rw [hdev]), by omega, ?_⟩
    rw [wrap64_of_lt hend]
    omega
  obtain ⟨buf, hl, hbuf, -, hmem⟩ := @Accepted.rmapStripes_spec _ _ h hrows hbound devidOf
    (plan.target ce.entry i).physical (devidOf (plan.target ce.entry i).dev) ce.entry.stripes 0
    (by rw [Nat.zero_add]; rfl) [] ⟨List.nodup_nil, by simp⟩
  have hA := hmem i _ (List.getElem?_eq_getElem hlt) hmeets
  have hunits : ((plan.target ce.entry i).physical - ce.entry.stripes[i].physical) /
      ce.entry.stripeLen = (layout h).row a := by
    rw [hphys, Nat.add_sub_cancel_left]
    exact (layout h).depth_div a
  rw [hunits, Nat.zero_add] at hA
  have hcovered := h.rmap_covers hholds
  refine ⟨buf, rmapLen ce.entry profile, ?_, hbuf, _, hA, by omega, by omega⟩
  unfold btrfsRmapBlock'
  rw [Nat.add_zero] at hsearch
  rw [hsearch]
  exact bind_eq_ok.mpr ⟨_, h.rmapLengths'_eq, bind_eq_ok.mpr ⟨buf, hl, rfl⟩⟩

end

/-- Every copy that `__btrfs_map_block` reports for an address of a chunk of whole full stripes
leads back to the unit, or with parity to the full stripe, of the address. Neither the chunks nor
the stripes of the chunk end past the last address. -/
theorem btrfsRmapBlock'_inverts {tree : MapTree} (h : ReadChunks tree)
    (hbound : ∀ map ∈ inorder tree, map.ce.start + map.ce.size < 2 ^ 64) {chunk : Chunk}
    {findDevice : ℕ → ℕ} {start : ℕ} (hmem : mapOfChunk findDevice start chunk ∈ inorder tree)
    {fullStripe stripeLength : ℕ} (hfull : chunkBytesByType chunk.type chunk.stripeLen
      chunk.stripes.length chunk.subStripes = .ok fullStripe) (hrows : fullStripe ∣ chunk.length)
    (hlength : btrfsStripeLength chunk = .ok stripeLength)
    (hfits : ∀ s ∈ chunk.stripes, s.offset + stripeLength < 2 ^ 64) (devidOf : ℕ → ℕ) {a : ℕ}
    (ha : a < chunk.length) (rw : Rw) {mirrorNum : ℕ}
    (hmirror : mirrorNum ≤ copiesOf (mapOfChunk findDevice start chunk)) (raidMapRet : Bool) :
    ∃ result, btrfsMapBlock' 2 tree rw (start + a) true mirrorNum raidMapRet = .ok result ∧
      result.ret = 0 ∧
      (result.raidMap = none → ∀ s ∈ result.stripes,
        Inverted devidOf tree (mapOfChunk findDevice start chunk) a s) := by
  have ht := h.acceptedTree
  obtain ⟨profile, hmap⟩ := ht.accepted _ hmem
  rw [hmap.chunkBytesByType_eq] at hfull
  rw [hmap.btrfsStripeLength_eq] at hlength
  obtain rfl := Except.ok.inj hfull
  obtain rfl := Except.ok.inj hlength
  have hsi : chunk.length = (mapOfChunk findDevice start chunk).ce.size := rfl
  have hlen : chunk.stripeLen = (mapOfChunk findDevice start chunk).stripeLen := rfl
  have hstrs : ∀ s ∈ (mapOfChunk findDevice start chunk).stripes,
      s.physical + chunk.length / profile.columns chunk.stripes.length < 2 ^ 64 := by
    intro s hs
    obtain ⟨s', hs', rfl⟩ := List.mem_map.mp hs
    exact hfits s' hs'
  rw [← numStripes_mapOfChunk findDevice start chunk, hsi] at hstrs
  rw [← numStripes_mapOfChunk findDevice start chunk, hsi, hlen] at hrows
  rw [hsi] at ha
  change ∃ result, btrfsMapBlock' 2 tree rw ((mapOfChunk findDevice start chunk).ce.start + a) true
    mirrorNum raidMapRet = .ok result ∧ _
  generalize mapOfChunk findDevice start chunk = map at *
  have hend := hbound map hmem
  obtain ⟨ce, hsearch, hent⟩ :=
    ht.search_found hbound hmem (Nat.le_add_right map.ce.start a) (by omega)
  have hz : Found tree map 0 :=
    ⟨by omega, ht.search_found hbound hmem (Nat.le_add_right _ 0) (by omega)⟩
  subst hent
  rw [hmap.copiesOf_eq] at hmirror
  obtain ⟨allocated, hen, hc⟩ := @mapBlockRounds_retry mirrorNum
    (if true ∧ rw = .read then 1 else 8) _ tree true raidMapRet ce rw hsearch (Nat.le_add_right _ a)
  rw [Nat.add_sub_cancel_left] at hc
  cases hwanted : wantsRaidMap ce.entry rw true mirrorNum raidMapRet with
  | true =>
    have hparity : profile.parity = true := by
      rw [wantsRaidMap, hmap.has_parity] at hwanted
      simp only [Bool.and_eq_true] at hwanted
      exact hwanted.1.1.1
    rw [hwanted] at hen hc
    obtain ⟨stripes, raidMap, hresult⟩ := hmap.mapFound_raidMap rw a hmirror hparity (hen rfl)
    refine ⟨_, hc.trans hresult, rfl, ?_⟩
    intro hn
    cases hn
  | false =>
    rw [hwanted] at hen hc
    have hdirect := hmap.mapFound_direct rw a hmirror (hen rfl)
    refine ⟨_, hc.trans hdirect, rfl, ?_⟩
    intro _ s hs
    obtain ⟨i, hi, rfl⟩ := List.mem_map.mp hs
    have hplan := hmap.planHolds rw hmirror a
    have hinside := (hmap.planFits rw false a hmirror Bool.noConfusion).inside
    have hlt : i < ce.entry.numStripes := (List.mem_range'_1.mp hi).2.trans_le hinside
    exact hmap.inverted hrows hend devidOf hz hstrs ha hlt (hplan.holds i hi) hplan.row hplan.offset

def mirroredChunk (offset : ℕ) : Chunk :=
  ⟨65536, 65536, BTRFS_BLOCK_GROUP_DATA ||| BTRFS_BLOCK_GROUP_RAID1, 4096, 1, [⟨1, 0⟩, ⟨2, offset⟩]⟩

def mirroredTree (offset : ℕ) : MapTree :=
  .node .black .nil (mapOfChunk id 1048576 (mirroredChunk offset)) .nil

theorem mirroredTree_bound (offset : ℕ) :
    ∀ map ∈ inorder (mirroredTree offset), map.ce.start + map.ce.size < 2 ^ 64 := by
  intro map hmap
  obtain rfl : map = mapOfChunk id 1048576 (mirroredChunk offset) := by
    simpa [mirroredTree] using hmap
  simp [mapOfChunk, mirroredChunk]

/-- A write to both copies of a chunk. -/
theorem btrfsRmapBlock'_inverts_raid1 :
    ∃ result, btrfsMapBlock' 2 (mirroredTree 131072) .write (1048576 + 5) true 0 false =
        .ok result ∧ result.ret = 0 ∧
      (result.raidMap = none → ∀ s ∈ result.stripes, Inverted id (mirroredTree 131072)
        (mapOfChunk id 1048576 (mirroredChunk 131072)) 5 s) := by
  have hr : readOneChunk 4096 id .nil 1048576 (mirroredChunk 131072) 0 112 =
      .ok (.ok (mirroredTree 131072)) := by
    decide +kernel
  exact btrfsRmapBlock'_inverts (ReadChunks.read .nil (by decide) (by decide) hr)
    (mirroredTree_bound 131072) (by simp [mirroredTree])
    (by decide +kernel : _ = Except.ok 65536) (by decide) (by decide +kernel : _ = Except.ok 65536)
    (by decide) id (by decide) .write (Nat.zero_le _) false

/-- A stripe up to the last offset of a device is not found: its end wraps to zero. -/
theorem btrfsRmapBlock'_misses_last_stripe : ReadChunks (mirroredTree (2 ^ 64 - 65536)) ∧
    btrfsMapBlock' 2 (mirroredTree (2 ^ 64 - 65536)) .write 1048576 true 0 false =
      .ok ⟨0, 65536, [⟨1, 0⟩, ⟨2, 2 ^ 64 - 65536⟩], none⟩ ∧
    btrfsRmapBlock' id (mirroredTree (2 ^ 64 - 65536)) 1048576 (2 ^ 64 - 65536) 2 =
      .ok ([], 65536) := by
  have hr : readOneChunk 4096 id .nil 1048576 (mirroredChunk (2 ^ 64 - 65536)) 0 112 =
      .ok (.ok (mirroredTree (2 ^ 64 - 65536))) := by
    decide +kernel
  refine ⟨ReadChunks.read .nil (by decide) (by decide) hr, ?_, ?_⟩
  · decide +kernel
  · decide +kernel

end Btrfs.Volumes
