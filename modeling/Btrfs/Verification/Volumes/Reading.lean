import Btrfs.Verification.Volumes.MapBlock

/-! # Reading along runs of addresses -/

namespace Btrfs.Volumes

open Raid56

variable {a left rounds len : ℕ} {devs : Devices}

/-- The places of addresses. From each address on, a run of them stands in a row on one device. -/
structure Runs (size : ℕ) (run : ℕ → ℕ) (loc : ℕ → ℕ × ℕ) : Prop where
  pos : ∀ a < size, 0 < run a
  next : ∀ a k, k < run a → loc (a + k) = ((loc a).1, (loc a).2 + k)

/-! ## Buffers -/

/-- What a buffer holds after a read of `n` bytes from an address on. -/
def filled (byte : ℕ → Option Byte) (a n total : ℕ) (buf : ℕ → Byte) : ℕ → Byte :=
  fun x => if total ≤ x ∧ x < total + n then (byte (a + (x - total))).getD 0 else buf x

theorem filled_zero (byte : ℕ → Option Byte) (a total : ℕ) (buf : ℕ → Byte) :
    filled byte a 0 total buf = buf := by
  funext x
  rw [filled, if_neg (by omega)]

theorem filled_filled (byte : ℕ → Option Byte) (a m n total : ℕ) (buf : ℕ → Byte) :
    filled byte (a + m) n (total + m) (filled byte a m total buf) =
      filled byte a (m + n) total buf := by
  funext x
  unfold filled
  by_cases hx : total + m ≤ x
  · have hs : a + m + (x - (total + m)) = a + (x - total) := by omega
    have hiff : (total + m ≤ x ∧ x < total + m + n) ↔ (total ≤ x ∧ x < total + (m + n)) := by omega
    have hnot : ¬ (total ≤ x ∧ x < total + m) := by omega
    simp only [hs, hiff, hnot, if_false]
  · have hnot : ¬ (total + m ≤ x ∧ x < total + m + n) := by omega
    have hiff : (total ≤ x ∧ x < total + m) ↔ (total ≤ x ∧ x < total + (m + n)) := by omega
    simp [hnot, hiff]

/-- The outcome of a loop that reads `left` bytes from an address on: all of them, or an
error. -/
def ReadsAll (byte : ℕ → Option Byte) (a left total : ℕ) (buf : ℕ → Byte)
    (result : Call (ℤ × (ℕ → Byte))) : Prop :=
  if ∀ k < left, (byte (a + k)).isSome then result = .ok (0, filled byte a left total buf)
  else ∃ out, result = .ok (-eio, out)

theorem readsAll_eq_iff {byte : ℕ → Option Byte} {result : (ℕ → Byte) → Call (ℤ × (ℕ → Byte))}
    (h : ∀ buf, ReadsAll byte a left 0 buf (result buf)) (data : ℕ → Byte) :
    (∀ buf, ∃ out, result buf = .ok (0, out) ∧ ∀ k < left, out k = data k) ↔
      ∀ k < left, byte (a + k) = some (data k) := by
  have hfilled : ∀ buf, ∀ k < left, filled byte a left 0 buf k = (byte (a + k)).getD 0 := by
    intro buf k hk
    rw [filled, if_pos ⟨Nat.zero_le k, by omega⟩, Nat.sub_zero]
  constructor
  · intro hr k hk
    obtain ⟨out, hout, hd⟩ := hr fun _ => 0
    have hall := h fun _ => 0
    rw [hout, ReadsAll] at hall
    split at hall
    · rename_i hs
      have heq : out = filled byte a left 0 fun _ => 0 := (Prod.mk.inj (Except.ok.inj hall)).2
      obtain ⟨v, hv⟩ := Option.isSome_iff_exists.mp (hs k hk)
      have hk' := hd k hk
      rw [heq, hfilled _ k hk, hv, Option.getD_some] at hk'
      rw [hv, hk']
    · obtain ⟨out', hout'⟩ := hall
      have heio : (0 : ℤ) = -eio := (Prod.mk.inj (Except.ok.inj hout')).1
      exact absurd heio (by decide)
  · intro hbytes buf
    have hall := h buf
    have hs : ∀ k < left, (byte (a + k)).isSome := by
      intro k hk
      rw [hbytes k hk]
      rfl
    rw [ReadsAll, if_pos hs] at hall
    refine ⟨_, hall, ?_⟩
    intro k hk
    rw [hfilled _ k hk, hbytes k hk, Option.getD_some]

/-- A loop reads all bytes when each of its rounds reads a run. -/
theorem readsAll_of_rounds {size : ℕ} {run : ℕ → ℕ} (hrun : ∀ a < size, 0 < run a)
    (byte : ℕ → Option Byte) (loop : ℕ → ℕ → ℕ → ℕ → (ℕ → Byte) → Call (ℤ × (ℕ → Byte)))
    (Inv : ℕ → ℕ → Prop) (hd : ∀ rounds a total buf, loop rounds a 0 total buf = .ok (0, buf))
    (hok : ∀ rounds a left total buf, 0 < left → a < size → Inv a total →
      (∀ k < min left (run a), (byte (a + k)).isSome) →
      loop (rounds + 1) a left total buf = loop rounds (a + min left (run a))
        (left - min left (run a)) (total + min left (run a))
        (filled byte a (min left (run a)) total buf) ∧
      Inv (a + min left (run a)) (total + min left (run a)))
    (herr : ∀ rounds a left total buf, 0 < left → a < size → Inv a total →
      (¬ ∀ k < min left (run a), (byte (a + k)).isSome) →
      ∃ out, loop (rounds + 1) a left total buf = .ok (-eio, out)) {total : ℕ}
    (hin : a + left ≤ size) (hrounds : left ≤ rounds) (hinv : Inv a total) (buf : ℕ → Byte) :
    ReadsAll byte a left total buf (loop rounds a left total buf) := by
  induction rounds generalizing a left total buf with
  | zero =>
    have hz : left = 0 := by omega
    subst hz
    rw [ReadsAll, if_pos (by simp), filled_zero, hd]
  | succ rounds ih =>
    by_cases hz : left = 0
    · subst hz
      rw [ReadsAll, if_pos (by simp), filled_zero, hd]
    · have hpos : 0 < left := Nat.pos_of_ne_zero hz
      have ha : a < size := by omega
      have hrunPos := hrun a ha
      by_cases hall : ∀ k < min left (run a), (byte (a + k)).isSome
      · -- the bytes behind the run decide
        obtain ⟨hround, hinv'⟩ := hok rounds a left total buf hpos ha hinv hall
        have hin' : a + min left (run a) + (left - min left (run a)) ≤ size := by omega
        have hr := ih hin' (by omega) hinv' (filled byte a (min left (run a)) total buf)
        have hiff : (∀ k < left - min left (run a),
            (byte (a + min left (run a) + k)).isSome) ↔ ∀ k < left, (byte (a + k)).isSome := by
          constructor
          · intro hbehind k hk
            by_cases hkrun : k < min left (run a)
            · exact hall k hkrun
            · have hk' := hbehind (k - min left (run a)) (by omega)
              rwa [Nat.add_assoc, Nat.add_sub_cancel' (not_lt.mp hkrun)] at hk'
          · intro hl k hk
            rw [Nat.add_assoc]
            exact hl _ (by omega)
        have hsum : min left (run a) + (left - min left (run a)) = left := by omega
        rw [hround]
        rwa [ReadsAll, filled_filled, hsum, if_congr hiff rfl rfl] at hr
      · have hnot : ¬ ∀ k < left, (byte (a + k)).isSome :=
          fun hl => hall fun k hk => hl k (lt_of_lt_of_le hk (min_le_left _ _))
        rw [ReadsAll, if_neg hnot]
        exact herr rounds a left total buf hpos ha hinv hall

/-! ## One run -/

section

variable {size : ℕ} {run : ℕ → ℕ} {loc : ℕ → ℕ × ℕ} (h : Runs size run loc)

include h

theorem Runs.fits_iff (devs : Devices) (hpos : 0 < len) (hlen : len ≤ run a) :
    (devs (loc a).1).Fits len (loc a).2 ↔ ∀ k < len, (byteAt devs (loc (a + k))).isSome := by
  constructor
  · rintro ⟨hfd, hs⟩ k hk
    rw [h.next a k (hk.trans_le hlen), byteAt, if_pos ⟨hfd, by simp only; omega⟩]
    rfl
  · intro hall
    have hl := hall (len - 1) (by omega)
    rw [h.next a _ (by omega), byteAt] at hl
    split at hl
    · rename_i hok
      have hend := hok.2
      simp only at hend
      exact ⟨hok.1, by omega⟩
    · cases hl

theorem Runs.pread_run (hpos : 0 < len) (hlen : len ≤ run a)
    (hall : ∀ k < len, (byteAt devs (loc (a + k))).isSome) (buf : ℕ → Byte) (total : ℕ) :
    0 < (devs (loc a).1).fd ∧ pread (devs (loc a).1) buf total len (loc a).2 =
      ((len : ℤ), filled (fun a => byteAt devs (loc a)) a len total buf) := by
  have hfit := (h.fits_iff devs hpos hlen).mpr hall
  refine ⟨hfit.1, ?_⟩
  rw [pread, hfit.moved_eq, Int.toNat_natCast]
  refine Prod.ext rfl ?_
  funext x
  simp only [copyBytes, filled]
  split
  · have hend := hfit.2
    rw [h.next a _ (by omega), byteAt, if_pos ⟨hfit.1, by simp only; omega⟩, Option.getD_some]
  · rfl

theorem Runs.pread_short (hpos : 0 < len) (hlen : len ≤ run a)
    (hall : ¬ ∀ k < len, (byteAt devs (loc (a + k))).isSome) (buf : ℕ → Byte) (total : ℕ) :
    (pread (devs (loc a).1) buf total len (loc a).2).1 ≠ len := by
  intro hmoved
  exact hall ((h.fits_iff devs hpos hlen).mp (Device.fits_of_moved hpos hmoved))

end

/-! ## Whole reads -/

/-- Reads with a mirror number are mapped to the places of a range of addresses. -/
structure MirrorRuns (info : FsInfo) (mirror base size : ℕ) (run : ℕ → ℕ) (loc : ℕ → ℕ × ℕ) : Prop
    extends Runs size run loc where
  mapped : ∀ a < size, btrfsMapBlock info.mappingTree .read (base + a) mirror false =
    .ok (.ok ⟨run a, [⟨(loc a).1, (loc a).2⟩], none⟩)

theorem readExtentFromDisk_short {dev : Device} {data : ℕ → Byte} {off devBytenr : ℕ}
    (h : (pread dev data off len devBytenr).1 ≠ len) :
    readExtentFromDisk dev data off len devBytenr = (-eio, (pread dev data off len devBytenr).2) := by
  simp [readExtentFromDisk, h, ne_eq, ite_self]

section

variable {info : FsInfo} {mirror base size : ℕ} {run : ℕ → ℕ} {loc : ℕ → ℕ × ℕ}
  (h : MirrorRuns info mirror base size run loc)

include h

theorem MirrorRuns.readRound_ok (hpos : 0 < left) (ha : a < size)
    (hall : ∀ k < min left (run a), (byteAt devs (loc (a + k))).isSome) (rounds total : ℕ)
    (buf : ℕ → Byte) :
    readDataLoop info devs mirror (rounds + 1) (base + a) left total buf =
      readDataLoop info devs mirror rounds (base + (a + min left (run a))) (left - min left (run a))
        (total + min left (run a))
        (filled (fun a => byteAt devs (loc a)) a (min left (run a)) total buf) := by
  have hlenPos : 0 < min left (run a) := lt_min hpos (h.pos a ha)
  obtain ⟨hfd, hr⟩ := h.pread_run hlenPos (min_le_right _ _) hall buf total
  have hz : ¬ left = 0 := by omega
  have hneg : ¬ ((min left (run a) : ℕ) : ℤ) < 0 := by omega
  simp only [readDataLoop, hz, if_false, h.mapped a ha, not_le.mpr hfd, hr, hneg, ne_eq,
    not_true_eq_false, Nat.add_assoc]

theorem MirrorRuns.readRound_error (hpos : 0 < left) (ha : a < size)
    (hall : ¬ ∀ k < min left (run a), (byteAt devs (loc (a + k))).isSome) (rounds total : ℕ)
    (buf : ℕ → Byte) :
    ∃ out, readDataLoop info devs mirror (rounds + 1) (base + a) left total buf =
      .ok (-eio, out) := by
  have hlenPos : 0 < min left (run a) := lt_min hpos (h.pos a ha)
  have hr := h.pread_short hlenPos (min_le_right _ _) hall buf total
  have hz : ¬ left = 0 := by omega
  simp only [readDataLoop, hz, if_false, h.mapped a ha]
  split
  · exact ⟨_, rfl⟩
  · have hneg : ¬ (pread (devs (loc a).1) buf total (min left (run a)) (loc a).2).1 < 0 := by
      simp only [pread, Device.moved]
      omega
    rw [if_neg hneg]
    exact ⟨_, rfl⟩

theorem MirrorRuns.readDataLoop_spec (hin : a + left ≤ size) (hrounds : left ≤ rounds) (total : ℕ)
    (buf : ℕ → Byte) :
    ReadsAll (fun a => byteAt devs (loc a)) a left total buf
      (readDataLoop info devs mirror rounds (base + a) left total buf) := by
  refine readsAll_of_rounds h.pos (fun a => byteAt devs (loc a))
    (fun rounds a left total buf => readDataLoop info devs mirror rounds (base + a) left total buf)
    (fun _ _ => True) ?_ ?_ ?_ hin hrounds trivial buf
  · intro rounds a total buf
    cases rounds <;> rfl
  · intro rounds a left total buf hpos ha _ hrun
    exact ⟨h.readRound_ok hpos ha hrun rounds total buf, trivial⟩
  · intro rounds a left total buf hpos ha _ hrun
    exact h.readRound_error hpos ha hrun rounds total buf

theorem MirrorRuns.readByte (ha : a < size) (buf : ℕ → Byte) :
    readDataFromDisk info devs buf (base + a) 1 mirror =
      match byteAt devs (loc a) with
      | some _ => .ok (0, filled (fun a => byteAt devs (loc a)) a 1 0 buf)
      | none => .ok (-eio, buf) := by
  have hone : min 1 (run a) = 1 := min_eq_left (h.pos a ha)
  cases hb : byteAt devs (loc a) with
  | some v =>
    have hall : ∀ k < 1, (byteAt devs (loc (a + k))).isSome := by
      intro k hk
      rw [Nat.lt_one_iff.mp hk, Nat.add_zero, hb]
      rfl
    have hsp : ReadsAll (fun a => byteAt devs (loc a)) a 1 0 buf
        (readDataFromDisk info devs buf (base + a) 1 mirror) :=
      h.readDataLoop_spec ha le_rfl 0 buf
    rwa [ReadsAll, if_pos hall] at hsp
  | none =>
    simp only [readDataFromDisk, readDataLoop, Nat.one_ne_zero, if_false, h.mapped a ha, hone]
    split
    · rfl
    · -- the device is open but ends before the byte
      rw [byteAt] at hb
      have hsh : (devs (loc a).1).moved 1 (loc a).2 = 0 := by
        split at hb
        · cases hb
        · rw [Device.moved]
          omega
      have hs : copyBytes buf 0 (devs (loc a).1).data (loc a).2 0 = buf := by
        funext x
        simp [copyBytes]
      simp [pread, hsh, hs]

theorem MirrorRuns.readWholeEbLoop_spec {start off : ℕ} (hmap : info.unmapped start = false)
    (hst : start + off = base + a) (hin : a + left ≤ size) (hrounds : left ≤ rounds)
    (data : ℕ → Byte) :
    ReadsAll (fun a => byteAt devs (loc a)) a left off data
      (readWholeEbLoop info devs start mirror rounds off left data) := by
  have hmin : ∀ left len : ℕ, (if left < len then left else len) = min left len := by
    intro left len
    split <;> omega
  have hsrc : ∀ {a off : ℕ}, start + off = base + a → a < size → ∀ left,
      wholeEbSource info devs start mirror off left =
        if (devs (loc a).1).fd ≤ 0 then .ok none
        else .ok (some (devs (loc a).1, (loc a).2, run a)) := by
    intro a off hoff ha left
    simp [wholeEbSource, hmap, hoff, h.mapped a ha]
  refine readsAll_of_rounds h.pos (fun a => byteAt devs (loc a))
    (fun rounds _ left off data => readWholeEbLoop info devs start mirror rounds off left data)
    (fun a off => start + off = base + a) ?_ ?_ ?_ hin hrounds hst data
  · intro rounds a off data
    cases rounds <;> rfl
  · intro rounds a left off data hpos ha hoff hrun
    have hlenPos : 0 < min left (run a) := lt_min hpos (h.pos a ha)
    obtain ⟨hfd, hr⟩ := h.pread_run hlenPos (min_le_right _ _) hrun data off
    have hz : ¬ left = 0 := by omega
    have hneg : ¬ ((min left (run a) : ℕ) : ℤ) < 0 := by omega
    refine ⟨?_, by omega⟩
    simp only [readWholeEbLoop, hz, if_false, hsrc hoff ha, not_le.mpr hfd, hmin,
      readExtentFromDisk, hr, hneg, ne_eq, not_true_eq_false]
  · intro rounds a left off data hpos ha hoff hrun
    have hlenPos : 0 < min left (run a) := lt_min hpos (h.pos a ha)
    have hr := h.pread_short hlenPos (min_le_right _ _) hrun data off
    have hz : ¬ left = 0 := by omega
    simp only [readWholeEbLoop, hz, hsrc hoff ha]
    by_cases hfd : (devs (loc a).1).fd ≤ 0
    · simp only [hfd]
      exact ⟨_, rfl⟩
    · simp only [hfd, if_false, hmin, readExtentFromDisk_short hr]
      exact ⟨_, rfl⟩

end

/-! # Reading through the mapping -/

/-! ## Runs of addresses -/

section

variable {map : MapLookup} {profile : Profile} (h : Accepted map profile)

/-- The byte that is stored for an address of a chunk, if it can be read. -/
def chunkByte (h : Accepted map profile) (devs : Devices) (a : ℕ) : Option Byte :=
  byteAt devs (map.locate ((layout h).cell a).1 ((layout h).depth a))

include h

theorem Accepted.mapLength_eq (a : ℕ) : mapLength map a = if profile = .single then map.ce.size - a
      else min (map.ce.size - a) (map.stripeLen - a % map.stripeLen) := by
  rw [mapLength, h.has_striped, sub_div_mul_self]
  cases profile <;> rfl

theorem Accepted.mapLength_pos {a : ℕ} (ha : a < map.ce.size) : 0 < mapLength map a := by
  have hmod : a % map.stripeLen < map.stripeLen := Nat.mod_lt _ (layout h).unit_pos
  rw [h.mapLength_eq]
  split <;> omega

/-- The addresses that one answer of `__btrfs_map_block` covers are consecutive on the same
stripes. -/
theorem Accepted.run_spec {a k : ℕ} (hk : k < mapLength map a) :
    a + k < map.ce.size ∧ ((layout h).cell (a + k)).1 = ((layout h).cell a).1 ∧
      (layout h).copies ((layout h).row (a + k)) ((layout h).col (a + k)) =
        (layout h).copies ((layout h).row a) ((layout h).col a) ∧
      (layout h).depth (a + k) = (layout h).depth a + k := by
  rw [h.mapLength_eq] at hk
  by_cases hsingle : profile = .single
  · -- a single stripe is not cut
    subst hsingle
    rw [if_pos rfl] at hk
    have hcol : ∀ b, (layout h).col b = 0 := fun b => Nat.mod_one _
    have hdepth := (layout h).depth_of_one_column rfl
    refine ⟨by omega, ?_, ?_, by rw [hdepth, hdepth]⟩
    · rw [RowLayout.cell, RowLayout.cell, hcol, hcol]
      rfl
    · rw [hcol, hcol]
      rfl
  · rw [if_neg hsingle] at hk
    have hwithin : a % map.stripeLen + k < map.stripeLen := by omega
    obtain ⟨hrow, hcol, hdepth⟩ := (layout h).add_within hwithin
    refine ⟨by omega, ?_, by rw [hrow, hcol], hdepth⟩
    rw [RowLayout.cell, RowLayout.cell, hrow, hcol]

theorem Accepted.runs : Runs map.ce.size (mapLength map)
    fun a => map.locate ((layout h).cell a).1 ((layout h).depth a) where
  pos _ ha := h.mapLength_pos ha
  next a k hk := by
    obtain ⟨-, hplace, -, hdepth⟩ := h.run_spec hk
    rw [hplace, hdepth, MapLookup.locate, MapLookup.locate, Nat.add_assoc]

end

/-! ## `read_data_from_disk` and `read_whole_eb` -/

/-- A mapped chunk in the mapping tree of a filesystem. -/
structure InTree (info : FsInfo) (map : MapLookup) (profile : Profile) : Prop
    extends Accepted map profile where
  tree : MappingTree info.mappingTree
  mem : map ∈ info.mappingTree
  bound : map.ce.start + map.ce.size < 2 ^ 64

section

variable {info : FsInfo} {map : MapLookup} {profile : Profile} (h : InTree info map profile)

include h

variable {a left rounds : ℕ} {devs : Devices}

theorem InTree.mapBlock_read (ha : a < map.ce.size) :
    btrfsMapBlock info.mappingTree .read (map.ce.start + a) 0 false =
      .ok (.ok ⟨mapLength map a, [map.stripeAt ((layout h.toAccepted).depth a)
        ((layout h.toAccepted).cell a).1], none⟩) := by
  rw [h.tree.mapBlock_eq h.mem ha, if_pos h.bound, h.mapInChunk_read]
  rfl

theorem InTree.mirrorRuns : MirrorRuns info 0 map.ce.start map.ce.size (mapLength map)
    fun a => map.locate ((layout h.toAccepted).cell a).1 ((layout h.toAccepted).depth a) where
  toRuns := h.toAccepted.runs
  mapped _ ha := h.mapBlock_read ha

theorem InTree.readDataLoop_spec (hin : a + left ≤ map.ce.size) (hrounds : left ≤ rounds)
    (total : ℕ) (buf : ℕ → Byte) :
    ReadsAll (chunkByte h.toAccepted devs) a left total buf
      (readDataLoop info devs 0 rounds (map.ce.start + a) left total buf) :=
  h.mirrorRuns.readDataLoop_spec hin hrounds total buf

theorem InTree.readByte (ha : a < map.ce.size) (buf : ℕ → Byte) :
    readDataFromDisk info devs buf (map.ce.start + a) 1 0 =
      match chunkByte h.toAccepted devs a with
      | some _ => .ok (0, filled (chunkByte h.toAccepted devs) a 1 0 buf)
      | none => .ok (-eio, buf) :=
  h.mirrorRuns.readByte ha buf

theorem InTree.readWholeEbLoop_spec {start off : ℕ} (hmap : info.unmapped start = false)
    (hst : start + off = map.ce.start + a) (hin : a + left ≤ map.ce.size)
    (hrounds : left ≤ rounds) (data : ℕ → Byte) :
    ReadsAll (chunkByte h.toAccepted devs) a left off data
      (readWholeEbLoop info devs start 0 rounds off left data) :=
  h.mirrorRuns.readWholeEbLoop_spec hmap hst hin hrounds data

end

end Btrfs.Volumes
