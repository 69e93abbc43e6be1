import Btrfs.Verification.Volumes.RowWrite

/-! # Correctness of data writes -/

namespace Btrfs.Volumes

open Raid56

variable {info : FsInfo} {map : MapLookup} {profile : Profile} {a left : ℕ} {devs' : Devices}
  {t : ℕ} {data : ℕ → Byte}

/-! ## Pieces -/

def writeLen (info : FsInfo) (map : MapLookup) (profile : Profile) (a left : ℕ) : ℕ :=
  if profile.parity then min (min map.stripeLen left) info.nodesize else min (mapLength map a) left

/-- The devices after one piece. Only the part of it that lies in its first row is stored. -/
structure PieceWritten {info : FsInfo} {map : MapLookup} {profile : Profile}
    (h : InTree info map profile) (devs devs' : Devices) (a t : ℕ) (data : ℕ → Byte) : Prop where
  shape : SameShape devs devs'
  bytes : ∀ x < map.ce.size, chunkByte h.toAccepted devs' x =
    if (a ≤ x ∧ x < a + t) ∧ (profile.parity → (layout h.toAccepted).row x =
        (layout h.toAccepted).row a) then some (data (x - a))
    else chunkByte h.toAccepted devs x

theorem PieceWritten.congr {h : InTree info map profile} {devs : Devices} {data' : ℕ → Byte}
    (hpiece : PieceWritten h devs devs' a t data) (hd : ∀ k < t, data k = data' k) :
    PieceWritten h devs devs' a t data' := by
  refine ⟨hpiece.shape, ?_⟩
  intro x hx
  rw [hpiece.bytes x hx]
  split
  · rw [hd _ (by omega)]
  · rfl

/-- No byte that the write of a piece keeps is read around the mapping. -/
def KeepsMapped {info : FsInfo} {map : MapLookup} {profile : Profile}
    (h : InTree info map profile) (a t : ℕ) : Prop :=
  profile.parity → ∀ x < map.ce.size, (layout h.toAccepted).row x = (layout h.toAccepted).row a →
    ¬ (a ≤ x ∧ x < a + t) → info.unmapped (map.ce.start + x / map.stripeLen * map.stripeLen) = false

theorem copyBytes_buffer (buf : ℕ → Byte) (total t : ℕ) :
    ∀ k < t, copyBytes (fun _ => 0) 0 buf total t k = buf (total + k) := by
  intro k hk
  rw [copyBytes, if_pos ⟨Nat.zero_le k, by omega⟩, Nat.sub_zero]

section

variable (h : Stored info map profile)

include h

theorem Stored.row_end_le (ha : a < map.ce.size) :
    ((layout h.toAccepted).row a + 1) * profile.columns map.numStripes * map.stripeLen ≤
      map.ce.size := by
  obtain ⟨rows, hr⟩ := h.rows
  have hrow : (layout h.toAccepted).row a = a / (map.stripeLen * profile.columns map.numStripes) :=
    Nat.div_div_eq_div_mul _ _ _
  have hlt : (layout h.toAccepted).row a < rows := by
    rw [hrow]
    exact Nat.div_lt_of_lt_mul (hr ▸ ha)
  rw [hr, Nat.mul_assoc, Nat.mul_comm, Nat.mul_comm (profile.columns _)]
  exact Nat.mul_le_mul_left _ hlt

/-- The addresses that are stored at the places of a run are those of the run. -/
theorem Stored.mem_copies_iff (ht : t ≤ mapLength map a) (x : ℕ) :
    (((layout h.toAccepted).cell x).1 ∈ (layout h.toAccepted).copies
        ((layout h.toAccepted).row a) ((layout h.toAccepted).col a) ∧
      (layout h.toAccepted).depth a ≤ (layout h.toAccepted).depth x ∧
      (layout h.toAccepted).depth x < (layout h.toAccepted).depth a + t) ↔ a ≤ x ∧ x < a + t := by
  constructor
  · rintro ⟨hmem, hlow, hhigh⟩
    obtain ⟨k, hk⟩ := Nat.exists_eq_add_of_le hlow
    obtain ⟨-, -, hcopies, hdepth⟩ := h.run_spec (by omega : k < mapLength map a)
    rw [← hcopies] at hmem
    have heq := (layout h.toAccepted).eq_of_copy_eq_cell hmem (b := x)
      (Prod.ext rfl (hdepth.trans hk.symm))
    omega
  · rintro ⟨hlow, hhigh⟩
    obtain ⟨k, rfl⟩ := Nat.exists_eq_add_of_le hlow
    obtain ⟨-, -, hcopies, hdepth⟩ := h.run_spec (by omega : k < mapLength map a)
    refine ⟨?_, by omega, by omega⟩
    rw [← hcopies]
    exact (layout h.toAccepted).place_mem _ _ ((layout h.toAccepted).col_lt _)

theorem Stored.run_end_le (hpos : 0 < t) (ht : t ≤ mapLength map a) :
    (layout h.toAccepted).depth a + t ≤ map.stripeSize profile := by
  obtain ⟨hin, -, -, hdepth⟩ := h.run_spec (by omega : t - 1 < mapLength map a)
  have hl := h.toPlaced.depth_lt hin
  omega

theorem Stored.pieceWritten_of_copies (hparity : profile.parity = false) {devs : Devices}
    (ht : t ≤ mapLength map a) (hpos : 0 < t) (data : ℕ → Byte)
    (hfit : StripesFit map devs ((layout h.toAccepted).depth a) t
      ((layout h.toAccepted).copies ((layout h.toAccepted).row a) ((layout h.toAccepted).col a))) :
    PieceWritten h.toInTree devs (storeStripes map ((layout h.toAccepted).depth a) t
      (fun _ => data) ((layout h.toAccepted).copies ((layout h.toAccepted).row a)
        ((layout h.toAccepted).col a)) devs) a t data := by
  refine ⟨sameShape_storeStripes _ _ _ _ _ _, ?_⟩
  intro x hx
  have hlt : ((layout h.toAccepted).cell x).1 < map.numStripes := (layout h.toAccepted).place_lt x
  have hend := h.run_end_le hpos ht
  have hiff := h.mem_copies_iff ht x
  have hnd : ((layout h.toAccepted).copies ((layout h.toAccepted).row a)
      ((layout h.toAccepted).col a)).Nodup := List.nodup_range'
  have hnot : ¬ profile.parity = true := by rw [hparity]; exact Bool.false_ne_true
  rw [chunkByte, h.toPlaced.byteAt_storeStripes hend (fun _ => data) hnd
    ((layout h.toAccepted).copies_lt _ _ ((layout h.toAccepted).col_lt a)) hfit hlt
    (h.toPlaced.depth_lt hx)]
  by_cases hrange : a ≤ x ∧ x < a + t
  · obtain ⟨k, rfl⟩ := Nat.exists_eq_add_of_le hrange.1
    obtain ⟨-, -, -, hdepth⟩ := h.run_spec (by omega : k < mapLength map a)
    rw [if_pos (hiff.mpr hrange), if_pos ⟨hrange, fun hcontra => absurd hcontra hnot⟩, hdepth,
      Nat.add_sub_cancel_left, Nat.add_sub_cancel_left]
  · rw [if_neg fun hc => hrange (hiff.mp hc), if_neg fun hc => hrange hc.1]
    rfl

/-- A row whose kept bytes were read through the mapping. -/
theorem Stored.pieceWritten_of_row (hparity : profile.parity = true) {devs : Devices}
    (hrow : RowWritten h.toInTree devs devs' ((layout h.toAccepted).row a) a t data)
    (hmap : KeepsMapped h.toInTree a t) : PieceWritten h.toInTree devs devs' a t data := by
  refine ⟨hrow.shape, ?_⟩
  intro x hx
  rw [hrow.bytes x hx]
  by_cases hs : (layout h.toAccepted).row x = (layout h.toAccepted).row a
  · rw [if_pos hs]
    by_cases hrange : a ≤ x ∧ x < a + t
    · rw [if_pos hrange, if_pos ⟨hrange, fun _ => hs⟩]
    · rw [if_neg hrange, if_neg fun hc => hrange hc.1, rmwByte, hmap hparity x hx hs hrange]
      rfl
  · rw [if_neg hs, if_neg fun hc => hs (hc.2 hparity)]

/-! ## Rounds -/

section

variable (addr : Ptr → ℕ) (buf : ℕ → Byte) (rounds total : ℕ) (devs : Devices) (hpos : 0 < left)
  (ha : a < map.ce.size)

include hpos ha

theorem Stored.copiesRound_eq (hparity : profile.parity = false) :
    writeDataLoop addr info buf 0 (rounds + 1) (map.ce.start + a) left total devs =
      match writeCopies buf total (min (mapLength map a) left)
          (((layout h.toAccepted).copies ((layout h.toAccepted).row a)
            ((layout h.toAccepted).col a)).map
              (map.stripeAt ((layout h.toAccepted).depth a))) devs with
      | (ret, devs) =>
        if ret ≠ 0 then .ok (ret, devs)
        else writeDataLoop addr info buf 0 rounds
          (map.ce.start + (a + min (mapLength map a) left)) (left - min (mapLength map a) left)
          (total + min (mapLength map a) left) devs := by
  have hmap : btrfsMapBlock info.mappingTree .write (map.ce.start + a) 0 true =
      .ok (.ok ⟨mapLength map a, ((layout h.toAccepted).copies ((layout h.toAccepted).row a)
        ((layout h.toAccepted).col a)).map (map.stripeAt ((layout h.toAccepted).depth a)),
          none⟩) := by
    rw [h.tree.mapBlock_eq h.mem ha, if_pos h.bound, h.mapInChunk_write hparity]
    rfl
  have hz : ¬ left = 0 := by omega
  have hle : ¬ left < min (mapLength map a) left := by omega
  simp only [writeDataLoop, hz, if_false, hmap, hle, Nat.add_assoc]

theorem Stored.rowRound_eq (hparity : profile.parity = true) :
    writeDataLoop addr info buf 0 (rounds + 1) (map.ce.start + a) left total devs =
      match writeRow addr info map profile devs ((layout h.toAccepted).row a) a
          (min (min map.stripeLen left) info.nodesize)
          (copyBytes (fun _ => 0) 0 buf total (min (min map.stripeLen left) info.nodesize)) with
      | .error fault => .error fault
      | .ok (ret, devs) =>
        if ret ≠ 0 then .error .bug
        else writeDataLoop addr info buf 0 rounds
          (map.ce.start + (a + min (min map.stripeLen left) info.nodesize))
          (left - min (min map.stripeLen left) info.nodesize)
          (total + min (min map.stripeLen left) info.nodesize) devs := by
  have hend := h.row_end_le ha
  have hbound := h.bound
  have hmap : btrfsMapBlock info.mappingTree .write (map.ce.start + a) 0 true =
      .ok (.ok ⟨map.stripeLen, rowStripes map ((layout h.toAccepted).row a),
        some ((List.range map.numStripes).map
          (rowEntry map profile ((layout h.toAccepted).row a)))⟩) := by
    rw [h.tree.mapBlock_eq h.mem ha, if_pos h.bound, h.mapInChunk_parity hparity a (by omega)]
    rfl
  have hz : ¬ left = 0 := by omega
  have hle : ¬ left < min (min map.stripeLen left) info.nodesize := by omega
  simp only [writeDataLoop, hz, if_false, hmap, hle, Nat.add_assoc, or_false]
  unfold writeRow
  rcases writeRaid56WithParity addr info devs _ _ _ _ with fault | ⟨ret, devs'⟩
  · rfl
  · by_cases hret : ret = 0
    · simp only [hret]
    · simp [hret]

theorem Stored.round_of_write (hmap : KeepsMapped h.toInTree a (writeLen info map profile a left))
    (hwrite : writeDataLoop addr info buf 0 (rounds + 1) (map.ce.start + a) left total devs =
      .ok (0, devs')) :
    ∃ devs₁, PieceWritten h.toInTree devs devs₁ a (writeLen info map profile a left)
        (fun k => buf (total + k)) ∧
      writeDataLoop addr info buf 0 rounds (map.ce.start + (a + writeLen info map profile a left))
        (left - writeLen info map profile a left) (total + writeLen info map profile a left) devs₁ =
          .ok (0, devs') := by
  cases hparity : profile.parity with
  | false =>
    have hlen : writeLen info map profile a left = min (mapLength map a) left := by
      rw [writeLen, hparity]
      rfl
    have hlenPos : 0 < min (mapLength map a) left := lt_min (h.mapLength_pos ha) hpos
    rw [h.copiesRound_eq addr buf rounds total devs hpos ha hparity] at hwrite
    rw [hlen]
    split at hwrite
    rename_i ret devs₁ hcopies
    split at hwrite
    · rename_i hret
      simp only [Except.ok.injEq, Prod.mk.injEq] at hwrite
      exact absurd hwrite.1 hret
    · rename_i hret
      rw [not_not.mp hret] at hcopies
      have hfit := fit_of_writeCopies map buf hlenPos hcopies
      rw [writeCopies_of_fit map buf total _ _ hfit] at hcopies
      obtain rfl := (Prod.mk.inj hcopies).2
      exact ⟨_, h.pieceWritten_of_copies hparity (min_le_left _ _) hlenPos _ hfit, hwrite⟩
  | true =>
    have hlen : writeLen info map profile a left = min (min map.stripeLen left) info.nodesize := by
      rw [writeLen, hparity]
      rfl
    rw [h.rowRound_eq addr buf rounds total devs hpos ha hparity] at hwrite
    rw [hlen] at hmap ⊢
    split at hwrite
    · cases hwrite
    · rename_i ret devs₁ hrow
      split at hwrite
      · cases hwrite
      · rename_i hret
        rw [not_not.mp hret] at hrow
        have hwritten := h.rowWritten_of_writeRow hparity (h.row_end_le ha) hrow
        exact ⟨devs₁, (h.pieceWritten_of_row hparity hwritten hmap).congr
          (copyBytes_buffer buf total _), hwrite⟩

end

end

/-! ## Whole writes -/

/-- The length of all pieces but the last in a chunk with parity. -/
def pieceLen (info : FsInfo) (map : MapLookup) : ℕ := min map.stripeLen info.nodesize

/-- The first address of the piece that carries an address. -/
def pieceStart (info : FsInfo) (map : MapLookup) (a x : ℕ) : ℕ :=
  a + (x - a) / pieceLen info map * pieceLen info map

theorem pieceStart_self (info : FsInfo) (map : MapLookup) (a : ℕ) :
    pieceStart info map a a = a := by
  simp [pieceStart]

theorem pieceStart_of_lt {x : ℕ} (ha : a ≤ x) (hx : x < a + pieceLen info map) :
    pieceStart info map a x = a := by
  rw [pieceStart, Nat.div_eq_of_lt (by omega), Nat.zero_mul, Nat.add_zero]

theorem pieceStart_next {x : ℕ} (hx : a + pieceLen info map ≤ x) :
    pieceStart info map (a + pieceLen info map) x = pieceStart info map a x := by
  rcases Nat.eq_zero_or_pos (pieceLen info map) with hz | hpos
  · rw [hz, Nat.add_zero]
  · have hdiv : (x - a) / pieceLen info map =
        (x - (a + pieceLen info map)) / pieceLen info map + 1 := by
      rw [Nat.div_eq_sub_div hpos (by omega), Nat.sub_add_eq]
    rw [pieceStart, pieceStart, hdiv, Nat.succ_mul]
    omega

section

/-- The addresses of a range that a write stores: with parity, those in the row in which their
piece starts. -/
def Kept (h : InTree info map profile) (a left x : ℕ) : Prop :=
  (a ≤ x ∧ x < a + left) ∧ (profile.parity → (layout h.toAccepted).row x =
    (layout h.toAccepted).row (pieceStart info map a x))

instance (h : InTree info map profile) (a left x : ℕ) : Decidable (Kept h a left x) :=
  inferInstanceAs (Decidable (_ ∧ _))

def AllMapped (h : InTree info map profile) (a left : ℕ) : Prop :=
  ∀ y, a ≤ y → y < a + left → KeepsMapped h (pieceStart info map a y)
    (min (pieceLen info map) (a + left - pieceStart info map a y))

theorem writeLen_parity (hparity : profile.parity = true) (a left : ℕ) :
    writeLen info map profile a left = min (pieceLen info map) left := by
  rw [writeLen, hparity, if_pos rfl, pieceLen, min_right_comm]

theorem writeLen_le (a left : ℕ) : writeLen info map profile a left ≤ left := by
  unfold writeLen
  split <;> omega

theorem AllMapped.head {h : InTree info map profile} (hmap : AllMapped h a left)
    (hpos : 0 < left) : KeepsMapped h a (writeLen info map profile a left) := by
  intro hparity
  have hfirst := hmap a le_rfl (by omega)
  rw [pieceStart_self, Nat.add_sub_cancel_left, ← writeLen_parity hparity a left] at hfirst
  exact hfirst hparity

theorem AllMapped.tail {h : InTree info map profile} (hmap : AllMapped h a left) :
    AllMapped h (a + writeLen info map profile a left)
      (left - writeLen info map profile a left) := by
  intro y hlow hhigh hparity
  have hend : a + writeLen info map profile a left + (left - writeLen info map profile a left) =
      a + left := by omega
  have hlen : writeLen info map profile a left = min (pieceLen info map) left :=
    writeLen_parity hparity a left
  have hf : writeLen info map profile a left = pieceLen info map := by omega
  have hpiece := hmap y (by omega) (by omega) hparity
  rw [hend, hf, pieceStart_next (by omega)]
  exact hpiece

theorem kept_iff {h : InTree info map profile} {x : ℕ} : Kept h a left x ↔
      ((a ≤ x ∧ x < a + writeLen info map profile a left) ∧ (profile.parity →
        (layout h.toAccepted).row x = (layout h.toAccepted).row a)) ∨
      Kept h (a + writeLen info map profile a left)
        (left - writeLen info map profile a left) x := by
  have hle : writeLen info map profile a left ≤ left := writeLen_le a left
  have hend : a + writeLen info map profile a left + (left - writeLen info map profile a left) =
      a + left := by omega
  unfold Kept
  rw [hend]
  cases hparity : profile.parity with
  | false =>
    simp only [Bool.false_eq_true, false_imp_iff, and_true]
    omega
  | true =>
    have hlen : writeLen info map profile a left = min (pieceLen info map) left :=
      writeLen_parity hparity a left
    by_cases hx : x < a + writeLen info map profile a left
    · by_cases ha : a ≤ x
      · rw [pieceStart_of_lt ha (by omega)]
        constructor
        · intro hk
          exact Or.inl ⟨⟨ha, hx⟩, hk.2⟩
        · rintro (hfirst | hr)
          · exact ⟨by omega, hfirst.2⟩
          · omega
      · omega
    · by_cases hin : x < a + left
      · have hf : writeLen info map profile a left = pieceLen info map := by omega
        rw [hf] at hx ⊢
        rw [pieceStart_next (not_lt.mp hx)]
        constructor
        · intro hk
          exact Or.inr ⟨⟨not_lt.mp hx, hin⟩, hk.2⟩
        · rintro (hfirst | hr)
          · exact absurd hfirst.1.2 hx
          · exact ⟨by omega, hr.2⟩
      · omega

structure RangeWritten (h : InTree info map profile) (devs devs' : Devices) (a left : ℕ)
    (data : ℕ → Byte) : Prop where
  shape : SameShape devs devs'
  bytes : ∀ x < map.ce.size, chunkByte h.toAccepted devs' x =
    if Kept h a left x then some (data (x - a)) else chunkByte h.toAccepted devs x

theorem rangeWritten_nothing (h : InTree info map profile) (devs : Devices) (a : ℕ)
    (data : ℕ → Byte) : RangeWritten h devs devs a 0 data := by
  refine ⟨fun d => ⟨rfl, rfl, rfl⟩, ?_⟩
  intro x hx
  rw [if_neg]
  rintro ⟨hrange, -⟩
  omega

theorem PieceWritten.append {h : InTree info map profile} {devs devs₁ : Devices} {total : ℕ}
    {buf : ℕ → Byte} (hpiece : PieceWritten h devs devs₁ a (writeLen info map profile a left)
      fun k => buf (total + k))
    (hr : RangeWritten h devs₁ devs' (a + writeLen info map profile a left)
      (left - writeLen info map profile a left)
      fun k => buf (total + writeLen info map profile a left + k)) :
    RangeWritten h devs devs' a left fun k => buf (total + k) := by
  refine ⟨hpiece.shape.trans hr.shape, ?_⟩
  intro x hx
  rw [hr.bytes x hx, hpiece.bytes x hx]
  by_cases hk : Kept h (a + writeLen info map profile a left)
      (left - writeLen info map profile a left) x
  · have hlow := hk.1.1
    have hidx : total + writeLen info map profile a left +
        (x - (a + writeLen info map profile a left)) = total + (x - a) := by omega
    rw [if_pos hk, if_pos (kept_iff.mpr (Or.inr hk)), hidx]
  · rw [if_neg hk]
    split
    · rename_i hfirst
      rw [if_pos (kept_iff.mpr (Or.inl hfirst))]
    · rename_i hfirst
      rw [if_neg fun hc => (kept_iff.mp hc).elim hfirst hk]

theorem Stored.rangeWritten_of_loop (h : Stored info map profile) {addr : Ptr → ℕ} {buf : ℕ → Byte}
    {rounds total : ℕ} {devs : Devices} (hin : a + left ≤ map.ce.size)
    (hmap : AllMapped h.toInTree a left)
    (hwrite : writeDataLoop addr info buf 0 rounds (map.ce.start + a) left total devs =
      .ok (0, devs')) :
    RangeWritten h.toInTree devs devs' a left fun k => buf (total + k) := by
  induction rounds generalizing a left total devs with
  | zero =>
    rw [writeDataLoop] at hwrite
    split at hwrite
    · rename_i hz
      obtain rfl := (Prod.mk.inj (Except.ok.inj hwrite)).2
      rw [hz]
      exact rangeWritten_nothing _ _ _ _
    · cases hwrite
  | succ rounds ih =>
    rcases Nat.eq_zero_or_pos left with hz | hpos
    · rw [hz] at hwrite ⊢
      obtain rfl := (Prod.mk.inj (Except.ok.inj hwrite)).2
      exact rangeWritten_nothing _ _ _ _
    · have hle : writeLen info map profile a left ≤ left := writeLen_le a left
      obtain ⟨devs₁, hpiece, hr⟩ := h.round_of_write addr buf rounds total devs hpos (by omega)
        (hmap.head hpos) hwrite
      exact hpiece.append (ih (by omega) hmap.tail hr)

end

/-! ## Correctness of data writes -/

variable {devs devs' : Devices} {a n : ℕ}

/-! ## The chunk -/

/-- A chunk of the mapping that passed `btrfs_check_chunk_valid`, of whole full stripes and with
stripes in disjoint device ranges. -/
structure ValidChunk (info : FsInfo) (map : MapLookup) (profile : Profile) : Prop where
  tree : MappingTree info.mappingTree
  mem : map ∈ info.mappingTree
  checked : ∃ sectorsize chunk slot itemSize findDevice,
    btrfsCheckChunkValid sectorsize chunk slot itemSize map.ce.start = .ok () ∧
      map = mapOfChunk findDevice map.ce.start chunk
  flag : map.type &&& BTRFS_BLOCK_GROUP_PROFILE_MASK = profile.flag
  rows : map.stripeLen * profile.columns map.numStripes ∣ map.ce.size
  disjoint : ∀ i j, i < map.numStripes → j < map.numStripes → i ≠ j →
    (map.stripe i).dev = (map.stripe j).dev →
    (map.stripe i).physical + map.stripeSize profile ≤ (map.stripe j).physical ∨
      (map.stripe j).physical + map.stripeSize profile ≤ (map.stripe i).physical

theorem Profile.flag_injective : Function.Injective Profile.flag := by
  intro p q
  cases p <;> cases q <;> decide

/-- A chunk that is alone in the mapping, with each stripe on a device of its own. -/
theorem validChunk_alone {info : FsInfo} {map : MapLookup} {chunk : Chunk} {profile : Profile}
    (ht : info.mappingTree = [map]) (hmap : map = mapOfChunk id map.ce.start chunk)
    (hcheck : btrfsCheckChunkValid 4096 chunk 0 112 map.ce.start = .ok ())
    (hbnd : map.ce.start + map.ce.size ≤ 2 ^ 64 ∧ 0 < map.ce.size)
    (hf : map.type &&& BTRFS_BLOCK_GROUP_PROFILE_MASK = profile.flag)
    (hr : map.stripeLen * profile.columns map.numStripes ∣ map.ce.size)
    (hdevs : ∀ i < map.numStripes, ∀ j < map.numStripes, i ≠ j →
      (map.stripe i).dev ≠ (map.stripe j).dev) : ValidChunk info map profile where
  tree := ht ▸ ⟨List.pairwise_singleton _ _, List.forall_mem_singleton.mpr hbnd.1, by simp [hbnd]⟩
  mem := ht ▸ by simp
  checked := ⟨4096, chunk, 0, 112, id, hcheck, hmap⟩
  flag := hf
  rows := hr
  disjoint := fun i j hi hj hij hdev => absurd hdev (hdevs i hi j hj hij)

section

variable {info : FsInfo} {map : MapLookup} {profile : Profile} (h : ValidChunk info map profile)

include h

theorem ValidChunk.accepted : Accepted map profile := by
  obtain ⟨sectorsize, chunk, slot, itemSize, findDevice, hcheck, hmap⟩ := h.checked
  obtain ⟨profile', haccepted⟩ := accepted_of_check hcheck findDevice
  rw [← hmap] at haccepted
  have hprofile : profile' = profile := Profile.flag_injective (haccepted.flag.symm.trans h.flag)
  rwa [hprofile] at haccepted

theorem ValidChunk.stored (hbnd : map.ce.start + map.ce.size < 2 ^ 64) : Stored info map profile :=
  { h.accepted with
    tree := h.tree
    mem := h.mem
    bound := hbnd
    rows := h.rows
    disjoint := h.disjoint }

theorem ValidChunk.bound_of_write {addr : Ptr → ℕ} {buf : ℕ → Byte} {bytes : ℕ} (hpos : 0 < bytes)
    (ha : a < map.ce.size)
    (hwrite : writeDataToDisk addr info devs buf (map.ce.start + a) bytes 0 = .ok (0, devs')) :
    map.ce.start + map.ce.size < 2 ^ 64 := by
  by_contra hend
  obtain ⟨n, rfl⟩ : ∃ n, bytes = n + 1 := ⟨bytes - 1, by omega⟩
  have hmap := h.tree.mapBlock_eq h.mem ha .write 0 true
  rw [if_neg hend] at hmap
  simp only [writeDataToDisk, writeDataLoop, Nat.succ_ne_zero, if_false, hmap, Except.ok.injEq,
    Prod.mk.injEq] at hwrite
  exact absurd hwrite.1 (by decide)

end

/-! ## What is read -/

def ReadsByte (info : FsInfo) (devs : Devices) (y : ℕ) (v : Byte) : Prop :=
  ∃ out, readDataFromDisk info devs (fun _ => 0) y 1 0 = .ok (0, out) ∧ out 0 = v

/-- After a write the range is read as the buffer, and all other addresses of the chunk are read
as before. -/
structure RoundTrip (info : FsInfo) (map : MapLookup) (devs devs' : Devices) (buf : ℕ → Byte)
    (offset bytes : ℕ) : Prop where
  range : ∀ buf', ∃ out, readDataFromDisk info devs' buf' offset bytes 0 = .ok (0, out) ∧
    ∀ k < bytes, out k = buf k
  others : ∀ y, map.ce.start ≤ y → y < map.ce.start + map.ce.size →
    ¬ (offset ≤ y ∧ y < offset + bytes) →
      ∀ buf', readDataFromDisk info devs' buf' y 1 0 = readDataFromDisk info devs buf' y 1 0

section

variable {info : FsInfo} {map : MapLookup} {profile : Profile} (h : InTree info map profile)

include h

theorem InTree.readsRange_iff (devs : Devices) (hin : a + n ≤ map.ce.size) (data : ℕ → Byte) :
    (∀ buf', ∃ out, readDataFromDisk info devs buf' (map.ce.start + a) n 0 = .ok (0, out) ∧
      ∀ k < n, out k = data k) ↔ ∀ k < n, chunkByte h.toAccepted devs (a + k) = some (data k) := by
  exact readsAll_eq_iff (fun buf' => h.readDataLoop_spec hin le_rfl 0 buf') data

theorem InTree.readsByte_iff (devs : Devices) (ha : a < map.ce.size) (v : Byte) :
    ReadsByte info devs (map.ce.start + a) v ↔ chunkByte h.toAccepted devs a = some v := by
  rw [ReadsByte, h.readByte ha]
  cases hb : chunkByte h.toAccepted devs a with
  | none =>
    simp only [Except.ok.injEq, Prod.mk.injEq, reduceCtorEq, iff_false]
    rintro ⟨out, ⟨heio, -⟩, -⟩
    exact absurd heio (by decide)
  | some w =>
    simp only [Except.ok.injEq, Prod.mk.injEq, true_and, Option.some.injEq, exists_eq_left']
    simp [filled, hb]

theorem InTree.readByte_congr (ha : a < map.ce.size)
    (hb : chunkByte h.toAccepted devs' a = chunkByte h.toAccepted devs a) (buf' : ℕ → Byte) :
    readDataFromDisk info devs' buf' (map.ce.start + a) 1 0 =
      readDataFromDisk info devs buf' (map.ce.start + a) 1 0 := by
  have hfilled : filled (chunkByte h.toAccepted devs') a 1 0 buf' =
      filled (chunkByte h.toAccepted devs) a 1 0 buf' := by
    funext x
    unfold filled
    split
    · have hx : x - 0 = 0 := by omega
      rw [hx, Nat.add_zero, hb]
    · rfl
  rw [h.readByte ha, h.readByte ha, hb, hfilled]

end

/-! ## When a write is read back -/

def MapLookup.hasParity (map : MapLookup) : Bool :=
  map.has (BTRFS_BLOCK_GROUP_RAID5 ||| BTRFS_BLOCK_GROUP_RAID6)

def fullStripe (map : MapLookup) (y : ℕ) : ℕ :=
  (y - map.ce.start) / (map.stripeLen * nrDataStripes map)

/-- The piece that carries an address starts in an earlier full stripe. -/
def Dropped (info : FsInfo) (map : MapLookup) (offset y : ℕ) : Prop :=
  map.hasParity ∧ fullStripe map (pieceStart info map offset y) ≠ fullStripe map y

/-- For some piece a stripe that holds bytes to keep is read from device 1 instead of through the
mapping. -/
def ReadsAround (info : FsInfo) (map : MapLookup) (offset bytes : ℕ) : Prop :=
  map.hasParity ∧ ∃ y x, (offset ≤ y ∧ y < offset + bytes) ∧
    (map.ce.start ≤ x ∧ x < map.ce.start + map.ce.size) ∧
    fullStripe map x = fullStripe map (pieceStart info map offset y) ∧
    ¬ (pieceStart info map offset y ≤ x ∧ x < pieceStart info map offset y + pieceLen info map ∧
      x < offset + bytes) ∧
    info.unmapped (map.ce.start + (x - map.ce.start) / map.stripeLen * map.stripeLen)

theorem pieceStart_add (info : FsInfo) (map : MapLookup) (c a x : ℕ) :
    pieceStart info map (c + a) (c + x) = c + pieceStart info map a x := by
  rw [pieceStart, pieceStart, Nat.add_sub_add_left, Nat.add_assoc]

section

variable {info : FsInfo} {map : MapLookup} {profile : Profile} (h : InTree info map profile)

include h

theorem InTree.hasParity_eq : map.hasParity = profile.parity := h.has_parity

theorem InTree.fullStripe_eq (hparity : profile.parity = true) (x : ℕ) :
    fullStripe map (map.ce.start + x) = (layout h.toAccepted).row x := by
  rw [fullStripe, Nat.add_sub_cancel_left, h.nrDataStripes_eq hparity, RowLayout.row,
    Nat.div_div_eq_div_mul]
  rfl

theorem InTree.kept_iff_not_dropped {x : ℕ} (hx : a ≤ x ∧ x < a + n) :
    Kept h a n x ↔ ¬ Dropped info map (map.ce.start + a) (map.ce.start + x) := by
  rw [Dropped, h.hasParity_eq, not_and, not_not, pieceStart_add]
  constructor
  · rintro ⟨-, hk⟩ hparity
    rw [h.fullStripe_eq hparity, h.fullStripe_eq hparity, hk hparity]
  · intro hs
    refine ⟨hx, ?_⟩
    intro hparity
    have hr := hs hparity
    rw [h.fullStripe_eq hparity, h.fullStripe_eq hparity] at hr
    exact hr.symm

theorem InTree.allMapped_of_not_readsAround (hnot : ¬ ReadsAround info map (map.ce.start + a) n) :
    AllMapped h a n := by
  intro y hlow hhigh hparity x hx hrow hk
  by_contra hunmapped
  apply hnot
  refine ⟨h.hasParity_eq.trans hparity, map.ce.start + y, map.ce.start + x, by omega, by omega, ?_,
    ?_, ?_⟩
  · rw [pieceStart_add, h.fullStripe_eq hparity, h.fullStripe_eq hparity, hrow]
  · rw [pieceStart_add]
    omega
  · rw [Nat.add_sub_cancel_left]
    exact Bool.eq_true_of_not_eq_false hunmapped

end

theorem not_readsAround {info : FsInfo} {map : MapLookup} (hrestored : info.onRestoring = false)
    (hst : BTRFS_SUPER_INFO_OFFSET < map.ce.start) (offset bytes : ℕ) :
    ¬ ReadsAround info map offset bytes := by
  rintro ⟨-, y, x, -, -, -, -, hunmapped⟩
  rw [FsInfo.unmapped, hrestored, Bool.false_or, beq_iff_eq] at hunmapped
  omega

theorem Stored.roundTrip_iff {info : FsInfo} {map : MapLookup} {profile : Profile}
    (h : Stored info map profile) {buf : ℕ → Byte} (hin : a + n ≤ map.ce.size)
    (hwritten : RangeWritten h.toInTree devs devs' a n buf) :
    RoundTrip info map devs devs' buf (map.ce.start + a) n ↔
      ∀ x, a ≤ x → x < a + n → Dropped info map (map.ce.start + a) (map.ce.start + x) →
        chunkByte h.toAccepted devs x = some (buf (x - a)) := by
  constructor
  · intro htrip x hlow hhigh hdropped
    have hr := (h.toInTree.readsRange_iff devs' hin buf).mp htrip.range (x - a) (by omega)
    rwa [Nat.add_sub_cancel' hlow, hwritten.bytes x (by omega), if_neg fun hke =>
      (h.toInTree.kept_iff_not_dropped ⟨hlow, hhigh⟩).mp hke hdropped] at hr
  · intro hdropped
    refine ⟨?_, ?_⟩
    · apply (h.toInTree.readsRange_iff devs' hin buf).mpr
      intro k hk
      rw [hwritten.bytes (a + k) (by omega), Nat.add_sub_cancel_left]
      split
      · rfl
      · rename_i hke
        rw [h.toInTree.kept_iff_not_dropped ⟨by omega, by omega⟩, not_not] at hke
        have hold := hdropped (a + k) (by omega) (by omega) hke
        rwa [Nat.add_sub_cancel_left] at hold
    · intro y hlow hhigh hout buf'
      obtain ⟨x, rfl⟩ := Nat.exists_eq_add_of_le hlow
      apply h.toInTree.readByte_congr (by omega)
      rw [hwritten.bytes x (by omega), if_neg]
      rintro ⟨hrange, -⟩
      omega

theorem roundTrip_nothing (info : FsInfo) (map : MapLookup) (devs : Devices) (buf : ℕ → Byte)
    (offset : ℕ) : RoundTrip info map devs devs buf offset 0 := by
  refine ⟨fun buf' => ⟨buf', rfl, ?_⟩, fun _ _ _ _ _ => rfl⟩
  omega

/-- A successful write is read back, and changes nothing else, exactly when the bytes that a
piece carries beyond the full stripe in which it starts are there already. -/
theorem writeDataToDisk_roundTrip_iff {info : FsInfo} {map : MapLookup} {profile : Profile}
    (h : ValidChunk info map profile) {addr : Ptr → ℕ} {devs devs' : Devices} {buf : ℕ → Byte}
    {offset bytes : ℕ} (hlow : map.ce.start ≤ offset)
    (hhigh : offset + bytes ≤ map.ce.start + map.ce.size)
    (hwrite : writeDataToDisk addr info devs buf offset bytes 0 = .ok (0, devs'))
    (hmapped : ¬ ReadsAround info map offset bytes) :
    RoundTrip info map devs devs' buf offset bytes ↔
      ∀ y, offset ≤ y → y < offset + bytes → Dropped info map offset y →
        ReadsByte info devs y (buf (y - offset)) := by
  obtain ⟨a, rfl⟩ := Nat.exists_eq_add_of_le hlow
  rcases Nat.eq_zero_or_pos bytes with hz | hpos
  · subst hz
    obtain rfl := (Prod.mk.inj (Except.ok.inj hwrite)).2
    constructor
    · omega
    · intro _
      exact roundTrip_nothing _ _ _ _ _
  · have hstored := h.stored (h.bound_of_write hpos (by omega) hwrite)
    have hin : a + bytes ≤ map.ce.size := by omega
    have hwritten := hstored.rangeWritten_of_loop hin
      (hstored.toInTree.allMapped_of_not_readsAround hmapped) hwrite
    simp only [Nat.zero_add] at hwritten
    rw [hstored.roundTrip_iff hin hwritten]
    constructor
    · intro hbytes y hge hlt hdropped
      obtain ⟨x, rfl⟩ := Nat.exists_eq_add_of_le (le_trans (Nat.le_add_right _ _) hge)
      rw [hstored.toInTree.readsByte_iff devs (by omega), Nat.add_sub_add_left]
      exact hbytes x (by omega) (by omega) hdropped
    · intro hrd x hge hlt hdropped
      have hb := hrd (map.ce.start + x) (by omega) (by omega) hdropped
      rwa [hstored.toInTree.readsByte_iff devs (by omega), Nat.add_sub_add_left] at hb

/-! ## A chunk of two full stripes -/

def raid5Chunk : Chunk where
  length := 131072
  stripeLen := 65536
  type := BTRFS_BLOCK_GROUP_DATA ||| BTRFS_BLOCK_GROUP_RAID5
  sectorSize := 4096
  subStripes := 1
  stripes := [⟨1, 1048576⟩, ⟨2, 1048576⟩]

def raid5Map : MapLookup := mapOfChunk id 1048576 raid5Chunk

def raid5Info : FsInfo where
  mappingTree := [raid5Map]
  nodesize := 16384
  onRestoring := false
  fsDevices := [1, 2]

def zeroDevices : Devices := fun d => ⟨d, 3, 2097152, fun _ => 0⟩

theorem raid5Map_valid : ValidChunk raid5Info raid5Map .raid5 :=
  validChunk_alone rfl (rfl : _ = mapOfChunk id _ raid5Chunk) (by decide) (by decide) (by decide)
    (by decide) (by decide)

theorem raid5Map_stored : Stored raid5Info raid5Map .raid5 := raid5Map_valid.stored (by decide)

theorem raid5Map_mapped (offset bytes : ℕ) : ¬ ReadsAround raid5Info raid5Map offset bytes :=
  not_readsAround rfl (by decide) offset bytes

/-- A write across the full stripes with a piece boundary between them. -/
theorem roundTrip_at_boundary :
    ∃ devs', writeDataToDisk (fun _ => 0) raid5Info zeroDevices (fun _ => 1) (1048576 + 49152) 32768
        0 = .ok (0, devs') ∧
      RoundTrip raid5Info raid5Map zeroDevices devs' (fun _ => 1) (1048576 + 49152) 32768 := by
  obtain ⟨devs', hwrite⟩ : ∃ devs', writeDataToDisk (fun _ => 0) raid5Info zeroDevices (fun _ => 1)
    (1048576 + 49152) 32768 0 = .ok (0, devs') := ⟨_, rfl⟩
  refine ⟨devs', hwrite, ?_⟩
  apply (writeDataToDisk_roundTrip_iff raid5Map_valid (by decide) (by decide) hwrite
    (raid5Map_mapped _ _)).mpr
  rintro y hge hlt ⟨-, hdropped⟩
  exfalso
  apply hdropped
  have hpiece : pieceLen raid5Info raid5Map = 16384 := by decide
  have hf : raid5Map.stripeLen * nrDataStripes raid5Map = 65536 := by decide
  have hst : raid5Map.ce.start = 1048576 := rfl
  rw [fullStripe, fullStripe, pieceStart, hpiece, hf]
  omega

/-- A piece that starts 4 KiB before the end of a full stripe: its second half is lost. -/
theorem write_loses_next_full_stripe :
    ValidChunk raid5Info raid5Map .raid5 ∧ 4096 ∣ 1048576 + 61440 ∧ 4096 ∣ 8192 ∧
      1048576 + 61440 + 8192 ≤ raid5Map.ce.start + raid5Map.ce.size ∧
      ∃ devs', writeDataToDisk (fun _ => 0) raid5Info zeroDevices (fun _ => 1) (1048576 + 61440)
          8192 0 = .ok (0, devs') ∧
        ¬ RoundTrip raid5Info raid5Map zeroDevices devs' (fun _ => 1) (1048576 + 61440) 8192 := by
  obtain ⟨devs', hwrite⟩ : ∃ devs', writeDataToDisk (fun _ => 0) raid5Info zeroDevices (fun _ => 1)
    (1048576 + 61440) 8192 0 = .ok (0, devs') := ⟨_, rfl⟩
  refine ⟨raid5Map_valid, by decide, by decide, by decide, devs', hwrite, ?_⟩
  have hin : 61440 + 8192 ≤ raid5Map.ce.size := by decide
  have hwritten := raid5Map_stored.rangeWritten_of_loop hin
    (raid5Map_stored.toInTree.allMapped_of_not_readsAround (raid5Map_mapped _ _)) hwrite
  intro htrip
  have hdropped := (raid5Map_stored.roundTrip_iff hin hwritten).mp htrip
  have hb := hdropped 65536 (by decide) (by decide) ⟨by decide, by decide⟩
  exact absurd hb (by decide)

end Btrfs.Volumes
