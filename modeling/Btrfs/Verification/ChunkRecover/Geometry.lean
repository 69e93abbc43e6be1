import Btrfs.Model.ChunkRecover
import Btrfs.Verification.Ctree.TreeBlock
import Btrfs.Verification.Volumes.MapInjective

/-! # The stripe geometry of chunk recovery and of `__btrfs_map_block` -/

namespace Btrfs.ChunkRecover

open Ctree (toInt32 toInt32_of_range)
open Raid56 RbTree Volumes

/-- The record of a mapped chunk. -/
def recordOf (map : MapLookup) : ChunkRecord :=
  ⟨map.ce.start, map.ce.size, map.type, map.stripeLen, map.numStripes, map.subStripes⟩

/-- The profiles whose stripes have an order. -/
def Ordered (profile : Profile) : Prop :=
  profile = .raid0 ∨ profile = .raid10 ∨ profile = .raid5 ∨ profile = .raid6

theorem intDivide_of_pos {b : ℕ} (a : ℤ) (h : 0 < b) : intDivide a b = .ok (a.tdiv b) :=
  if_neg (by omega)

theorem intRemainder_of_pos {b : ℕ} (a : ℤ) (h : 0 < b) : intRemainder a b = .ok (a.tmod b) :=
  if_neg (by omega)

theorem toInt32_natCast {n : ℕ} (h : n < 2 ^ 31) : toInt32 n = n :=
  toInt32_of_range (by omega) (by omega)

/-- The index that a stripe number has in a chunk; the number is an `int` and may be negative. -/
def stripeIndexOf (profile : Profile) (numStripes : ℕ) (nr : ℤ) : ℤ :=
  match profile with
  | .raid10 => nr.tmod (numStripes / 2 : ℕ) * 2
  | .raid5 => (nr.tmod (numStripes - 1 : ℕ) + nr.tdiv (numStripes - 1 : ℕ)).tmod numStripes
  | .raid6 => (nr.tmod (numStripes - 2 : ℕ) + nr.tdiv (numStripes - 2 : ℕ)).tmod numStripes
  | _ => nr.tmod numStripes

/-- The data stripes that `calc_data_offset` counts in a row: both of each pair of RAID10. -/
def recoveredColumns (map : MapLookup) (profile : Profile) : ℕ :=
  if profile = .raid10 then map.numStripes else profile.columns map.numStripes

section

variable {map : MapLookup} {profile : Profile} (h : Accepted map profile) {a : ℕ}

theorem has_recordOf (flags : BitVec 64) : (recordOf map).has flags = map.has flags := rfl

theorem rotatedIndex_eq {data : ℕ} (nr : ℤ) (hd : 0 < data) (hstripes : 0 < map.numStripes) :
    rotatedIndex (recordOf map) nr data = .ok ((nr.tmod data + nr.tdiv data).tmod map.numStripes) := by
  simp only [rotatedIndex, intRemainder_of_pos nr hd, intDivide_of_pos nr hd, bind, Except.bind]
  exact intRemainder_of_pos _ hstripes

include h

theorem stripeIndexOf_eq (horder : Ordered profile) :
    stripeIndexOf profile map.numStripes (a / map.stripeLen : ℕ) =
      ((stripePlan map .read 0 false a).stripeIndex : ℕ) := by
  rw [h.stripePlan_read]
  rcases horder with rfl | rfl | rfl | rfl
  · simp only [stripeIndexOf, Profile.place, ← Int.ofNat_tmod]
    rfl
  · simp only [stripeIndexOf, Profile.place, ← Int.ofNat_tmod, Int.natCast_mul]
    rfl
  · simp only [stripeIndexOf, Profile.place, ← Int.ofNat_tmod, ← Int.ofNat_tdiv, ← Int.natCast_add]
    rw [Nat.add_comm]
    rfl
  · simp only [stripeIndexOf, Profile.place, ← Int.ofNat_tmod, ← Int.ofNat_tdiv, ← Int.natCast_add]
    rw [Nat.add_comm]
    rfl

theorem btrfsCalcStripeIndex_eq (horder : Ordered profile) (ha : map.ce.start + a < 2 ^ 64) :
    btrfsCalcStripeIndex (recordOf map) (map.ce.start + a) =
      .ok (stripeIndexOf profile map.numStripes (toInt32 (a / map.stripeLen : ℕ))) := by
  have hstripes := h.stripes_pos
  have hcolumns := h.columns_pos
  have hcount := h.count
  have hsub : sub64 (map.ce.start + a) map.ce.start = a := by
    rw [sub64_of_le (Nat.le_add_right _ _) ha, Nat.add_sub_cancel_left]
  simp only [btrfsCalcStripeIndex, has_recordOf, h.has_raid0, h.has_raid10, h.has_raid5,
    h.has_raid6]
  simp only [recordOf, hsub, divide_of_pos h.stripeLen_pos, bind, Except.bind]
  generalize toInt32 (a / map.stripeLen : ℕ) = nr
  rcases horder with rfl | rfl | rfl | rfl
  · simp only [beq_self_eq_true, if_true, stripeIndexOf]
    exact intRemainder_of_pos nr hstripes
  · have htwo : 0 < map.numStripes / 2 := hcolumns
    have hgroups : intDivide map.numStripes 2 = .ok ((map.numStripes / 2 : ℕ) : ℤ) := by
      rw [intDivide, if_neg (by decide)]
      exact congrArg Except.ok (Int.ofNat_tdiv _ 2).symm
    simp only [beq_self_eq_true, if_true, reduceCtorEq, beq_iff_eq, if_false, stripeIndexOf, hgroups,
      intRemainder_of_pos nr htwo, hcount.1, pure, Except.pure, Nat.cast_ofNat]
  · have hd : ((map.numStripes : ℤ) - 1) = ((map.numStripes - 1 : ℕ) : ℤ) := by omega
    simp only [beq_self_eq_true, if_true, reduceCtorEq, beq_iff_eq, if_false, stripeIndexOf, hd]
    exact rotatedIndex_eq nr hcolumns hstripes
  · have hd : ((map.numStripes : ℤ) - 2) = ((map.numStripes - 2 : ℕ) : ℤ) := by
      have : 0 < map.numStripes - 2 := hcolumns
      omega
    simp only [beq_self_eq_true, if_true, reduceCtorEq, beq_iff_eq, if_false, stripeIndexOf, hd]
    exact rotatedIndex_eq nr hcolumns hstripes

theorem calcDataOffset_eq (horder : Ordered profile) {keyOffset csumOffset blocksize : ℕ}
    (ha : keyOffset + csumOffset * blocksize = map.ce.start + a) (hlt : map.ce.start + a < 2 ^ 64)
    (devOffset : ℕ) :
    calcDataOffset keyOffset (recordOf map) devOffset csumOffset blocksize =
      .ok (wrap64 (devOffset + (((a : ℤ) - toInt32 (a / map.stripeLen : ℕ) * map.stripeLen +
        (toInt32 (a / map.stripeLen : ℕ)).tdiv (recoveredColumns map profile) * map.stripeLen) %
          2 ^ 64).toNat)) := by
  have hcolumns := h.columns_pos
  have hsub : sub64 (wrap64 (keyOffset + csumOffset * blocksize)) map.ce.start = a := by
    rw [ha, wrap64_of_lt hlt, sub64_of_le (Nat.le_add_right _ _) hlt, Nat.add_sub_cancel_left]
  have hpos : 0 < recoveredColumns map profile := by
    rw [recoveredColumns]
    split
    · exact h.stripes_pos
    · exact hcolumns
  have hd : (if (profile == .raid5) = true then (map.numStripes : ℤ) - 1
      else if (profile == .raid6) = true then (map.numStripes : ℤ) - 2 else map.numStripes) =
      (recoveredColumns map profile : ℤ) := by
    rcases horder with rfl | rfl | rfl | rfl <;>
      simp [recoveredColumns, Profile.columns] at hcolumns ⊢ <;> omega
  simp only [calcDataOffset, has_recordOf, h.has_raid5, h.has_raid6]
  simp only [recordOf, hsub, hd, divide_of_pos h.stripeLen_pos, bind, Except.bind,
    intDivide_of_pos _ hpos, pure, Except.pure]

end

/-! ## Agreement -/

/-- `btrfs_calc_stripe_index` and `calc_data_offset` find the stripe and the physical address that
a read of a sector goes to. -/
def SameGeometry (tree : MapTree) (map : MapLookup) (keyOffset csumOffset sectorsize : ℕ) : Prop :=
  let logical := keyOffset + csumOffset * sectorsize
  let offset := logical - map.ce.start
  ∃ plan, chooseStripes map .read 0 false offset (offset / map.stripeLen)
      (offset - offset / map.stripeLen * map.stripeLen) = .ok plan ∧
    btrfsCalcStripeIndex (recordOf map) logical = .ok (plan.stripeIndex : ℤ) ∧
    ∃ physical length,
      calcDataOffset keyOffset (recordOf map) (map.stripe plan.stripeIndex).physical csumOffset
        sectorsize = .ok physical ∧
      btrfsMapBlock' 2 tree .read logical true 0 false =
        .ok ⟨0, length, [⟨(map.stripe plan.stripeIndex).dev, physical⟩], none⟩

theorem btrfsMapBlock'_read {tree : MapTree} {ce : Loc MapLookup} {a : ℕ} {profile : Profile}
    (h : Accepted ce.entry profile)
    (hsearch : searchMapping tree (ce.entry.ce.start + a) = some ce) :
    btrfsMapBlock' 2 tree .read (ce.entry.ce.start + a) true 0 false =
      .ok ⟨0, mapLength ce.entry a, [(stripePlan ce.entry .read 0 false a).target ce.entry
        (stripePlan ce.entry .read 0 false a).stripeIndex], none⟩ := by
  have hwanted : wantsRaidMap ce.entry .read true 0 false = false := by simp [wantsRaidMap]
  have hround := @mapBlockRounds_found 0 1 _ tree true false ce .read hsearch
    (Nat.le_add_right _ a) 1 (by rw [hwanted]; exact fun _ => le_rfl)
  have hone : stripesRequired ce.entry .read false ≤ 1 := le_rfl
  rw [hwanted, Nat.add_sub_cancel_left, h.mapFound_direct .read a (Nat.zero_le _) hone] at hround
  rw [btrfsMapBlock', if_pos ⟨rfl, rfl⟩, hround, h.stripePlan_read]
  rfl

/-- The stripe number and what is left of it in an `int` have the same index in the chunk. -/
def SameIndex (map : MapLookup) (profile : Profile) (nr : ℕ) : Prop :=
  stripeIndexOf profile map.numStripes (toInt32 nr) = stripeIndexOf profile map.numStripes nr

/-- The offset from the stripe that is left to the one of the address, counted in the rows of the
recovery, leads to the row of the address. -/
def SameRow (map : MapLookup) (profile : Profile) (nr : ℕ) : Prop :=
  ((nr - toInt32 nr + (toInt32 nr).tdiv (recoveredColumns map profile)) * map.stripeLen : ℤ) ≡
    (nr / profile.columns map.numStripes : ℕ) * map.stripeLen [ZMOD 2 ^ 64]

theorem wrap64_add_toNat_emod (p x : ℕ) (y : ℤ) :
    wrap64 (p + (y % 2 ^ 64).toNat) = wrap64 (p + x) ↔ y ≡ x [ZMOD 2 ^ 64] := by
  unfold wrap64 Int.ModEq
  omega

theorem sameRow_iff (map : MapLookup) (profile : Profile) (a : ℕ) :
    ((a : ℤ) - toInt32 (a / map.stripeLen : ℕ) * map.stripeLen +
        (toInt32 (a / map.stripeLen : ℕ)).tdiv (recoveredColumns map profile) * map.stripeLen ≡
      (a % map.stripeLen + a / map.stripeLen / profile.columns map.numStripes * map.stripeLen : ℕ)
        [ZMOD 2 ^ 64]) ↔ SameRow map profile (a / map.stripeLen) := by
  have hsum : (a : ℤ) = (a / map.stripeLen : ℕ) * map.stripeLen + (a % map.stripeLen : ℕ) := by
    exact_mod_cast (Nat.div_add_mod' a map.stripeLen).symm
  rw [SameRow]
  generalize toInt32 (a / map.stripeLen : ℕ) = nr
  rw [Int.modEq_iff_dvd, Int.modEq_iff_dvd]
  apply Iff.of_eq
  congr 1
  push_cast at hsum ⊢
  linear_combination -hsum

/-- Below the `int` range both computations agree but for the rows of a RAID10 chunk. -/
theorem sameIndex_and_sameRow_iff {map : MapLookup} {profile : Profile} (h : Accepted map profile)
    {a : ℕ} (ha : a < 2 ^ 64) (hnr : a / map.stripeLen < 2 ^ 31) :
    SameIndex map profile (a / map.stripeLen) ∧ SameRow map profile (a / map.stripeLen) ↔
      a / map.stripeLen / recoveredColumns map profile =
        a / map.stripeLen / profile.columns map.numStripes := by
  have hint := toInt32_natCast hnr
  have hrow : ∀ columns, a / map.stripeLen / columns * map.stripeLen < 2 ^ 64 := by
    intro columns
    calc a / map.stripeLen / columns * map.stripeLen
        ≤ a / map.stripeLen * map.stripeLen := Nat.mul_le_mul_right _ (Nat.div_le_self _ _)
      _ ≤ a := Nat.div_mul_le_self _ _
      _ < 2 ^ 64 := ha
  rw [SameIndex, SameRow, hint, sub_self, zero_add, ← Int.ofNat_tdiv]
  simp only [true_and]
  constructor
  · intro heq
    have hnat : a / map.stripeLen / recoveredColumns map profile * map.stripeLen ≡
        a / map.stripeLen / profile.columns map.numStripes * map.stripeLen [MOD 2 ^ 64] := by
      exact_mod_cast heq
    exact Nat.eq_of_mul_eq_mul_right h.stripeLen_pos (hnat.eq_of_lt_of_lt (hrow _) (hrow _))
  · intro heq
    rw [heq]

def raid10Chunk : Chunk :=
  ⟨262144, 65536, BTRFS_BLOCK_GROUP_DATA ||| BTRFS_BLOCK_GROUP_RAID10, 4096, 2,
    [⟨1, 0⟩, ⟨2, 0⟩, ⟨3, 0⟩, ⟨4, 0⟩]⟩

def raid10Tree : MapTree := .node .black .nil (mapOfChunk id 1048576 raid10Chunk) .nil

theorem readChunks_raid10Tree : ReadChunks raid10Tree :=
  have hr : readOneChunk 4096 id .nil 1048576 raid10Chunk 0 176 = .ok (.ok raid10Tree) := by
    decide +kernel
  .read .nil (by decide) (by decide) hr

end Btrfs.ChunkRecover
