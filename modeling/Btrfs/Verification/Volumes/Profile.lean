import Btrfs.Model.Volumes
import Btrfs.Verification.Shared.RowLayout

/-! # The profiles of accepted chunks and their layouts -/

namespace Btrfs.Volumes

open Raid56

variable {map : MapLookup}

inductive Profile where
  | single
  | raid0
  | raid1
  | dup
  | raid10
  | raid5
  | raid6
deriving DecidableEq, Repr

def Profile.flag : Profile → BitVec 64
  | .single => 0
  | .raid0 => BTRFS_BLOCK_GROUP_RAID0
  | .raid1 => BTRFS_BLOCK_GROUP_RAID1
  | .dup => BTRFS_BLOCK_GROUP_DUP
  | .raid10 => BTRFS_BLOCK_GROUP_RAID10
  | .raid5 => BTRFS_BLOCK_GROUP_RAID5
  | .raid6 => BTRFS_BLOCK_GROUP_RAID6

/-- The stripe counts that are accepted for a profile. -/
def Profile.Count (numStripes subStripes : ℕ) : Profile → Prop
  | .single => numStripes = 1
  | .raid10 => subStripes = 2 ∧ numStripes % 2 = 0
  | .raid5 => 2 ≤ numStripes
  | .raid6 => 3 ≤ numStripes
  | .dup => numStripes ≤ 2
  | _ => True

/-- What `btrfs_check_chunk_valid` has checked of a mapped chunk. -/
structure Accepted (map : MapLookup) (profile : Profile) : Prop where
  flag : map.type &&& BTRFS_BLOCK_GROUP_PROFILE_MASK = profile.flag
  stripeLen : map.stripeLen = BTRFS_STRIPE_LEN
  size_pos : 0 < map.ce.size
  stripes_pos : 0 < map.numStripes
  count : profile.Count map.numStripes map.subStripes

/-! ## The check -/

theorem exists_profile_of_lt :
    ∀ n < 512, isPowerOf2 (BitVec.ofNat 64 n &&& BTRFS_BLOCK_GROUP_PROFILE_MASK) = true ∨
        BitVec.ofNat 64 n &&& BTRFS_BLOCK_GROUP_PROFILE_MASK = 0 →
      BitVec.ofNat 64 n &&& BTRFS_BLOCK_GROUP_PROFILE_MASK ∈
        [Profile.single, .raid0, .raid1, .dup, .raid10, .raid5, .raid6].map Profile.flag := by
  decide +kernel

theorem exists_profile {type : BitVec 64}
    (h : isPowerOf2 (type &&& BTRFS_BLOCK_GROUP_PROFILE_MASK) = true ∨
      type &&& BTRFS_BLOCK_GROUP_PROFILE_MASK = 0) :
    ∃ profile : Profile, type &&& BTRFS_BLOCK_GROUP_PROFILE_MASK = profile.flag := by
  -- only the nine low bits meet the mask
  have hlow : type &&& BTRFS_BLOCK_GROUP_PROFILE_MASK =
      BitVec.ofNat 64 (type.toNat % 2 ^ 9) &&& BTRFS_BLOCK_GROUP_PROFILE_MASK := by
    apply BitVec.eq_of_toNat_eq
    have hlt : type.toNat % 2 ^ 9 < 2 ^ 64 := (Nat.mod_lt _ (by decide)).trans (by decide)
    rw [BitVec.toNat_and, BitVec.toNat_and, BitVec.toNat_ofNat, Nat.mod_eq_of_lt hlt,
      ← Nat.and_two_pow_sub_one_eq_mod, Nat.and_assoc]
    rfl
  have hlt : type.toNat % 2 ^ 9 < 512 := Nat.mod_lt _ (by decide)
  rw [hlow] at h ⊢
  have hmem := exists_profile_of_lt _ hlt h
  obtain ⟨profile, -, hprofile⟩ := List.mem_map.mp hmem
  exact ⟨profile, hprofile.symm⟩

theorem Accepted.has_eq {profile : Profile} (h : Accepted map profile) (flags : BitVec 64)
    (hfl : BTRFS_BLOCK_GROUP_PROFILE_MASK &&& flags = flags) :
    map.has flags = decide (profile.flag &&& flags ≠ 0) := by
  have hand : map.type &&& flags = profile.flag &&& flags := by rw [← h.flag, BitVec.and_assoc, hfl]
  rw [MapLookup.has, hasFlags, hand]

variable {cond : Prop} {text : String} {row col : ℕ}

theorem failIf_eq_ok_iff [Decidable cond] : failIf cond text = .ok () ↔ ¬ cond := by
  unfold failIf
  split <;> simp_all

theorem failIf_bind_eq_ok_iff [Decidable cond] {next : Unit → Except String Unit} :
    (failIf cond text >>= next) = .ok () ↔ ¬ cond ∧ next () = .ok () := by
  unfold failIf
  split
  · rename_i hc
    exact iff_of_false nofun fun h => h.1 hc
  · rename_i hc
    exact ⟨fun h => ⟨hc, h⟩, fun h => h.2⟩

theorem accepted_of_check {sectorsize : ℕ} {chunk : Chunk} {slot : ℤ} {itemSize logical : ℕ}
    (h : btrfsCheckChunkValid sectorsize chunk slot itemSize logical = .ok ())
    (findDevice : ℕ → ℕ) : ∃ profile, Accepted (mapOfChunk findDevice logical chunk) profile := by
  obtain ⟨-, h⟩ := failIf_bind_eq_ok_iff.mp h
  obtain ⟨-, h⟩ := failIf_bind_eq_ok_iff.mp h
  obtain ⟨hlen, h⟩ := failIf_bind_eq_ok_iff.mp h
  obtain ⟨hu, h⟩ := failIf_bind_eq_ok_iff.mp h
  obtain ⟨-, h⟩ := failIf_bind_eq_ok_iff.mp h
  obtain ⟨-, h⟩ := failIf_bind_eq_ok_iff.mp h
  obtain ⟨-, h⟩ := failIf_bind_eq_ok_iff.mp h
  obtain ⟨hpower, h⟩ := failIf_bind_eq_ok_iff.mp h
  obtain ⟨-, h⟩ := failIf_bind_eq_ok_iff.mp h
  obtain ⟨hstripes, h⟩ := failIf_bind_eq_ok_iff.mp h
  have hcount := failIf_eq_ok_iff.mp h
  obtain ⟨profile, hprofile⟩ := exists_profile (not_not.mp hpower)
  have hf : ∀ flags, BTRFS_BLOCK_GROUP_PROFILE_MASK &&& flags = flags →
      hasFlags chunk.type flags = decide (profile.flag &&& flags ≠ 0) := by
    intro flags hflags
    rw [hasFlags, ← hprofile, BitVec.and_assoc, hflags]
  simp only [not_or, not_and, not_lt, not_not] at hlen hu hstripes hcount
  obtain ⟨h10, -, h5, h6, hdup, hsingle⟩ := hcount
  rw [hf _ (by decide)] at h10 h5 h6 hdup
  refine ⟨profile, hprofile, hu, Nat.pos_of_ne_zero hlen.1, ?_, ?_⟩
  · rw [MapLookup.numStripes, mapOfChunk, List.length_map]
    exact hstripes.1
  · rw [MapLookup.numStripes, mapOfChunk, List.length_map]
    cases profile with
    | single => exact hsingle hprofile
    | raid0 => trivial
    | raid1 => trivial
    | dup => exact hdup (by decide)
    | raid10 =>
      obtain ⟨hsub, hal⟩ := h10 (by decide)
      rw [hsub, isAligned, decide_eq_true_eq] at hal
      exact ⟨hsub, (Nat.and_one_is_mod _).symm.trans hal⟩
    | raid5 => exact h5 (by decide)
    | raid6 => exact h6 (by decide)

/-! ## Layouts -/

def Profile.columns (n : ℕ) : Profile → ℕ
  | .single | .raid1 | .dup => 1
  | .raid0 => n
  | .raid10 => n / 2
  | .raid5 => n - 1
  | .raid6 => n - 2

/-- The stripe that a read without a mirror number goes to. -/
def Profile.place (n : ℕ) : Profile → ℕ → ℕ → ℕ
  | .single, _, col | .raid0, _, col => col
  | .raid1, row, _ => row % n
  | .dup, _, _ => 0
  | .raid10, _, col => col * 2
  | .raid5, row, col | .raid6, row, col => (row + col) % n

/-- The first stripe that holds a data stripe, and how many stripes from there on do. -/
def Profile.copyRange (n : ℕ) : Profile → ℕ → ℕ → ℕ × ℕ
  | .single, _, col | .raid0, _, col => (col, 1)
  | .raid1, _, _ | .dup, _, _ => (0, n)
  | .raid10, _, col => (col * 2, 2)
  | .raid5, row, col | .raid6, row, col => ((row + col) % n, 1)

def Profile.parity : Profile → Bool
  | .raid5 | .raid6 => true
  | _ => false

theorem eq_of_add_mod_eq {n col' : ℕ} (hcol : col < n) (hcol' : col' < n)
    (h : (row + col) % n = (row + col') % n) : col = col' :=
  (Nat.ModEq.add_left_cancel' row h).eq_of_lt_of_lt hcol hcol'

theorem Accepted.copyRange_le {profile : Profile} (h : Accepted map profile)
    (hcol : col < profile.columns map.numStripes) :
    (profile.copyRange map.numStripes row col).1 + (profile.copyRange map.numStripes row col).2 ≤
      map.numStripes := by
  have hpos := h.stripes_pos
  have hcount := h.count
  have hmod := Nat.mod_lt (row + col) hpos
  cases profile <;>
    simp only [Profile.columns, Profile.copyRange] at hcol hcount ⊢ <;> omega

theorem Accepted.copyRange_pos {profile : Profile} (h : Accepted map profile) (row col : ℕ) :
    0 < (profile.copyRange map.numStripes row col).2 := by
  have hpos := h.stripes_pos
  cases profile <;> simp only [Profile.copyRange] <;> omega

theorem Accepted.stripeLen_pos {profile : Profile} (h : Accepted map profile) :
    0 < map.stripeLen := by
  rw [h.stripeLen]
  decide

def layout {map : MapLookup} {profile : Profile} (h : Accepted map profile) : RowLayout where
  width := map.numStripes
  columns := profile.columns map.numStripes
  unit := map.stripeLen
  place := profile.place map.numStripes
  copies row col := List.range' (profile.copyRange map.numStripes row col).1
    (profile.copyRange map.numStripes row col).2
  columns_pos := by
    have hpos := h.stripes_pos
    have hcount := h.count
    cases profile <;> simp only [Profile.columns, Profile.Count] at hcount ⊢ <;> omega
  unit_pos := h.stripeLen_pos
  place_mem := by
    intro row col hcol
    have hpos := h.stripes_pos
    rw [List.mem_range'_1]
    cases profile <;> simp only [Profile.place, Profile.copyRange] <;> try omega
    exact ⟨Nat.zero_le _, (Nat.mod_lt row hpos).trans_le (Nat.zero_add _).ge⟩
  copies_lt := by
    intro row col hcol i hi
    exact (List.mem_range'_1.mp hi).2.trans_le (h.copyRange_le hcol)
  copies_disjoint := by
    intro row col col' i hcol hcol' hi hi'
    rw [List.mem_range'_1] at hi hi'
    cases profile <;> simp only [Profile.columns, Profile.copyRange] at hcol hcol' hi hi' <;>
      try omega
    all_goals
      have hlt : col < map.numStripes := by omega
      have hlt' : col' < map.numStripes := by omega
      have hsame : (row + col) % map.numStripes = (row + col') % map.numStripes := by omega
      exact eq_of_add_mod_eq hlt hlt' hsame

/-! ## Plans -/

theorem sub_div_mul_self (a b : ℕ) : a - a / b * b = a % b := by rw [Nat.mod_eq_sub, Nat.mul_comm]

section

variable {profile : Profile} (h : Accepted map profile)

include h

theorem Accepted.has_raid0 : map.has BTRFS_BLOCK_GROUP_RAID0 = (profile == .raid0) := by
  rw [h.has_eq _ (by decide)]
  cases profile <;> rfl

theorem Accepted.has_raid1 : map.has BTRFS_BLOCK_GROUP_RAID1 = (profile == .raid1) := by
  rw [h.has_eq _ (by decide)]
  cases profile <;> rfl

theorem Accepted.has_raid10 : map.has BTRFS_BLOCK_GROUP_RAID10 = (profile == .raid10) := by
  rw [h.has_eq _ (by decide)]
  cases profile <;> rfl

theorem Accepted.has_dup : map.has BTRFS_BLOCK_GROUP_DUP = (profile == .dup) := by
  rw [h.has_eq _ (by decide)]
  cases profile <;> rfl

theorem Accepted.has_raid5 : map.has BTRFS_BLOCK_GROUP_RAID5 = (profile == .raid5) := by
  rw [h.has_eq _ (by decide)]
  cases profile <;> rfl

theorem Accepted.has_raid6 : map.has BTRFS_BLOCK_GROUP_RAID6 = (profile == .raid6) := by
  rw [h.has_eq _ (by decide)]
  cases profile <;> rfl

theorem Accepted.has_parity :
    map.has (BTRFS_BLOCK_GROUP_RAID5 ||| BTRFS_BLOCK_GROUP_RAID6) = profile.parity := by
  rw [h.has_eq _ (by decide)]
  cases profile <;> rfl

theorem Accepted.has_striped :
    map.has (BTRFS_BLOCK_GROUP_RAID0 ||| BTRFS_BLOCK_GROUP_RAID1 ||| BTRFS_BLOCK_GROUP_RAID5 |||
      BTRFS_BLOCK_GROUP_RAID6 ||| BTRFS_BLOCK_GROUP_RAID10 ||| BTRFS_BLOCK_GROUP_DUP) =
      (profile != .single) := by
  rw [h.has_eq _ (by decide)]
  cases profile <;> rfl

theorem Accepted.nrDataStripes_eq (hparity : profile.parity = true) :
    nrDataStripes map = profile.columns map.numStripes := by
  rw [nrDataStripes, nrParityStripes, h.has_raid5, h.has_raid6]
  cases profile with
  | raid5 => rfl
  | raid6 => rfl
  | _ => cases hparity

theorem Accepted.stripePlan_read (a : ℕ) :
    stripePlan map .read 0 false a = ⟨1, profile.place map.numStripes ((layout h).row a)
      ((layout h).col a), (layout h).row a, a % map.stripeLen⟩ := by
  have hcount := h.count
  have hd := h.nrDataStripes_eq
  simp only [stripePlan, h.has_raid1, h.has_raid10, h.has_dup, h.has_parity, sub_div_mul_self,
    RowLayout.row, RowLayout.col, layout]
  cases profile with
  | single =>
    have hone : map.numStripes = 1 := hcount
    simp [Profile.place, Profile.columns, Profile.parity, hone]
  | raid0 => simp [Profile.place, Profile.columns, Profile.parity]
  | raid1 => simp [Profile.place, Profile.columns]
  | dup => simp [Profile.place, Profile.columns]
  | raid10 => simp [Profile.place, Profile.columns, hcount.1]
  | raid5 => simp [Profile.place, Profile.parity, hd rfl]
  | raid6 => simp [Profile.place, Profile.parity, hd rfl]

theorem Accepted.stripePlan_write (hparity : profile.parity = false) (raidMap : Bool) (a : ℕ) :
    stripePlan map .write 0 raidMap a =
      ⟨(profile.copyRange map.numStripes ((layout h).row a) ((layout h).col a)).2,
        (profile.copyRange map.numStripes ((layout h).row a) ((layout h).col a)).1,
        (layout h).row a, a % map.stripeLen⟩ := by
  have hcount := h.count
  simp only [stripePlan, h.has_raid1, h.has_raid10, h.has_dup, h.has_parity, hparity,
    sub_div_mul_self, RowLayout.row, RowLayout.col, layout]
  cases profile with
  | single =>
    have hone : map.numStripes = 1 := hcount
    simp [Profile.copyRange, Profile.columns, hone]
  | raid0 => simp [Profile.copyRange, Profile.columns]
  | raid1 => simp [Profile.copyRange, Profile.columns]
  | dup => simp [Profile.copyRange, Profile.columns]
  | raid10 => simp [Profile.copyRange, Profile.columns, hcount.1]
  | raid5 => cases hparity
  | raid6 => cases hparity

theorem Accepted.stripePlan_parity (hparity : profile.parity = true) (a : ℕ) :
    stripePlan map .write 0 true a = ⟨map.numStripes, 0, (layout h).row a, 0⟩ := by
  have hcolumns := (layout h).columns_pos
  have hu := (layout h).unit_pos
  have hd : nrDataStripes map = (layout h).columns := h.nrDataStripes_eq hparity
  have hlen : map.stripeLen = (layout h).unit := rfl
  have hrow : a / ((layout h).columns * (layout h).unit) *
      ((layout h).columns * (layout h).unit) / (layout h).unit / (layout h).columns =
        (layout h).row a := by
    rw [RowLayout.row, Nat.div_div_eq_div_mul, Nat.div_div_eq_div_mul,
      Nat.mul_comm (layout h).unit, Nat.mul_div_cancel _ (Nat.mul_pos hcolumns hu)]
  simp only [stripePlan, h.has_raid1, h.has_raid10, h.has_dup, h.has_parity, hd, hlen, hrow]
  cases profile with
  | raid5 => rfl
  | raid6 => rfl
  | _ => cases hparity

end

end Btrfs.Volumes
