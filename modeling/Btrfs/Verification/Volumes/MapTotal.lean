import Btrfs.Model.MapBlock
import Btrfs.Verification.CacheTree.Ranges
import Btrfs.Verification.Volumes.Reading

/-! # Mapping an address of accepted chunks never fails -/

namespace Btrfs.Volumes

open ExtentCache Raid56 RbTree

variable {map : MapLookup} {profile : Profile} {mirrorNum stripesAllocated logical : ℕ}
  {tree : MapTree} {multiRet raidMapRet : Bool} {ce : Loc MapLookup}

theorem divide_of_pos {a b : ℕ} (h : 0 < b) : divide a b = .ok (a / b) := if_neg h.ne'

theorem remainder_of_pos {a b : ℕ} (h : 0 < b) : remainder a b = .ok (a % b) := if_neg h.ne'

/-! ## The plan -/

def Profile.numCopies (n : ℕ) : Profile → ℕ
  | .single | .raid0 => 1
  | .raid1 | .dup => n
  | .raid10 | .raid5 => 2
  | .raid6 => 3

def Profile.mirrorPlace (n : ℕ) : Profile → ℕ → ℕ → ℕ → ℕ
  | .single, _, col, _ | .raid0, _, col, _ => col
  | .raid1, _, _, m | .dup, _, _, m => m - 1
  | .raid10, _, col, m => col * 2 + (m - 1)
  | .raid5, row, col, m => (row + if 1 < m then n - 1 + m - 2 else col) % n
  | .raid6, row, col, m => (row + if 1 < m then n - 2 + m - 2 else col) % n

section

variable (h : Accepted map profile)

include h

theorem Accepted.columns_pos : 0 < profile.columns map.numStripes := (layout h).columns_pos

theorem Accepted.chooseStripes_eq (rw : Rw) (mirrorNum : ℕ) (raidMap : Bool) (offset : ℕ) :
    chooseStripes map rw mirrorNum raidMap offset (offset / map.stripeLen)
      (offset - offset / map.stripeLen * map.stripeLen) =
        .ok (stripePlan map rw mirrorNum raidMap offset) := by
  have hstripes := h.stripes_pos
  have hlen := h.stripeLen_pos
  have hcolumns := h.columns_pos
  have hcount := h.count
  have hd := h.nrDataStripes_eq
  simp only [chooseStripes, stripePlan, h.has_raid1, h.has_raid10, h.has_dup, h.has_parity]
  cases profile with
  | single => simp [Profile.parity, remainder_of_pos hstripes, divide_of_pos hstripes, bind,
      Except.bind, pure, Except.pure]
  | raid0 => simp [Profile.parity, remainder_of_pos hstripes, divide_of_pos hstripes, bind,
      Except.bind, pure, Except.pure]
  | raid1 =>
    cases rw with
    | write => rfl
    | read =>
      by_cases hm : mirrorNum = 0
      · simp [hm, remainder_of_pos hstripes, bind, Except.bind, pure, Except.pure]
      · simp [hm, pure, Except.pure]
  | dup => cases rw <;> rfl
  | raid10 =>
    have hsub : map.subStripes = 2 := hcount.1
    have hfac : 0 < map.numStripes / 2 := hcolumns
    cases rw with
    | write => simp [hsub, divide_of_pos (by decide : 0 < 2), divide_of_pos hfac,
        remainder_of_pos hfac, bind, Except.bind, pure, Except.pure]
    | read =>
      by_cases hm : mirrorNum = 0 <;>
        simp [hm, hsub, divide_of_pos (by decide : 0 < 2), divide_of_pos hfac,
          remainder_of_pos hfac, bind, Except.bind, pure, Except.pure]
  | raid5 =>
    have hpos : 0 < nrDataStripes map := by
      rw [hd rfl]
      exact hcolumns
    cases raidMap <;>
      simp [Profile.parity, divide_of_pos (Nat.mul_pos hpos hlen), divide_of_pos hlen,
        divide_of_pos hpos, remainder_of_pos hpos, remainder_of_pos hstripes, bind, Except.bind,
        pure, Except.pure]
  | raid6 =>
    have hpos : 0 < nrDataStripes map := by
      rw [hd rfl]
      exact hcolumns
    cases raidMap <;>
      simp [Profile.parity, divide_of_pos (Nat.mul_pos hpos hlen), divide_of_pos hlen,
        divide_of_pos hpos, remainder_of_pos hpos, remainder_of_pos hstripes, bind, Except.bind,
        pure, Except.pure]

/-- A plan inside the stripes of the chunk and inside what is allocated. -/
structure PlanFits (map : MapLookup) (required : ℕ) (plan : StripePlan) : Prop where
  pos : 0 < plan.numStripes
  inside : plan.stripeIndex + plan.numStripes ≤ map.numStripes
  allocated : plan.numStripes ≤ required

theorem Accepted.has_mirrored : map.has (BTRFS_BLOCK_GROUP_RAID1 ||| BTRFS_BLOCK_GROUP_DUP) =
      (profile == .raid1 || profile == .dup) := by
  rw [h.has_eq _ (by decide)]
  cases profile <;> rfl

theorem Accepted.stripePlan_mirror (hm : 0 < mirrorNum) (a : ℕ) :
    stripePlan map .read mirrorNum false a =
      ⟨1, profile.mirrorPlace map.numStripes ((layout h).row a) ((layout h).col a) mirrorNum,
        (layout h).row a, a % map.stripeLen⟩ := by
  have hcount := h.count
  have hd := h.nrDataStripes_eq
  simp only [stripePlan, h.has_raid1, h.has_raid10, h.has_dup, h.has_parity, sub_div_mul_self,
    RowLayout.row, RowLayout.col, layout, hm.ne', ne_eq]
  cases profile with
  | single =>
    have hone : map.numStripes = 1 := hcount
    simp [Profile.mirrorPlace, Profile.columns, Profile.parity, hone]
  | raid0 => simp [Profile.mirrorPlace, Profile.columns, Profile.parity]
  | raid1 => simp [Profile.mirrorPlace, Profile.columns]
  | dup => simp [Profile.mirrorPlace, Profile.columns]
  | raid10 =>
    simp [Profile.mirrorPlace, Profile.columns, hcount.1]
    omega
  | raid5 => simp [Profile.mirrorPlace, Profile.parity, hd rfl, Profile.columns]
  | raid6 => simp [Profile.mirrorPlace, Profile.parity, hd rfl, Profile.columns]

theorem Accepted.mirrorPlace_lt (hm : 0 < mirrorNum)
    (hle : mirrorNum ≤ profile.numCopies map.numStripes) (row : ℕ) {col : ℕ}
    (hcol : col < profile.columns map.numStripes) :
    profile.mirrorPlace map.numStripes row col mirrorNum < map.numStripes := by
  have hmod := fun a => Nat.mod_lt a h.stripes_pos
  have hcount := h.count
  cases profile <;>
    simp only [Profile.mirrorPlace, Profile.columns, Profile.numCopies, Profile.Count] at * <;>
    first
      | exact hmod _
      | omega

/-- Writing, the mirror number only matters for parity without a `raid_map`. -/
theorem Accepted.stripePlan_write_mirror (hparity : profile.parity = false) (mirrorNum : ℕ)
    (raidMap : Bool) (a : ℕ) :
    stripePlan map .write mirrorNum raidMap a = stripePlan map .write 0 raidMap a := by
  simp [stripePlan, h.has_parity, hparity]

theorem Accepted.stripePlan_raidMap (hparity : profile.parity = true) (rw : Rw) (mirrorNum a : ℕ) :
    stripePlan map rw mirrorNum true a = ⟨map.numStripes, 0, (layout h).row a, 0⟩ := by
  rw [← h.stripePlan_parity hparity a]
  simp only [stripePlan, h.has_raid1, h.has_raid10, h.has_dup]
  cases profile with
  | raid5 => rfl
  | raid6 => rfl
  | _ => cases hparity

theorem Accepted.stripePlan_write_data (hparity : profile.parity = true) (mirrorNum a : ℕ) :
    stripePlan map .write mirrorNum false a = stripePlan map .read mirrorNum false a := by
  simp only [stripePlan, h.has_raid1, h.has_raid10, h.has_dup]
  cases profile with
  | raid5 => rfl
  | raid6 => rfl
  | _ => cases hparity

theorem Accepted.planFits_read (hle : mirrorNum ≤ profile.numCopies map.numStripes) (a : ℕ) :
    PlanFits map 1 (stripePlan map .read mirrorNum false a) := by
  obtain rfl | hm := Nat.eq_zero_or_pos mirrorNum
  · rw [h.stripePlan_read]
    exact ⟨Nat.one_pos, (layout h).place_lt a, le_rfl⟩
  · rw [h.stripePlan_mirror hm]
    exact ⟨Nat.one_pos, h.mirrorPlace_lt hm hle _ ((layout h).col_lt a), le_rfl⟩

theorem Accepted.stripesRequired_write (hparity : profile.parity = false) (row col : ℕ) :
    stripesRequired map .write false = (profile.copyRange map.numStripes row col).2 := by
  have hcount := h.count
  simp only [stripesRequired, h.has_mirrored, h.has_raid10]
  cases profile with
  | raid10 => exact hcount.1
  | raid5 => cases hparity
  | raid6 => cases hparity
  | _ => rfl

theorem Accepted.planFits (rw : Rw) (raidMap : Bool) (a : ℕ)
    (hle : mirrorNum ≤ profile.numCopies map.numStripes)
    (hraid : raidMap = true → profile.parity = true) :
    PlanFits map (stripesRequired map rw raidMap) (stripePlan map rw mirrorNum raidMap a) := by
  cases hmap : raidMap with
  | true =>
    rw [h.stripePlan_raidMap (hraid hmap)]
    exact ⟨h.stripes_pos, (Nat.zero_add _).le, le_rfl⟩
  | false =>
    cases rw with
    | read => exact h.planFits_read hle a
    | write =>
      cases hparity : profile.parity with
      | true =>
        have hone : stripesRequired map .write false = 1 := by
          simp only [stripesRequired, h.has_mirrored, h.has_raid10]
          cases profile with
          | raid5 => rfl
          | raid6 => rfl
          | _ => cases hparity
        rw [h.stripePlan_write_data hparity, hone]
        exact h.planFits_read hle a
      | false =>
        rw [h.stripePlan_write_mirror hparity, h.stripePlan_write hparity]
        exact ⟨h.copyRange_pos _ _, h.copyRange_le ((layout h).col_lt a),
          (h.stripesRequired_write hparity _ _).ge⟩

end

/-! ## Filling the result -/

/-- The entry of `multi->stripes` for the stripe `k` of the chunk. -/
def StripePlan.target (plan : StripePlan) (map : MapLookup) (k : ℕ) : BioStripe :=
  ⟨(map.stripe k).dev,
    wrap64 ((map.stripe k).physical + plan.stripeOffset + plan.stripeNr * map.stripeLen)⟩

theorem fillMulti_eq {plan : StripePlan} {n i : ℕ}
    (hinside : plan.stripeIndex + (i + n) ≤ map.numStripes) (halc : i + n ≤ stripesAllocated) :
    fillMulti map stripesAllocated plan n i =
      .ok ((List.range' (plan.stripeIndex + i) n).map (plan.target map)) := by
  induction n generalizing i with
  | zero => rfl
  | succ n ih =>
    have hlt : plan.stripeIndex + i < map.stripes.length := by
      unfold MapLookup.numStripes at hinside
      omega
    have hnot : ¬ stripesAllocated ≤ i := by omega
    have hr := ih (i := i + 1) (by omega) (by omega)
    have hstr : map.stripe (plan.stripeIndex + i) = map.stripes[plan.stripeIndex + i] := by
      simp [MapLookup.stripe, List.getElem?_eq_getElem hlt]
    simp only [fillMulti, hnot, List.getElem?_eq_getElem hlt, hr, List.range'_succ, List.map_cons, StripePlan.target, hstr]
    rfl

section

variable (h : Accepted map profile) (rw : Rw) (offset : ℕ)
  (hle : mirrorNum ≤ profile.numCopies map.numStripes)

include h hle

theorem Accepted.fillMulti_plan (raidMap : Bool) (hraid : raidMap = true → profile.parity = true)
    (hallocated : stripesRequired map rw raidMap ≤ stripesAllocated) :
    fillMulti map stripesAllocated (stripePlan map rw mirrorNum raidMap offset)
      (stripePlan map rw mirrorNum raidMap offset).numStripes 0 =
        .ok ((List.range' (stripePlan map rw mirrorNum raidMap offset).stripeIndex
          (stripePlan map rw mirrorNum raidMap offset).numStripes).map
            ((stripePlan map rw mirrorNum raidMap offset).target map)) := by
  have hf := h.planFits rw raidMap offset hle hraid
  refine fillMulti_eq ?_ ?_
  · rw [Nat.zero_add]
    exact hf.inside
  · rw [Nat.zero_add]
    exact hf.allocated.trans hallocated

theorem Accepted.mapFound_direct (hallocated : stripesRequired map rw false ≤ stripesAllocated) :
    mapFound map rw offset true mirrorNum false stripesAllocated =
      .ok ⟨0, mapLength map offset, (List.range' (stripePlan map rw mirrorNum false offset).stripeIndex
        (stripePlan map rw mirrorNum false offset).numStripes).map
          ((stripePlan map rw mirrorNum false offset).target map), none⟩ := by
  have hst : ¬ offset < offset / map.stripeLen * map.stripeLen :=
    not_lt.mpr (Nat.div_mul_le_self _ _)
  have hf := h.planFits rw false offset hle nofun
  have hidx : ¬ map.numStripes ≤ (stripePlan map rw mirrorNum false offset).stripeIndex := by
    have := hf.pos
    have := hf.inside
    omega
  simp only [mapFound, divide_of_pos h.stripeLen_pos, hst, bind,
    Except.bind, h.chooseStripes_eq, hidx, h.fillMulti_plan rw offset hle false nofun hallocated]
  rfl

theorem Accepted.mapFound_raidMap (hparity : profile.parity = true)
    (hallocated : stripesRequired map rw true ≤ stripesAllocated) :
    ∃ stripes raidMap, mapFound map rw offset true mirrorNum true stripesAllocated =
      .ok ⟨0, map.stripeLen, stripes, some raidMap⟩ := by
  have hst : ¬ offset < offset / map.stripeLen * map.stripeLen :=
    not_lt.mpr (Nat.div_mul_le_self _ _)
  have hf := h.fillMulti_plan rw offset hle true (fun _ => hparity) hallocated
  rw [h.stripePlan_raidMap hparity] at hf
  let entries := ((List.range map.numStripes).map fun i =>
    wrap64 (fillRaidMap map ((layout h).row offset) i)).zip ((List.range' 0 map.numStripes).map
        (StripePlan.target ⟨map.numStripes, 0, (layout h).row offset, 0⟩ map))
  have hlen : entries.length = map.numStripes := by simp [entries]
  obtain ⟨sorted, hsorted, -, -⟩ := sortParityStripes_spec (Nat.lt_succ_of_le (disorder_le entries))
  rw [hlen] at hsorted
  have hidx : ¬ map.numStripes ≤ 0 := not_le.mpr h.stripes_pos
  refine ⟨sorted.map Prod.snd, sorted.map Prod.fst, ?_⟩
  simp only [mapFound, divide_of_pos h.stripeLen_pos, hst, bind,
    Except.bind, h.chooseStripes_eq, h.stripePlan_raidMap hparity, hidx, hf]
  simp only [entries] at hsorted
  simp only [hsorted]
  rfl

end

theorem Accepted.mapFound_total (h : Accepted map profile) (rw : Rw) {offset : ℕ}
    (hoff : offset < map.ce.size) (multiRet : Bool)
    (hle : mirrorNum ≤ profile.numCopies map.numStripes) {raidMap : Bool}
    (hraid : raidMap = true → profile.parity = true)
    (hallocated : multiRet = true → stripesRequired map rw raidMap ≤ stripesAllocated) :
    ∃ result, mapFound map rw offset multiRet mirrorNum raidMap stripesAllocated = .ok result ∧
      result.ret = 0 ∧ 0 < result.length := by
  have hlen := h.mapLength_pos hoff
  cases multiRet with
  | false =>
    refine ⟨⟨0, mapLength map offset, [], none⟩, ?_, rfl, hlen⟩
    have hst : ¬ offset < offset / map.stripeLen * map.stripeLen :=
      not_lt.mpr (Nat.div_mul_le_self _ _)
    simp only [mapFound, divide_of_pos h.stripeLen_pos, hst, bind, Except.bind]
    rfl
  | true =>
    cases raidMap with
    | false => exact ⟨_, h.mapFound_direct rw offset hle (hallocated rfl), rfl, hlen⟩
    | true =>
      obtain ⟨stripes, raidMap, hc⟩ := h.mapFound_raidMap rw offset hle (hraid rfl) (hallocated rfl)
      exact ⟨_, hc, rfl, h.stripeLen_pos⟩

/-! ## The mapping tree -/

/-- The trees that `read_one_chunk` builds; the address and the length of a chunk are `u64`. -/
inductive ReadChunks : MapTree → Prop where
  | nil : ReadChunks .nil
  | read {sectorsize : ℕ} {findDevice : ℕ → ℕ} {tree tree' : MapTree} {logical : ℕ} {chunk : Chunk}
      {slot : ℤ} {itemSize : ℕ} (h : ReadChunks tree) (hlogical : logical < 2 ^ 64)
      (hlength : chunk.length < 2 ^ 64)
      (hcall : readOneChunk sectorsize findDevice tree logical chunk slot itemSize =
        .ok (.ok tree')) : ReadChunks tree'

theorem readOneChunk_cases {sectorsize : ℕ} {findDevice : ℕ → ℕ} {tree' : MapTree} {chunk : Chunk}
    {slot : ℤ} {itemSize : ℕ}
    (hc : readOneChunk sectorsize findDevice tree logical chunk slot itemSize = .ok (.ok tree'))
    :
    btrfsCheckChunkValid sectorsize chunk slot itemSize logical = .ok () ∧ (tree' = tree ∨
        rbInsert tree (mapOfChunk findDevice logical chunk) (fun e => cacheTreeCompRange e.ce
          (mapOfChunk findDevice logical chunk).ce.start
          (mapOfChunk findDevice logical chunk).ce.size) = .ok (0, tree')) := by
  unfold readOneChunk at hc
  split at hc
  · cases hc
  · rename_i hcheck
    refine ⟨hcheck, ?_⟩
    dsimp only at hc
    split at hc
    · left
      exact (Except.ok.inj (Except.ok.inj hc)).symm
    · right
      split at hc
      · cases hc
      · rename_i ret tree'' hinside
        split at hc
        · rename_i hret
          obtain rfl := Except.ok.inj (Except.ok.inj hc)
          rw [hinside, hret]
        · cases hc

structure AcceptedTree (tree : MapTree) : Prop where
  valid : Valid tree
  accepted : ∀ map ∈ inorder tree, ∃ profile, Accepted map profile
  u64 : ∀ map ∈ inorder tree, map.ce.start < 2 ^ 64 ∧ map.ce.size < 2 ^ 64
  disjoint : (∀ map ∈ inorder tree, map.ce.start + map.ce.size < 2 ^ 64) →
    CacheTree.Ranges ((inorder tree).map MapLookup.ce)

theorem AcceptedTree.consistent (h : AcceptedTree tree)
    (hbound : ∀ map ∈ inorder tree, map.ce.start + map.ce.size < 2 ^ 64) (start size : ℕ) :
    Consistent (fun map : MapLookup => cacheTreeCompRange map.ce start size) (inorder tree) :=
  List.pairwise_map.mp ((h.disjoint hbound).consistent start size)

theorem AcceptedTree.insert {tree' : MapTree} (h : AcceptedTree tree) (hmap : Accepted map profile)
    (hu64 : map.ce.start < 2 ^ 64 ∧ map.ce.size < 2 ^ 64)
    (hinside : rbInsert tree map (fun e => cacheTreeCompRange e.ce map.ce.start map.ce.size) =
      .ok (0, tree')) : AcceptedTree tree' := by
  obtain hfail | ⟨root, below, above, hsplit, hc, hval, horder⟩ :=
    rbInsert_sound (fun e : MapLookup => cacheTreeCompRange e.ce map.ce.start map.ce.size) map h.valid
  · obtain ⟨hret, -⟩ := Prod.mk.inj (Except.ok.inj (hinside.symm.trans hfail))
    exact absurd hret (by decide)
  · obtain ⟨-, rfl⟩ := Prod.mk.inj (Except.ok.inj (hinside.symm.trans hc))
    have hmem : ∀ m, m ∈ inorder tree' ↔ m = map ∨ m ∈ inorder tree := by
      rw [horder, hsplit]
      simp only [List.mem_append, List.mem_cons]
      tauto
    refine ⟨hval, ?_, ?_, ?_⟩
    · intro m hm
      obtain rfl | hm := (hmem m).mp hm
      · exact ⟨profile, hmap⟩
      · exact h.accepted m hm
    · intro m hm
      obtain rfl | hm := (hmem m).mp hm
      · exact hu64
      · exact h.u64 m hm
    · intro hbound
      have hold : ∀ m ∈ inorder tree, m.ce.start + m.ce.size < 2 ^ 64 :=
        fun m hm => hbound m ((hmem m).mpr (.inr hm))
      have hnew := hbound map ((hmem map).mpr (.inl rfl))
      have hranges := h.disjoint hold
      obtain ⟨-, hfail⟩ | ⟨root, below, above, hcut, hc, -, horder⟩ :=
        rbInsert_spec map h.valid (h.consistent hold map.ce.start map.ce.size)
      · obtain ⟨hret, -⟩ := Prod.mk.inj (Except.ok.inj (hinside.symm.trans hfail))
        exact absurd hret (by decide)
      · obtain ⟨-, rfl⟩ := Prod.mk.inj (Except.ok.inj (hinside.symm.trans hc))
        have hin : ∀ e, e ∈ below.map MapLookup.ce ∨ e ∈ above.map MapLookup.ce →
            e ∈ (inorder tree).map MapLookup.ce := by
          intro e he
          rw [hcut.append, List.map_append]
          exact List.mem_append.mpr he
        rw [horder, List.map_append]
        refine CacheTree.ranges_insert map.ce ?_ hmap.size_pos hnew ?_ ?_
        · rw [← List.map_append, ← hcut.append]
          exact hranges
        · intro e he
          have hpos := hranges.comp_pos_iff (hin e (.inl he)) map.ce.start map.ce.size
          obtain ⟨m, hm, rfl⟩ := List.mem_map.mp he
          exact hpos.mp (hcut.below m hm)
        · intro e he
          have hneg := hranges.comp_neg_iff (hin e (.inr he)) hnew hmap.size_pos
          obtain ⟨m, hm, rfl⟩ := List.mem_map.mp he
          exact hneg.mp (hcut.above m hm)

theorem ReadChunks.acceptedTree (h : ReadChunks tree) : AcceptedTree tree := by
  induction h with
  | nil => exact ⟨valid_nil, List.forall_mem_nil _, by simp, fun _ => CacheTree.ranges_nil⟩
  | @read sectorsize findDevice tree tree' logical chunk slot itemSize _ hlog hlen hc ih =>
    obtain ⟨hcheck, rfl | hinside⟩ := readOneChunk_cases hc
    · exact ih
    · obtain ⟨profile, haccepted⟩ := accepted_of_check hcheck findDevice
      exact ih.insert haccepted ⟨hlog, hlen⟩ hinside

/-! ## Finding the chunk of an address -/

theorem AcceptedTree.search (h : AcceptedTree tree) (hlog : logical < 2 ^ 64)
    (hsearch : searchMapping tree logical = some ce) :
    ce.entry ∈ inorder tree ∧ (ce.entry.ce.start ≤ logical →
      logical < ce.entry.ce.start + ce.entry.ce.size ∧
        ce.entry.ce.start + ce.entry.ce.size < 2 ^ 64) := by
  have hsecond : ce.root = tree ∧ cacheTreeCompRange ce.entry.ce logical 1 ≤ 0 := by
    have hsecond := rbSearch_sound (fun map : MapLookup => cacheTreeCompRange map.ce logical 1) tree
    unfold searchMapping at hsearch
    split at hsearch
    · rename_i hfound
      rw [hfound] at hsecond
      obtain rfl := Option.some.inj hsearch
      exact ⟨hsecond.1, hsecond.2.le⟩
    · rename_i hn
      rw [hn, hsearch] at hsecond
      exact ⟨hsecond.1, hsecond.2.le⟩
  obtain ⟨rfl, hc⟩ := hsecond
  have hmem := ce.entry_mem
  refine ⟨hmem, fun hst => ?_⟩
  obtain ⟨hst64, hs64⟩ := h.u64 _ hmem
  -- the end is above the address, so it has not wrapped
  have hend : ¬ wrap64 (ce.entry.ce.start + ce.entry.ce.size) ≤ logical := by
    intro hle
    rw [cacheTreeCompRange, if_pos hle] at hc
    exact absurd hc (by decide)
  have hbound : ce.entry.ce.start + ce.entry.ce.size < 2 ^ 64 := by
    by_contra hw
    apply hend
    rw [wrap64]
    omega
  rw [wrap64_of_lt hbound] at hend
  omega

theorem AcceptedTree.search_found (h : AcceptedTree tree)
    (hbound : ∀ map ∈ inorder tree, map.ce.start + map.ce.size < 2 ^ 64) (hmem : map ∈ inorder tree)
    (hlo : map.ce.start ≤ logical) (hhi : logical < map.ce.start + map.ce.size) :
    ∃ ce, searchMapping tree logical = some ce ∧ ce.entry = map := by
  have hranges := h.disjoint hbound
  have hz : ∀ m ∈ inorder tree, cacheTreeCompRange m.ce logical 1 = 0 ↔
      CacheTree.Overlaps m.ce logical 1 := by
    intro m hm
    have := hbound map hmem
    exact hranges.comp_zero_iff (List.mem_map_of_mem hm) (by omega)
  unfold searchMapping
  obtain ⟨n, hc, rfl, hn⟩ | ⟨below, above, next, hcut, -, -⟩ :=
    rbSearch_spec (h.consistent hbound logical 1)
  · have hnmem := n.entry_mem
    refine ⟨n, by rw [hc], ?_⟩
    obtain ⟨hnlo, hnhi⟩ := (hz _ hnmem).mp hn
    have hp := List.pairwise_map.mp hranges.disjoint
    rw [Loc.inorder_root] at hp hmem
    obtain ⟨-, hafter, hbefore⟩ := List.pairwise_append.mp hp
    obtain hmem | rfl | hmem := (List.mem_append.trans (or_congr_right List.mem_cons)).mp hmem
    · have := hbefore map hmem n.entry (by simp)
      omega
    · rfl
    · have := (List.pairwise_cons.mp hafter).1 map hmem
      omega
  · refine absurd ((hz map hmem).mpr ⟨?_, hhi⟩) (hcut.ne_zero map hmem)
    omega

theorem Accepted.copiesOf_eq (h : Accepted map profile) :
    copiesOf map = profile.numCopies map.numStripes := by
  have hcount := h.count
  have hmirrored : map.has (BTRFS_BLOCK_GROUP_DUP ||| BTRFS_BLOCK_GROUP_RAID1) =
      (profile == .raid1 || profile == .dup) := by
    rw [h.has_eq _ (by decide)]
    cases profile <;> rfl
  simp only [copiesOf, hmirrored, h.has_raid10, h.has_raid5, h.has_raid6]
  cases profile with
  | raid10 => exact hcount.1
  | _ => rfl

theorem btrfsNumCopies_found (hsearch : searchMapping tree logical = some ce)
    (hlo : ce.entry.ce.start ≤ logical) (hhi : logical < ce.entry.ce.start + ce.entry.ce.size)
    (hbound : ce.entry.ce.start + ce.entry.ce.size < 2 ^ 64) :
    btrfsNumCopies tree logical = copiesOf ce.entry := by
  have hinside : ¬ (logical < ce.entry.ce.start ∨
      wrap64 (ce.entry.ce.start + ce.entry.ce.size) < logical) := by
    rw [wrap64_of_lt hbound]
    omega
  simp [btrfsNumCopies, hsearch, hinside]

section

variable {rw : Rw} (hsearch : searchMapping tree logical = some ce)
  (hlo : ce.entry.ce.start ≤ logical)

include hsearch hlo

theorem mapBlockRounds_found (n : ℕ) (hen : multiRet = true → stripesRequired ce.entry rw
      (wantsRaidMap ce.entry rw multiRet mirrorNum raidMapRet) ≤ stripesAllocated) :
    mapBlockRounds tree rw logical multiRet mirrorNum raidMapRet (n + 1) stripesAllocated =
      mapFound ce.entry rw (logical - ce.entry.ce.start) multiRet mirrorNum
        (wantsRaidMap ce.entry rw multiRet mirrorNum raidMapRet) stripesAllocated := by
  have hretry : ¬ (multiRet = true ∧ stripesAllocated < stripesRequired ce.entry rw
      (wantsRaidMap ce.entry rw multiRet mirrorNum raidMapRet)) :=
    fun h => absurd h.2 (not_lt.mpr (hen h.1))
  simp only [mapBlockRounds, hsearch, not_lt.mpr hlo, if_false, hretry]

/-- After at most one retry enough stripes are allocated. -/
theorem mapBlockRounds_retry : ∃ allocated, (multiRet = true → stripesRequired ce.entry rw
      (wantsRaidMap ce.entry rw multiRet mirrorNum raidMapRet) ≤ allocated) ∧
    mapBlockRounds tree rw logical multiRet mirrorNum raidMapRet 2 stripesAllocated =
      mapFound ce.entry rw (logical - ce.entry.ce.start) multiRet mirrorNum
        (wantsRaidMap ce.entry rw multiRet mirrorNum raidMapRet) allocated := by
  by_cases hen : multiRet = true → stripesRequired ce.entry rw
      (wantsRaidMap ce.entry rw multiRet mirrorNum raidMapRet) ≤ stripesAllocated
  · exact ⟨_, hen, mapBlockRounds_found hsearch hlo 1 hen⟩
  · have hretry : multiRet = true ∧ stripesAllocated < stripesRequired ce.entry rw
        (wantsRaidMap ce.entry rw multiRet mirrorNum raidMapRet) := by
      simpa using hen
    refine ⟨_, fun _ => le_rfl, ?_⟩
    rw [← mapBlockRounds_found hsearch hlo 0 fun _ => le_rfl, mapBlockRounds]
    simp only [hsearch, not_lt.mpr hlo, if_false]
    rw [if_pos hretry]

end

/-- Mapping is total: whatever is asked for an address below `2 ^ 64`, the call returns after at
most one retry, without a division by zero, a `BUG_ON` or an access outside an array. -/
theorem btrfsMapBlock'_total {tree : MapTree} (h : ReadChunks tree) (rw : Rw) {logical : ℕ}
    (hlogical : logical < 2 ^ 64) (multiRet raidMapRet : Bool) {mirrorNum : ℕ}
    (hmirror : mirrorNum ≤ btrfsNumCopies tree logical) :
    ∃ result, btrfsMapBlock' 2 tree rw logical multiRet mirrorNum raidMapRet = .ok result ∧
      0 < result.length ∧
      ((∀ map ∈ inorder tree, map.ce.start + map.ce.size < 2 ^ 64) →
        (∃ map ∈ inorder tree, map.ce.start ≤ logical ∧ logical < map.ce.start + map.ce.size) →
        result.ret = 0) := by
  have ht := h.acceptedTree
  cases hsearch : searchMapping tree logical with
  | none =>
    refine ⟨⟨-ENOENT, u64Max, [], none⟩, ?_, by decide, ?_⟩
    · simp [btrfsMapBlock', mapBlockRounds, hsearch]
    · rintro hbound ⟨map, hmem, hlo, hhi⟩
      obtain ⟨ce, hfound, -⟩ := ht.search_found hbound hmem hlo hhi
      cases hsearch.symm.trans hfound
  | some ce =>
    obtain ⟨hmem, hinside⟩ := ht.search hlogical hsearch
    by_cases hbehind : logical < ce.entry.ce.start
    · refine ⟨⟨-ENOENT, ce.entry.ce.start - logical, [], none⟩, ?_, ?_, ?_⟩
      · simp [btrfsMapBlock', mapBlockRounds, hsearch, hbehind]
      · exact Nat.sub_pos_of_lt hbehind
      · rintro hbound ⟨map, hmem, hlo, hhi⟩
        obtain ⟨ce', hfound, rfl⟩ := ht.search_found hbound hmem hlo hhi
        obtain rfl := Option.some.inj (hsearch.symm.trans hfound)
        exact absurd hbehind (not_lt.mpr hlo)
    · have hlo := not_lt.mp hbehind
      obtain ⟨hhi, hbound⟩ := hinside hlo
      obtain ⟨profile, haccepted⟩ := ht.accepted _ hmem
      rw [btrfsNumCopies_found hsearch hlo hhi hbound, haccepted.copiesOf_eq] at hmirror
      have hraid : wantsRaidMap ce.entry rw multiRet mirrorNum raidMapRet = true →
          profile.parity = true := by
        intro hwanted
        rw [wantsRaidMap, haccepted.has_parity] at hwanted
        simp only [Bool.and_eq_true] at hwanted
        exact hwanted.1.1.1
      obtain ⟨allocated, hen, hc⟩ := mapBlockRounds_retry hsearch hlo
      obtain ⟨result, hresult, hret, hlen⟩ := haccepted.mapFound_total rw
        (by omega : logical - ce.entry.ce.start < ce.entry.ce.size) multiRet hmirror hraid hen
      exact ⟨result, hc.trans hresult, hlen, fun _ _ => hret⟩

/-- Recovery from the Q stripe of a chunk with three stripes. -/
theorem btrfsMapBlock'_total_recovery : ∃ tree, ReadChunks tree ∧ ∃ result,
      btrfsMapBlock' 2 tree .read 1048576 true 3 true = .ok result ∧ 0 < result.length := by
  let chunk : Chunk := ⟨65536, 65536, BTRFS_BLOCK_GROUP_DATA ||| BTRFS_BLOCK_GROUP_RAID6, 4096, 1,
    [⟨1, 0⟩, ⟨2, 0⟩, ⟨3, 0⟩]⟩
  have hr : readOneChunk 4096 id .nil 1048576 chunk 0 144 =
      .ok (.ok (.node .black .nil (mapOfChunk id 1048576 chunk) .nil)) := by
    decide +kernel
  have ht := ReadChunks.read .nil (by decide) (by decide) hr
  obtain ⟨result, hc, hlen, -⟩ := btrfsMapBlock'_total ht .read
    (by decide : 1048576 < 2 ^ 64) true true (by decide +kernel : 3 ≤ _)
  exact ⟨_, ht, result, hc, hlen⟩

end Btrfs.Volumes
