import Btrfs.Verification.Volumes.Devices

/-! # `sort_parity_stripes` sorts by the entries of the `raid_map` -/

namespace Btrfs.Volumes

/-- The number of pairs that are not in order. Every exchange lowers it. -/
def disorder : List (ℕ × BioStripe) → ℕ
  | [] => 0
  | a :: rest => rest.countP (fun b => b.1 < a.1) + disorder rest

theorem disorder_le (l : List (ℕ × BioStripe)) : disorder l ≤ l.length * l.length := by
  induction l with
  | nil => exact le_rfl
  | cons a rest ih =>
    have hcount := List.countP_le_length (p := fun b : ℕ × BioStripe => b.1 < a.1) (l := rest)
    calc rest.countP (fun b => b.1 < a.1) + disorder rest
        ≤ rest.length + rest.length * rest.length := Nat.add_le_add hcount ih
      _ ≤ (rest.length + 1) * (rest.length + 1) := by
          rw [Nat.succ_mul, Nat.mul_succ]
          omega

/-! ## One pass -/

theorem sortParityFrom_perm (a : ℕ × BioStripe) (rest : List (ℕ × BioStripe)) :
    (sortParityFrom a rest).1.Perm (a :: rest) := by
  induction rest generalizing a with
  | nil => exact .rfl
  | cons b rest ih =>
    by_cases hlt : b.1 < a.1
    · rw [sortParityFrom, if_pos hlt]
      exact ((ih a).cons b).trans (.swap a b rest)
    · rw [sortParityFrom, if_neg hlt]
      exact (ih b).cons a

theorem sortParityPass_perm (l : List (ℕ × BioStripe)) : (sortParityPass l).1.Perm l := by
  cases l with
  | nil => exact .rfl
  | cons a rest => exact sortParityFrom_perm a rest

theorem disorder_from_le (a : ℕ × BioStripe) (rest : List (ℕ × BioStripe)) :
    disorder (sortParityFrom a rest).1 + (if (sortParityFrom a rest).2 then 1 else 0) ≤
      disorder (a :: rest) := by
  induction rest generalizing a with
  | nil => exact le_refl (disorder [a])
  | cons b rest ih =>
    by_cases hlt : b.1 < a.1
    · have hcount : (sortParityFrom a rest).1.countP (fun c => c.1 < b.1) =
          rest.countP (fun c => c.1 < b.1) := by
        rw [(sortParityFrom_perm a rest).countP_eq]
        exact List.countP_cons_of_neg (by simpa using hlt.le)
      have hswapped : (b :: rest).countP (fun c => c.1 < a.1) =
          rest.countP (fun c => c.1 < a.1) + 1 :=
        List.countP_cons_of_pos (by simpa using hlt)
      have hr := ih a
      simp only [sortParityFrom, if_pos hlt, disorder, if_true] at hr ⊢
      omega
    · have hcount : (sortParityFrom b rest).1.countP (fun c => c.1 < a.1) =
          (b :: rest).countP (fun c => c.1 < a.1) :=
        (sortParityFrom_perm b rest).countP_eq _
      have hr := ih b
      simp only [sortParityFrom, if_neg hlt]
      rw [disorder, disorder]
      omega

theorem disorder_pass_le (l : List (ℕ × BioStripe)) :
    disorder (sortParityPass l).1 + (if (sortParityPass l).2 then 1 else 0) ≤ disorder l := by
  cases l with
  | nil => exact le_refl 0
  | cons a rest => exact disorder_from_le a rest

theorem sortParityFrom_sorted {a : ℕ × BioStripe} {rest : List (ℕ × BioStripe)}
    (h : (sortParityFrom a rest).2 = false) :
    (sortParityFrom a rest).1 = a :: rest ∧ (a :: rest).IsChain fun a b => a.1 ≤ b.1 := by
  induction rest generalizing a with
  | nil => exact ⟨rfl, .singleton a⟩
  | cons b rest ih =>
    by_cases hlt : b.1 < a.1
    · rw [sortParityFrom, if_pos hlt] at h
      cases h
    · rw [sortParityFrom, if_neg hlt] at h ⊢
      obtain ⟨hs, hchain⟩ := ih h
      exact ⟨by rw [hs], hchain.cons_cons (not_lt.mp hlt)⟩

variable {l : List (ℕ × BioStripe)}

/-- A pass without an exchange has found the list in order. -/
theorem sortParityPass_sorted (h : (sortParityPass l).2 = false) :
    (sortParityPass l).1 = l ∧ l.IsChain fun a b => a.1 ≤ b.1 := by
  cases l with
  | nil => exact ⟨rfl, .nil⟩
  | cons a rest => exact sortParityFrom_sorted h

/-! ## All passes -/

theorem sortParityStripes_spec {n : ℕ} (hn : disorder l < n) :
    ∃ sorted, sortParityStripes n l = .ok sorted ∧ sorted.Perm l ∧
      sorted.Pairwise fun a b => a.1 ≤ b.1 := by
  induction n generalizing l with
  | zero => omega
  | succ n ih =>
    have hle := disorder_pass_le l
    cases hagain : (sortParityPass l).2 with
    | true =>
      rw [hagain, if_pos rfl] at hle
      obtain ⟨sorted, hsorted, hp, hparsed⟩ := ih (l := (sortParityPass l).1) (by omega)
      refine ⟨sorted, ?_, hp.trans (sortParityPass_perm l), hparsed⟩
      simp only [sortParityStripes, hagain, if_true, hsorted]
    | false =>
      obtain ⟨hs, hchain⟩ := sortParityPass_sorted hagain
      refine ⟨l, ?_, .rfl, List.isChain_iff_pairwise.mp hchain⟩
      simp only [sortParityStripes, hagain, hs]
      rfl

theorem sortParityStripes_eq {sorted : List (ℕ × BioStripe)} (hp : sorted.Perm l)
    (hsrt : sorted.Pairwise fun a b => a.1 < b.1) :
    sortParityStripes (l.length * l.length + 1) l = .ok sorted := by
  obtain ⟨sorted', hrun, hp', hsrt'⟩ := sortParityStripes_spec (Nat.lt_succ_of_le (disorder_le l))
  have hmem : ∀ a b, a ∈ sorted' → b ∈ sorted → a.1 ≤ b.1 → b.1 ≤ a.1 → a = b := by
    intro a b ha hb hab hba
    have ha' : a ∈ sorted := hp.mem_iff.mpr (hp'.mem_iff.mp ha)
    have hnd : (sorted.map Prod.fst).Nodup := List.pairwise_map.mpr (hsrt.imp fun hlt => hlt.ne)
    exact List.inj_on_of_nodup_map hnd ha' hb (le_antisymm hab hba)
  rw [hrun, List.Perm.eq_of_pairwise hmem hsrt' (hsrt.imp fun hlt => hlt.le) (hp'.trans hp.symm)]

/-! ## What `btrfs_map_block` returns for an address of a chunk -/

open ExtentCache Raid56

variable {logical a : ℕ} {tree : List MapLookup}

/-! ## Finding the chunk -/

/-- A mapping tree: the chunks in the order of their disjoint ranges of addresses. -/
structure MappingTree (tree : List MapLookup) : Prop where
  ordered : tree.Pairwise fun a b => a.ce.start + a.ce.size ≤ b.ce.start
  bound : ∀ map ∈ tree, map.ce.start + map.ce.size ≤ 2 ^ 64
  size_pos : ∀ map ∈ tree, 0 < map.ce.size

theorem comp_pos_of_end_le {ce : CacheExtent} (hbound : logical < 2 ^ 64)
    (h : ce.start + ce.size ≤ logical) : 0 < cacheTreeCompRange ce logical 1 := by
  rw [cacheTreeCompRange, wrap64_of_lt (by omega), if_pos h]
  decide

theorem searchCacheExtent_append {before after : List MapLookup} {map : MapLookup}
    (hbefore : ∀ e ∈ before, 0 < cacheTreeCompRange e.ce logical 1)
    (hmap : ¬ 0 < cacheTreeCompRange map.ce logical 1) :
    searchCacheExtent MapLookup.ce (before ++ map :: after) logical = some (before, map, after) := by
  have hpass : ∀ e ∈ before, decide (0 < cacheTreeCompRange e.ce logical 1) = true :=
    fun e he => decide_eq_true (hbefore e he)
  rw [searchCacheExtent, splitCacheTree, List.span_eq_takeWhile_dropWhile,
    List.takeWhile_append_of_pos hpass, List.dropWhile_append_of_pos hpass]
  simp only [List.takeWhile_cons, List.dropWhile_cons, decide_eq_false hmap, Bool.false_eq_true,
    if_false, List.append_nil]

theorem searchCacheExtent_none (h : ∀ e ∈ tree, 0 < cacheTreeCompRange e.ce logical 1) :
    searchCacheExtent MapLookup.ce tree logical = none := by
  have hpass : ∀ e ∈ tree, decide (0 < cacheTreeCompRange e.ce logical 1) = true :=
    fun e he => decide_eq_true (h e he)
  simp [searchCacheExtent, splitCacheTree, List.dropWhile_eq_nil_iff.mpr hpass]

/-- The search for an address of a chunk finds the chunk, unless the chunk ends at the end of the
address space: there the end of its range wraps to zero. -/
theorem MappingTree.search_eq (h : MappingTree tree) {map : MapLookup} (hmem : map ∈ tree)
    (ha : a < map.ce.size) :
    (map.ce.start + map.ce.size < 2 ^ 64 → ∃ before after,
      searchCacheExtent MapLookup.ce tree (map.ce.start + a) = some (before, map, after)) ∧
    (¬ map.ce.start + map.ce.size < 2 ^ 64 →
      searchCacheExtent MapLookup.ce tree (map.ce.start + a) = none) := by
  obtain ⟨before, after, rfl⟩ := List.append_of_mem hmem
  have hbound := h.bound map hmem
  have horder := List.pairwise_append.mp h.ordered
  have hbefore : ∀ e ∈ before, 0 < cacheTreeCompRange e.ce (map.ce.start + a) 1 := by
    intro e he
    have hle := horder.2.2 e he map (by simp)
    exact comp_pos_of_end_le (by omega) (by omega)
  constructor
  · intro hend
    have hs : ¬ 0 < cacheTreeCompRange map.ce (map.ce.start + a) 1 := by
      rw [cacheTreeCompRange, wrap64_of_lt hend, if_neg (by omega)]
      split <;> decide
    exact ⟨before, after, searchCacheExtent_append hbefore hs⟩
  · intro hend
    have hall : ∀ e ∈ before ++ map :: after, 0 < cacheTreeCompRange e.ce (map.ce.start + a) 1 := by
      refine List.forall_mem_append.mpr ⟨hbefore, fun e he => ?_⟩
      rcases List.mem_cons.mp he with rfl | he'
      · have hw : wrap64 (e.ce.start + e.ce.size) = 0 := by
          rw [wrap64]
          omega
        rw [cacheTreeCompRange, hw, if_pos (Nat.zero_le _)]
        decide
      · -- nothing can lie behind the end of the address space
        have hle := (List.pairwise_cons.mp horder.2.1).1 e he'
        have hsi := h.size_pos e (by simp [he'])
        have hl := h.bound e (by simp [he'])
        omega
    exact searchCacheExtent_none hall

theorem MappingTree.mapBlock_eq (h : MappingTree tree) {map : MapLookup} (hmem : map ∈ tree)
    (ha : a < map.ce.size) (rw : Rw) (mirrorNum : ℕ) (raidMapRet : Bool) :
    btrfsMapBlock tree rw (map.ce.start + a) mirrorNum raidMapRet =
      if map.ce.start + map.ce.size < 2 ^ 64 then
        (mapInChunk map rw a mirrorNum raidMapRet).map Except.ok
      else .ok (.error (-ENOENT)) := by
  obtain ⟨hfound, hn⟩ := h.search_eq hmem ha
  by_cases hend : map.ce.start + map.ce.size < 2 ^ 64
  · obtain ⟨before, after, hsearch⟩ := hfound hend
    rw [btrfsMapBlock, hsearch, if_pos hend]
    simp only [Nat.not_lt.mpr (Nat.le_add_right map.ce.start a), Nat.add_sub_cancel_left]
    cases mapInChunk map rw a mirrorNum raidMapRet <;> rfl
  · rw [btrfsMapBlock, hn hend, if_neg hend]

/-! ## The stripes of a plan -/

theorem mapM_ok {α β : Type} {f : α → Call β} {g : α → β} {l : List α}
    (h : ∀ x ∈ l, f x = .ok (g x)) : l.mapM f = .ok (l.map g) := by
  induction l with
  | nil => rfl
  | cons x rest ih =>
    rw [List.mapM_cons, h x (by simp), ih fun y hy => h y (List.mem_cons_of_mem x hy)]
    rfl

variable {plan : StripePlan}

theorem fillStripes_eq {map : MapLookup} (h : plan.stripeIndex + plan.numStripes ≤ map.numStripes) :
    fillStripes map plan = .ok ((List.range' plan.stripeIndex plan.numStripes).map
      (map.stripeAt (plan.stripeNr * map.stripeLen + plan.stripeOffset))) := by
  rw [List.range'_eq_map_range, List.map_map]
  apply mapM_ok
  intro i hi
  have hlt : plan.stripeIndex + i < map.stripes.length := by
    have := List.mem_range.mp hi
    unfold MapLookup.numStripes at h
    omega
  simp only [Function.comp_apply, MapLookup.stripeAt, MapLookup.stripe, List.getD_eq_getElem?_getD,
    List.getElem?_eq_getElem hlt, Option.getD_some]
  rw [Nat.add_assoc, Nat.add_comm plan.stripeOffset]

theorem mapInChunk_direct {map : MapLookup} {rw : Rw} {mirrorNum : ℕ} {raidMapRet : Bool}
    (hf : (map.has (BTRFS_BLOCK_GROUP_RAID5 ||| BTRFS_BLOCK_GROUP_RAID6) && (rw == .write || decide (1 < mirrorNum)) && raidMapRet) = false)
    (hplan : stripePlan map rw mirrorNum false a = plan) (hpos : 0 < plan.numStripes)
    (hbound : plan.stripeIndex + plan.numStripes ≤ map.numStripes) :
    mapInChunk map rw a mirrorNum raidMapRet =
      .ok ⟨mapLength map a, (List.range' plan.stripeIndex plan.numStripes).map
        (map.stripeAt (plan.stripeNr * map.stripeLen + plan.stripeOffset)), none⟩ := by
  have hidx : ¬ map.numStripes ≤ plan.stripeIndex := by omega
  simp only [mapInChunk, hf, hplan, fillStripes_eq hbound, hidx]
  rfl

section

variable {map : MapLookup} {profile : Profile} (h : Accepted map profile)

include h

theorem Accepted.mapInChunk_read (a : ℕ) : mapInChunk map .read a 0 false =
      .ok ⟨mapLength map a, [map.stripeAt ((layout h).depth a) ((layout h).cell a).1], none⟩ := by
  have hlt : profile.place map.numStripes ((layout h).row a) ((layout h).col a) < map.numStripes :=
    (layout h).place_lt a
  exact mapInChunk_direct (Bool.and_false _) (h.stripePlan_read a) Nat.one_pos hlt

theorem Accepted.mapInChunk_write (hparity : profile.parity = false) (a : ℕ) :
    mapInChunk map .write a 0 true =
      .ok ⟨mapLength map a, ((layout h).copies ((layout h).row a) ((layout h).col a)).map
        (map.stripeAt ((layout h).depth a)), none⟩ := by
  have hf : (map.has (BTRFS_BLOCK_GROUP_RAID5 ||| BTRFS_BLOCK_GROUP_RAID6) &&
      (Rw.write == .write || decide (1 < 0)) && true) = false := by
    rw [h.has_parity, hparity]
    rfl
  exact mapInChunk_direct hf (h.stripePlan_write hparity false a) (h.copyRange_pos _ _)
    (h.copyRange_le ((layout h).col_lt a))

end

/-! ## The rows of a chunk with parity -/

/-- The position of the `k`-th stripe of a row: data first, then parity. -/
def rotated (map : MapLookup) (row k : ℕ) : ℕ := (row + k) % map.numStripes

/-- The `raid_map` entry of the `k`-th stripe of a row. -/
def rowEntry (map : MapLookup) (profile : Profile) (row k : ℕ) : ℕ :=
  if k < profile.columns map.numStripes then
    map.ce.start + (row * profile.columns map.numStripes + k) * map.stripeLen
  else if k = profile.columns map.numStripes then BTRFS_RAID5_P_STRIPE
  else BTRFS_RAID6_Q_STRIPE

theorem foldl_update_range {f : ℕ → ℕ} {n : ℕ} (hinj : ∀ i j, i < n → j < n → f i = f j → i = j)
    (v : ℕ → ℕ) (g : ℕ → ℕ) {m k : ℕ} (hm : m ≤ n) (hk : k < n) :
    (List.range m).foldl (fun g i => Function.update g (f i) (v i)) g (f k) =
      if k < m then v k else g (f k) := by
  induction m with
  | zero => rfl
  | succ m ih =>
    rw [List.range_succ, List.foldl_append, List.foldl_cons, List.foldl_nil]
    by_cases hkm : k = m
    · subst hkm
      rw [Function.update_self, if_pos (Nat.lt_succ_self k)]
    · have hne : f k ≠ f m := fun heq => hkm (hinj k m hk (by omega) heq)
      rw [Function.update_of_ne hne, ih (by omega)]
      have hiff : k < m + 1 ↔ k < m := by omega
      simp [hiff]

section

variable {map : MapLookup} {profile : Profile} (h : Accepted map profile)
  (hparity : profile.parity = true)

include h

theorem Accepted.rotated_lt (row k : ℕ) : rotated map row k < map.numStripes :=
  Nat.mod_lt _ h.stripes_pos

theorem Accepted.rotated_perm (row : ℕ) :
    ((List.range map.numStripes).map (rotated map row)).Perm (List.range map.numStripes) := by
  have hnd : ((List.range map.numStripes).map (rotated map row)).Nodup := by
    apply List.Nodup.map_on _ List.nodup_range
    intro i hi j hj heq
    exact eq_of_add_mod_eq (List.mem_range.mp hi) (List.mem_range.mp hj) heq
  have hsubset : (List.range map.numStripes).map (rotated map row) ⊆ List.range map.numStripes := by
    intro i hi
    obtain ⟨k, -, rfl⟩ := List.mem_map.mp hi
    exact List.mem_range.mpr (h.rotated_lt row k)
  exact (List.subperm_of_subset hnd hsubset).perm_of_length_le (by simp)

include hparity

theorem Accepted.columns_lt : profile.columns map.numStripes < map.numStripes := by
  have hpos := h.stripes_pos
  cases profile <;> simp only [Profile.parity, Profile.columns, Bool.false_eq_true] at hparity ⊢ <;>
    omega

theorem Accepted.fillRaidMap_rotated (row : ℕ) {k : ℕ} (hk : k < map.numStripes) :
    fillRaidMap map row (rotated map row k) = rowEntry map profile row k := by
  have hd := h.nrDataStripes_eq hparity
  have hcolumns := h.columns_lt hparity
  have hrot : ∀ i, (i + row % map.numStripes) % map.numStripes = rotated map row i := by
    intro i
    simp [rotated, Nat.add_comm]
  have hinj : ∀ i j, i < map.numStripes → j < map.numStripes →
      rotated map row i = rotated map row j → i = j :=
    fun i j hi hj heq => eq_of_add_mod_eq hi hj heq
  have hf := foldl_update_range hinj
    (fun i => map.ce.start + (row * profile.columns map.numStripes + i) * map.stripeLen)
    (fun _ => 0) hcolumns.le hk
  have hl : (profile.columns map.numStripes + row % map.numStripes + 1) % map.numStripes =
      rotated map row (profile.columns map.numStripes + 1) := by
    rw [Nat.add_right_comm, hrot]
  simp only [fillRaidMap, hd, hrot, hl, h.has_raid6]
  have hne : ∀ {i j}, i < map.numStripes → j < map.numStripes → i ≠ j →
      rotated map row i ≠ rotated map row j := fun hi hj hij heq => hij (hinj _ _ hi hj heq)
  unfold rowEntry
  cases profile with
  | raid5 =>
    simp only [Profile.columns] at hcolumns hf ⊢
    by_cases hkc : k = map.numStripes - 1
    · subst hkc
      simp
    · have hkd : k < map.numStripes - 1 := by omega
      simp [Function.update_of_ne (hne hk hcolumns hkc), hf, hkd]
  | raid6 =>
    have hthree : 3 ≤ map.numStripes := h.count
    simp only [Profile.columns] at hcolumns hf ⊢
    have hq : map.numStripes - 2 + 1 < map.numStripes := by omega
    by_cases hkq : k = map.numStripes - 2 + 1
    · subst hkq
      have hge : ¬ map.numStripes - 2 + 1 < map.numStripes - 2 := by omega
      simp [hge]
    · by_cases hkc : k = map.numStripes - 2
      · subst hkc
        simp [Function.update_of_ne (hne hk hq hkq)]
      · have hkd : k < map.numStripes - 2 := by omega
        simp [Function.update_of_ne (hne hk hq hkq), Function.update_of_ne (hne hk hcolumns hkc),
          hf, hkd]
  | _ => cases hparity

theorem Accepted.rowEntry_lt {row : ℕ} (hrow : map.ce.start +
    (row + 1) * profile.columns map.numStripes * map.stripeLen ≤ 2 ^ 64) {i j : ℕ} (hij : i < j)
    (hj : j < map.numStripes) : rowEntry map profile row i < rowEntry map profile row j := by
  have hu : map.stripeLen = 65536 := h.stripeLen
  have hd : ∀ k < profile.columns map.numStripes,
      map.ce.start + (row * profile.columns map.numStripes + k) * map.stripeLen <
        BTRFS_RAID5_P_STRIPE := by
    intro k hk
    have hs : (row * profile.columns map.numStripes + k) * map.stripeLen + map.stripeLen ≤
        (row + 1) * profile.columns map.numStripes * map.stripeLen := by
      rw [← Nat.succ_mul]
      apply Nat.mul_le_mul_right
      rw [Nat.succ_mul]
      omega
    unfold BTRFS_RAID5_P_STRIPE
    omega
  unfold rowEntry
  by_cases hic : i < profile.columns map.numStripes
  · rw [if_pos hic]
    by_cases hjc : j < profile.columns map.numStripes
    · rw [if_pos hjc]
      apply Nat.add_lt_add_left
      exact Nat.mul_lt_mul_of_pos_right (by omega) (by omega)
    · have hi := hd i hic
      rw [if_neg hjc]
      split
      · exact hi
      · exact hi.trans (by decide)
  · -- only P comes before Q
    have htwo : map.numStripes ≤ profile.columns map.numStripes + 2 := by
      cases profile with
      | raid5 => simp only [Profile.columns]; omega
      | raid6 => simp only [Profile.columns]; omega
      | _ => cases hparity
    have hi : i = profile.columns map.numStripes := by omega
    rw [if_neg hic, if_pos hi, if_neg (by omega), if_neg (by omega)]
    decide

/-- The sort puts the stripes of a row in the order of their entries. -/
theorem Accepted.sortRow {row : ℕ} (hrow : map.ce.start +
      (row + 1) * profile.columns map.numStripes * map.stripeLen ≤ 2 ^ 64)
    (entry : ℕ → ℕ) (target : ℕ → BioStripe) (hent : ∀ k < map.numStripes,
      entry (rotated map row k) = rowEntry map profile row k) :
    sortParityStripes (map.numStripes * map.numStripes + 1)
        (((List.range map.numStripes).map entry).zip ((List.range map.numStripes).map target)) =
      .ok ((List.range map.numStripes).map fun k =>
        (rowEntry map profile row k, target (rotated map row k))) := by
  let pair (i : ℕ) : ℕ × BioStripe := (entry i, target i)
  let sorted : List (ℕ × BioStripe) := (List.range map.numStripes).map fun k =>
    (rowEntry map profile row k, target (rotated map row k))
  have hsorted : sorted = ((List.range map.numStripes).map (rotated map row)).map pair := by
    rw [List.map_map]
    apply List.map_congr_left
    intro k hk
    simp [pair, Function.comp_apply, hent k (List.mem_range.mp hk)]
  have hp : sorted.Perm ((List.range map.numStripes).map pair) := by
    rw [hsorted]
    exact (h.rotated_perm row).map pair
  have horder : sorted.Pairwise fun x y => x.1 < y.1 := by
    apply List.pairwise_map.mpr
    exact List.pairwise_lt_range.imp_of_mem fun _ hj hij =>
      h.rowEntry_lt hparity hrow hij (List.mem_range.mp hj)
  have hsort := sortParityStripes_eq hp horder
  rw [List.length_map, List.length_range] at hsort
  rw [List.zip_map']
  exact hsort

theorem Accepted.mapInChunk_parity (a : ℕ) (hrow : map.ce.start +
    ((layout h).row a + 1) * profile.columns map.numStripes * map.stripeLen ≤ 2 ^ 64) :
    mapInChunk map .write a 0 true = .ok ⟨map.stripeLen, (List.range map.numStripes).map fun k =>
        map.stripeAt ((layout h).row a * map.stripeLen) (rotated map ((layout h).row a) k),
      some ((List.range map.numStripes).map (rowEntry map profile ((layout h).row a)))⟩ := by
  have hf : (map.has (BTRFS_BLOCK_GROUP_RAID5 ||| BTRFS_BLOCK_GROUP_RAID6) &&
      (Rw.write == .write || decide (1 < 0)) && true) = true := by
    rw [h.has_parity, hparity]
    rfl
  have hplan := h.stripePlan_parity hparity a
  generalize (layout h).row a = row at hrow hplan ⊢
  have hidx : ¬ map.numStripes ≤ 0 := not_le.mpr h.stripes_pos
  have hfi : fillStripes map ⟨map.numStripes, 0, row, 0⟩ =
      .ok ((List.range map.numStripes).map (map.stripeAt (row * map.stripeLen))) := by
    rw [fillStripes_eq (Nat.zero_add _).le, List.range_eq_range']
    rfl
  have hsort := h.sortRow hparity hrow (fillRaidMap map row) (map.stripeAt (row * map.stripeLen))
    fun k hk => h.fillRaidMap_rotated hparity row hk
  simp only [mapInChunk, hf, hplan, hidx, decide_false, bugOn_false, hfi, bind, Except.bind, hsort, List.map_map]
  rfl

end

end Btrfs.Volumes
