import Btrfs.Verification.Raid56.Recovery

/-! # When `raid56_recov` restores the stripes

The dispatcher sends a lost data stripe to the solver that trusts `Q` when `Q` is the other
lost stripe, and to the one that trusts `P` when that is `P`. -/

namespace Btrfs.Raid56

open PqCode Gf

variable {i j : ℕ}

/-- The XOR of the first `n` stripes at one offset. -/
def xorData (mem : Memory) (data : PtrTable) (n x : ℕ) : Byte :=
  (List.range n).foldl (fun v i => v ^^^ mem (data (i : ℕ)) x) 0

/-- The stripes are as the generator of the profile leaves them. -/
def Consistent (profile : BitVec 64) (n : ℕ) (data : PtrTable) (orig : Memory) : Prop :=
  if profile &&& BTRFS_BLOCK_GROUP_RAID5 ≠ 0 then
    ∀ x < BTRFS_STRIPE_LEN, orig (data ↑(n - 1)) x = xorData orig data (n - 1) x
  else raid6GenSyndrome n BTRFS_STRIPE_LEN data orig = orig

/-- At most one stripe (RAID5) or two different ones (RAID6) are lost; -1 is no stripe. -/
structure Lost (profile : BitVec 64) (n : ℕ) (dest1 dest2 : ℤ) : Prop where
  range1 : -1 ≤ dest1 ∧ dest1 < n
  range2 : -1 ≤ dest2 ∧ dest2 < n
  raid5 : profile &&& BTRFS_BLOCK_GROUP_RAID5 ≠ 0 → 2 ≤ n ∧ (dest1 = -1 ∨ dest2 = -1)
  raid6 : profile &&& BTRFS_BLOCK_GROUP_RAID5 = 0 →
    profile &&& BTRFS_BLOCK_GROUP_RAID6 ≠ 0 ∧ 3 ≤ n ∧ n ≤ 257 ∧ (dest1 = dest2 → dest1 = -1)

/-- The memory `mem` differs from `orig` in the contents of the lost stripes only. -/
def Overwritten (n : ℕ) (dest1 dest2 : ℤ) (data : PtrTable) (orig mem : Memory) : Prop :=
  ∀ i : ℕ, i < n → ∀ x, ((i : ℤ) ≠ dest1 ∧ (i : ℤ) ≠ dest2) ∨ BTRFS_STRIPE_LEN ≤ x →
      mem (data i) x = orig (data i) x

def Restored (n : ℕ) (data : PtrTable) (orig mem : Memory) : Prop :=
  ∀ i : ℕ, i < n → mem (data i) = orig (data i)

/-- A parity stripe lost together with a data stripe still has its contents. -/
def ParityKept (profile : BitVec 64) (n : ℕ) (dest1 dest2 : ℤ) (data : PtrTable)
    (orig mem : Memory) : Prop :=
  profile &&& BTRFS_BLOCK_GROUP_RAID5 = 0 → ∀ d e : ℕ, d < n - 2 → n - 2 ≤ e → e < n →
    (dest1 = d ∧ dest2 = e ∨ dest1 = e ∧ dest2 = d) → mem (data e) = orig (data e)

theorem of_xorData (mem : Memory) (data : PtrTable) (n x : ℕ) :
    of (xorData mem data n x) = pSum n (dataAt mem data x) := by
  unfold xorData pSum
  induction n with
  | zero => rfl
  | succ n ih =>
    rw [List.range_succ, List.foldl_append, Finset.sum_range_succ, ← ih]
    rfl

theorem dvd_stripeLen : 8 ∣ BTRFS_STRIPE_LEN := by decide

theorem stripe_ext {orig mem mem' : Memory} {ptr : Ptr}
    (hfix : ∀ x < BTRFS_STRIPE_LEN, mem' ptr x = orig ptr x)
    (hbeyond : ∀ x, BTRFS_STRIPE_LEN ≤ x → mem' ptr x = mem ptr x)
    (htail : ∀ x, BTRFS_STRIPE_LEN ≤ x → mem ptr x = orig ptr x) : mem' ptr = orig ptr := by
  funext x
  by_cases hx : x < BTRFS_STRIPE_LEN
  · exact hfix x hx
  · rw [hbeyond x (by omega), htail x (by omega)]

/-! ## One stripe from the sum of the others -/

theorem update_dataAt_eq {n x : ℕ} {data : PtrTable} {orig mem : Memory}
    (hke : ∀ k < n, k ≠ i → mem (data (k : ℕ)) = orig (data k)) {k : ℕ} (hk : k < n) :
    Function.update (dataAt mem data x) i 0 k = Function.update (dataAt orig data x) i 0 k := by
  simp only [Function.update_apply]
  split_ifs with hki
  · rfl
  · rw [dataAt, dataAt, hke k hk hki]

theorem Combined.restores {n len : ℕ} {data : PtrTable} {orig mem mem' : Memory}
    (h : Combined n i len data mem mem') (hi : i < n)
    (hz : ∀ x < len, pSum n (dataAt orig data x) = 0)
    (hke : ∀ k < n, k ≠ i → mem (data (k : ℕ)) = orig (data k))
    (htail : ∀ x, len ≤ x → mem (data i) x = orig (data i) x) :
    mem' (data i) = orig (data i) := by
  funext x
  apply of_injective
  rw [h.result x]
  split
  · rename_i hx
    have hsum := hz x hx
    rw [pSum_split hi, CharTwo.add_eq_zero] at hsum
    rw [pSum_congr fun k hk => update_dataAt_eq hke hk, hsum]
    rfl
  · rw [htail x (by omega)]

/-! ## RAID6 -/

section

variable {z0 : ℕ} {data : PtrTable} {orig mem : Memory} (hbuf : Buffers (z0 + 3) data)
  (hcons : SyndromeUpTo z0 data orig BTRFS_STRIPE_LEN orig)
  (htail : ∀ k < z0 + 3, ∀ x, BTRFS_STRIPE_LEN ≤ x → mem (data (k : ℕ)) x = orig (data k) x)

include hbuf hcons

theorem regenerate_restores (hd : ∀ k < z0 + 1, mem (data (k : ℕ)) = orig (data k))
    (htail : ∀ k < z0 + 3, ∀ x, BTRFS_STRIPE_LEN ≤ x → mem (data (k : ℕ)) x = orig (data k) x) :
    Restored (z0 + 3) data orig (raid6GenSyndrome (z0 + 3) BTRFS_STRIPE_LEN data mem) := by
  have hsyn := raid6GenSyndrome_spec hbuf.distinct mem dvd_stripeLen
  have hs : ∀ x, ∀ k < z0 + 1, dataAt mem data x k = dataAt orig data x k := by
    intro x k hk
    rw [dataAt, dataAt, hd k hk]
  intro k hk
  rcases Nat.lt_trichotomy k (z0 + 1) with hlt | heq | hgt
  · rw [hsyn.frame _ (hbuf.ne hk (l := z0 + 1) (by omega) (by omega))
      (hbuf.ne hk (l := z0 + 2) (by omega) (by omega)), hd k hlt]
  · subst heq
    funext x
    apply of_injective
    refine (hsyn.parity x).trans (Eq.trans ?_ (hcons.parity x).symm)
    rw [pSum_congr (hs x)]
    split
    · rfl
    · exact congrArg of (htail (z0 + 1) hk x (by omega))
  · have heq : k = z0 + 2 := by omega
    subst heq
    funext x
    apply of_injective
    refine (hsyn.syndrome x).trans (Eq.trans ?_ (hcons.syndrome x).symm)
    rw [qSum_congr gen (hs x)]
    split
    · rfl
    · exact congrArg of (htail (z0 + 2) hk x (by omega))

omit hbuf in
theorem pSum_data_and_parity {x : ℕ} (hx : x < BTRFS_STRIPE_LEN) :
    pSum (z0 + 2) (dataAt orig data x) = 0 := by
  have hp : dataAt orig data x (z0 + 1) = pSum (z0 + 1) (dataAt orig data x) :=
    (hcons.parity x).trans (if_pos hx)
  rw [pSum, Finset.sum_range_succ, hp]
  exact CharTwo.add_self_eq_zero _

include htail

section

variable (addr : Ptr → ℕ)

include addr

theorem data_from_parity (hi : i < z0 + 1)
    (hke : ∀ k < z0 + 2, k ≠ i → mem (data (k : ℕ)) = orig (data k)) :
    ∃ mem', raid5GenResult addr (z0 + 3 - 1) BTRFS_STRIPE_LEN i data mem = (0, mem') ∧
      mem' (data i) = orig (data i) ∧ ∀ ptr, ptr ≠ data i → mem' ptr = mem ptr := by
  have hd : Distinct (z0 + 2) data := fun k l hk hl => hbuf.distinct k l (by omega) (by omega)
  have hi' : i < z0 + 2 := by omega
  obtain ⟨mem', hc, hcomb⟩ := raid5GenResult_spec addr (by omega) hi' hd mem
  have hn : (z0 : ℤ) + 3 - 1 = ↑(z0 + 2) := by omega
  refine ⟨mem', by rw [hn, hc], ?_, hcomb.frame⟩
  exact hcomb.restores hi' (fun x hx => pSum_data_and_parity hcons hx) hke (htail i (by omega))

theorem raid6Recov_single (hi : i < z0 + 3)
    (hke : ∀ k < z0 + 3, k ≠ i → mem (data (k : ℕ)) = orig (data k)) :
    ∃ mem', raid6Recov addr (z0 + 3) BTRFS_STRIPE_LEN i (-1) data mem = (0, mem') ∧
      Restored (z0 + 3) data orig mem' := by
  by_cases hd : i < z0 + 1
  · obtain ⟨mem', hc, hfix, hframe⟩ := data_from_parity hbuf hcons htail addr hd
      fun k hk => hke k (by omega)
    refine ⟨mem', ?_, ?_⟩
    · rw [raid6Recov, if_pos rfl, if_neg (by omega), hc]
    · intro k hk
      by_cases hki : k = i
      · rw [hki, hfix]
      · rw [hframe _ (hbuf.ne hk (by omega) hki), hke k hk hki]
  · refine ⟨_, ?_, regenerate_restores hbuf hcons ?_ htail⟩
    · rw [raid6Recov, if_pos rfl, if_pos (by omega)]
    · intro k hk
      exact hke k (by omega) (by omega)

theorem raid6Recov_data_data (hz0 : z0 < 255) (hij : i < j) (hj : j < z0 + 1)
    (hke : ∀ k < z0 + 3, k ≠ i → k ≠ j → mem (data (k : ℕ)) = orig (data k)) :
    ∃ mem', raid6Recov addr (z0 + 3) BTRFS_STRIPE_LEN i j data mem = (0, mem') ∧
      Restored (z0 + 3) data orig mem' := by
  obtain ⟨mem', hc, hframe, hbey, hsolve⟩ := hbuf.raid6RecovData2_spec hij hj hz0 dvd_stripeLen mem
  have hfix : ∀ x < BTRFS_STRIPE_LEN, mem' (data i) x = orig (data i) x ∧
      mem' (data j) x = orig (data j) x := by
    intro x hx
    have hr : ∀ k < z0 + 1, Function.update (Function.update (dataAt mem data x) i 0) j 0 k =
          Function.update (Function.update (dataAt orig data x) i 0) j 0 k := by
      intro k hk
      simp only [Function.update_apply]
      split_ifs with h1 h2
      · rfl
      · rfl
      · rw [dataAt, dataAt, hke k (by omega) h2 h1]
    have hp := (hcons.parity x).trans (if_pos hx)
    rw [pSum_split_two (by omega) hj hij.ne] at hp
    have hq := (hcons.syndrome x).trans (if_pos hx)
    rw [qSum_split_two gen (by omega) hj hij.ne] at hq
    have hpa := hsolve x hx (dataAt orig data x i) (dataAt orig data x j)
      (by rw [hke (z0 + 1) (by omega) (by omega) (by omega), pSum_congr hr]; exact hp)
      (by rw [hke (z0 + 2) (by omega) (by omega) (by omega), qSum_congr gen hr]; exact hq)
    exact ⟨of_injective hpa.1, of_injective hpa.2⟩
  refine ⟨mem', ?_, ?_⟩
  · rw [raid6Recov, if_neg (by omega), if_neg (by omega), if_pos (by omega), hc]
  · intro k hk
    by_cases hki : k = i
    · subst hki
      exact stripe_ext (fun x hx => (hfix x hx).1) (fun x hx => (hbey x hx).1) (htail k hk)
    by_cases hkj : k = j
    · subst hkj
      exact stripe_ext (fun x hx => (hfix x hx).2) (fun x hx => (hbey x hx).2) (htail k hk)
    · rw [hframe k hk hki hkj, hke k hk hki hkj]

/-- With a data stripe and `Q` lost, the data stripe is computed from the lost `Q`. -/
theorem raid6Recov_data_q (hz0 : z0 < 255) (hi : i < z0 + 1)
    (hke : ∀ k < z0 + 3, k ≠ i → k ≠ z0 + 2 → mem (data (k : ℕ)) = orig (data k)) :
    ∃ mem', raid6Recov addr (z0 + 3) BTRFS_STRIPE_LEN i (z0 + 2) data mem = (0, mem') ∧
      (Restored (z0 + 3) data orig mem' ↔ mem (data ↑(z0 + 2)) = orig (data ↑(z0 + 2))) := by
  obtain ⟨mem', hc, hframe, hbeyond, hsolve⟩ := hbuf.raid6RecovDatap_spec hi hz0 dvd_stripeLen mem
  refine ⟨mem', ?_, ?_, ?_⟩
  · rw [raid6Recov, if_neg (by omega), if_neg (by omega), if_neg (by omega), if_pos (by omega), hc]
  · intro hrestored
    rw [← hrestored (z0 + 2) (by omega), hframe (z0 + 2) (by omega) (by omega) (by omega)]
  · intro hsyn
    have hfix : ∀ x < BTRFS_STRIPE_LEN, mem' (data i) x = orig (data i) x ∧
        mem' (data ↑(z0 + 1)) x = orig (data ↑(z0 + 1)) x := by
      intro x hx
      have hr : ∀ k < z0 + 1, _ := fun k hk => @update_dataAt_eq i (z0 + 1) x data orig mem
        (fun k hk hki => hke k (by omega) hki (by omega)) k hk
      have hq := (hcons.syndrome x).trans (if_pos hx)
      rw [qSum_split gen hi] at hq
      have hp := (hcons.parity x).trans (if_pos hx)
      rw [pSum_split hi] at hp
      have hpa := hsolve x hx (dataAt orig data x i) (by rw [hsyn, qSum_congr gen hr]; exact hq)
      rw [pSum_congr hr] at hpa
      exact ⟨of_injective hpa.1, of_injective (hpa.2.trans hp.symm)⟩
    intro k hk
    by_cases hki : k = i
    · subst hki
      exact stripe_ext (fun x hx => (hfix x hx).1) (fun x hx => (hbeyond x hx).1) (htail k hk)
    by_cases hkp : k = z0 + 1
    · subst hkp
      exact stripe_ext (fun x hx => (hfix x hx).2) (fun x hx => (hbeyond x hx).2) (htail _ hk)
    · rw [hframe k hk hki hkp]
      by_cases hkq : k = z0 + 2
      · rw [hkq, hsyn]
      · exact hke k hk hki hkq

theorem raid6Recov_data_p (hi : i < z0 + 1)
    (hke : ∀ k < z0 + 3, k ≠ i → k ≠ z0 + 1 → mem (data (k : ℕ)) = orig (data k)) :
    ∃ mem', raid6Recov addr (z0 + 3) BTRFS_STRIPE_LEN i (z0 + 1) data mem = (0, mem') ∧
      (Restored (z0 + 3) data orig mem' ↔ mem (data ↑(z0 + 1)) = orig (data ↑(z0 + 1))) := by
  have hdi : Distinct (z0 + 2) data := fun k l hk hl => hbuf.distinct k l (by omega) (by omega)
  have hi' : i < z0 + 2 := by omega
  have hn : (z0 : ℤ) + 3 - 1 = ↑(z0 + 2) := by omega
  obtain ⟨mid, hc, hcomb⟩ := raid5GenResult_spec addr (by omega) hi' hdi mem
  have hsyn := raid6GenSyndrome_spec hbuf.distinct mid dvd_stripeLen
  refine ⟨raid6GenSyndrome (z0 + 3) BTRFS_STRIPE_LEN data mid, ?_, ?_, ?_⟩
  · rw [raid6Recov, if_neg (by omega), if_neg (by omega), if_neg (by omega), if_neg (by omega),
      hn, hc]
    rfl
  · intro hrestored
    have hd : mid (data i) = orig (data i) := by
      rw [← hrestored i (by omega), hsyn.frame _ (hbuf.ne (l := z0 + 1) (by omega) (by omega)
        (by omega)) (hbuf.ne (l := z0 + 2) (by omega) (by omega) (by omega))]
    refine stripe_ext ?_ (fun x _ => Eq.refl (mem _ x)) (htail (z0 + 1) (by omega))
    intro x hx
    have hmid := (hcomb.result x).symm
    rw [if_pos hx, hd] at hmid
    have horig := pSum_data_and_parity hcons hx
    rw [pSum_split hi', CharTwo.add_eq_zero] at horig
    have hsums := hmid.trans horig.symm
    have hr : pSum (z0 + 1) (Function.update (dataAt mem data x) i 0) =
        pSum (z0 + 1) (Function.update (dataAt orig data x) i 0) :=
      pSum_congr fun k hk => update_dataAt_eq (fun k hk hki => hke k (by omega) hki (by omega)) hk
    unfold pSum at hsums hr
    rw [Finset.sum_range_succ _ (z0 + 1), Finset.sum_range_succ _ (z0 + 1), hr,
      add_right_inj, Function.update_of_ne (by omega), Function.update_of_ne (by omega)] at hsums
    exact hsums
  · intro hparity
    have hk' : ∀ k < z0 + 2, k ≠ i → mem (data (k : ℕ)) = orig (data k) := by
      intro k hk hki
      by_cases hkp : k = z0 + 1
      · rw [hkp, hparity]
      · exact hke k (by omega) hki hkp
    have hfix : mid (data i) = orig (data i) :=
      hcomb.restores hi' (fun x hx => pSum_data_and_parity hcons hx) hk' (htail i (by omega))
    apply regenerate_restores hbuf hcons
    · intro k hk
      by_cases hki : k = i
      · rw [hki, hfix]
      · rw [hcomb.frame _ (hbuf.ne (by omega) (by omega) hki), hk' k (by omega) hki]
    · intro k hk x hx
      by_cases hki : k = i
      · rw [hki, hfix]
      · rw [hcomb.frame _ (hbuf.ne hk (by omega) hki), htail k hk x hx]

/-- Two stripes are restored unless a lost parity stripe is trusted. -/
theorem raid6Recov_pair (hz0 : z0 < 255) (hij : i < j) (hj : j < z0 + 3)
    (hke : ∀ k < z0 + 3, k ≠ i → k ≠ j → mem (data (k : ℕ)) = orig (data k)) :
    ∃ mem', raid6Recov addr (z0 + 3) BTRFS_STRIPE_LEN i j data mem = (0, mem') ∧
      (Restored (z0 + 3) data orig mem' ↔
        (i < z0 + 1 → z0 + 1 ≤ j → mem (data j) = orig (data j))) := by
  by_cases hi : i < z0 + 1
  · by_cases hd : j < z0 + 1
    · obtain ⟨mem', hc, hrestored⟩ :=
        raid6Recov_data_data hbuf hcons htail addr hz0 hij hd hke
      exact ⟨mem', hc, fun _ _ h => absurd h (by omega), fun _ => hrestored⟩
    · have hparity : j = z0 + 1 ∨ j = z0 + 2 := by omega
      rcases hparity with rfl | rfl
      · obtain ⟨mem', hc, hiff⟩ := raid6Recov_data_p hbuf hcons htail addr hi hke
        exact ⟨mem', hc, hiff.trans ⟨fun h _ _ => h, fun h => h hi (by omega)⟩⟩
      · obtain ⟨mem', hc, hiff⟩ := raid6Recov_data_q hbuf hcons htail addr hz0 hi hke
        exact ⟨mem', hc, hiff.trans ⟨fun h _ _ => h, fun h => h hi (by omega)⟩⟩
  · refine ⟨raid6GenSyndrome (z0 + 3) BTRFS_STRIPE_LEN data mem, ?_, fun _ h => absurd h hi, ?_⟩
    · rw [raid6Recov, if_neg (by omega), if_pos (by omega)]
    · intro _
      apply regenerate_restores hbuf hcons _ htail
      intro k hk
      exact hke k (by omega) (by omega) (by omega)

end

end

/-! ## The dispatcher -/

theorem raid5_restores (addr : Ptr → ℕ) {n : ℕ} {data : PtrTable} {orig mem : Memory} (hn : 2 ≤ n)
    (hi : i < n) (hd : Distinct n data)
    (hcons : ∀ x < BTRFS_STRIPE_LEN, orig (data ↑(n - 1)) x = xorData orig data (n - 1) x)
    (hke : ∀ k < n, k ≠ i → mem (data (k : ℕ)) = orig (data k))
    (htail : ∀ k < n, ∀ x, BTRFS_STRIPE_LEN ≤ x → mem (data (k : ℕ)) x = orig (data k) x) :
    ∃ mem', raid5GenResult addr n BTRFS_STRIPE_LEN i data mem = (0, mem') ∧
      Restored n data orig mem' := by
  obtain ⟨mem', hc, hcomb⟩ := raid5GenResult_spec addr hn hi hd mem
  have hz : ∀ x < BTRFS_STRIPE_LEN, pSum n (dataAt orig data x) = 0 := by
    intro x hx
    obtain ⟨m, rfl⟩ : ∃ m, n = m + 1 := ⟨n - 1, by omega⟩
    have hl : dataAt orig data x m = pSum m (dataAt orig data x) :=
      (congrArg of (hcons x hx)).trans (of_xorData orig data m x)
    rw [pSum, Finset.sum_range_succ, hl]
    exact CharTwo.add_self_eq_zero _
  refine ⟨mem', hc, ?_⟩
  intro k hk
  by_cases hki : k = i
  · rw [hki]
    exact hcomb.restores hi hz hke (htail i hi)
  · rw [hcomb.frame _ fun h => hki (hd k i hk hi h), hke k hk hki]

theorem reorderDest_first (i : ℕ) : reorderDest i (-1) = (↑i, -1) := by simp [reorderDest]

theorem reorderDest_second (i : ℕ) : reorderDest (-1) i = (↑i, -1) := by
  rw [reorderDest, if_pos rfl]

theorem reorderDest_lt (hij : i < j) : reorderDest i j = (↑i, ↑j) := by
  rw [reorderDest, if_neg (by omega), if_neg (by omega)]

theorem reorderDest_gt (hij : i < j) : reorderDest j i = (↑i, ↑j) := by
  simp [reorderDest, if_pos (by omega)]

theorem lost_cases {dest : ℤ} (h : -1 ≤ dest) : dest = -1 ∨ ∃ i : ℕ, dest = i := by
  rcases Int.lt_or_le dest 0 with hneg | hpos
  · omega
  · right
    exact ⟨dest.toNat, (Int.toNat_of_nonneg hpos).symm⟩

section

variable (addr : Ptr → ℕ) {profile : BitVec 64} {n : ℕ} {dest1 dest2 : ℤ} {data : PtrTable}
  {mem : Memory}

theorem raid56Recov_none (hlost : Lost profile n (-1) (-1)) :
    raid56Recov addr n BTRFS_STRIPE_LEN profile (-1) (-1) data mem = (0, mem) := by
  unfold raid56Recov
  by_cases h5 : profile &&& BTRFS_BLOCK_GROUP_RAID5 = 0
  · obtain ⟨h6, hn, -⟩ := hlost.raid6 h5
    have hmin : ¬ (n : ℤ) < 3 := by omega
    simp only [ne_eq, h5, h6, hmin, not_true_eq_false, not_false_eq_true, and_self, and_false,
      if_true, if_false]
  · have hn := (hlost.raid5 h5).1
    have hmin : ¬ (n : ℤ) < 2 := by omega
    simp only [ne_eq, h5, hmin, not_true_eq_false, not_false_eq_true, and_self, false_and,
      if_true, if_false]

theorem raid56Recov_raid5 (h5 : profile &&& BTRFS_BLOCK_GROUP_RAID5 ≠ 0) (hn : 2 ≤ n)
    (hs : ¬ (dest1 = -1 ∧ dest2 = -1)) (horder : reorderDest dest1 dest2 = (↑i, -1)) :
    raid56Recov addr n BTRFS_STRIPE_LEN profile dest1 dest2 data mem =
      raid5GenResult addr n BTRFS_STRIPE_LEN i data mem := by
  have hmin : ¬ (n : ℤ) < 2 := by omega
  unfold raid56Recov
  simp only [ne_eq, h5, hmin, hs, horder, not_true_eq_false, not_false_eq_true, false_and,
    if_true, if_false]

theorem raid56Recov_raid6 (h5 : profile &&& BTRFS_BLOCK_GROUP_RAID5 = 0)
    (h6 : profile &&& BTRFS_BLOCK_GROUP_RAID6 ≠ 0) (hn : 3 ≤ n) {lo hi : ℤ}
    (hs : ¬ (dest1 = -1 ∧ dest2 = -1)) (horder : reorderDest dest1 dest2 = (lo, hi)) :
    raid56Recov addr n BTRFS_STRIPE_LEN profile dest1 dest2 data mem =
      raid6Recov addr n BTRFS_STRIPE_LEN lo hi data mem := by
  have hmin : ¬ (n : ℤ) < 3 := by omega
  unfold raid56Recov
  simp only [ne_eq, h5, h6, hmin, hs, horder, not_true_eq_false, not_false_eq_true, and_false,
    if_false]

end

/-- The call returns 0, and it restores the stripes exactly when the parity was kept. -/
def RestoresIffKept (addr : Ptr → ℕ) (profile : BitVec 64) (n : ℕ) (dest1 dest2 : ℤ)
    (data : PtrTable) (orig mem : Memory) : Prop :=
  ∃ mem', raid56Recov addr n BTRFS_STRIPE_LEN profile dest1 dest2 data mem = (0, mem') ∧
    (Restored n data orig mem' ↔ ParityKept profile n dest1 dest2 data orig mem)

section

variable (addr : Ptr → ℕ) {profile : BitVec 64} {n : ℕ} {dest1 dest2 : ℤ} {data : PtrTable}
  {orig mem : Memory} (hbuf : Buffers n data) (hlost : Lost profile n dest1 dest2)
  (hcons : Consistent profile n data orig) (hover : Overwritten n dest1 dest2 data orig mem)

theorem Overwritten.tail (hover : Overwritten n dest1 dest2 data orig mem) :
    ∀ k < n, ∀ x, BTRFS_STRIPE_LEN ≤ x → mem (data (k : ℕ)) x = orig (data k) x :=
  fun k hk x hx => hover k hk x (Or.inr hx)

theorem Overwritten.kept (hover : Overwritten n dest1 dest2 data orig mem) {k : ℕ} (hk : k < n)
    (h1 : (k : ℤ) ≠ dest1) (h2 : (k : ℤ) ≠ dest2) : mem (data k) = orig (data k) :=
  funext fun x => hover k hk x (Or.inl ⟨h1, h2⟩)

include hbuf hlost hcons hover

theorem raid56Recov_raid5_restores (h5 : profile &&& BTRFS_BLOCK_GROUP_RAID5 ≠ 0) :
    ∃ mem', raid56Recov addr n BTRFS_STRIPE_LEN profile dest1 dest2 data mem = (0, mem') ∧
      Restored n data orig mem' := by
  obtain ⟨hn, hone⟩ := hlost.raid5 h5
  rw [Consistent, if_pos h5] at hcons
  have hc : ∀ i : ℕ, i < n → ¬ (dest1 = -1 ∧ dest2 = -1) → reorderDest dest1 dest2 = (↑i, -1) →
      (∀ k : ℕ, k ≠ i → (k : ℤ) ≠ dest1 ∧ (k : ℤ) ≠ dest2) →
      ∃ mem', raid56Recov addr n BTRFS_STRIPE_LEN profile dest1 dest2 data mem = (0, mem') ∧
        Restored n data orig mem' := by
    intro i hi hs horder hother
    rw [raid56Recov_raid5 addr h5 hn hs horder]
    exact raid5_restores addr hn hi hbuf.distinct hcons
      (fun k hk hki => hover.kept hk (hother k hki).1 (hother k hki).2) hover.tail
  rcases lost_cases hlost.range1.1 with rfl | ⟨i, rfl⟩
  · rcases lost_cases hlost.range2.1 with rfl | ⟨j, rfl⟩
    · exact ⟨mem, raid56Recov_none addr hlost, fun k hk => hover.kept hk (by omega) (by omega)⟩
    · have hj := hlost.range2.2
      exact hc j (by omega) (by omega) (reorderDest_second j) (by omega)
  · have hi := hlost.range1.2
    have hsecond : dest2 = -1 := by omega
    subst hsecond
    exact hc i (by omega) (by omega) (reorderDest_first i) (by omega)

theorem raid56Recov_raid6_restores_iff (h5 : profile &&& BTRFS_BLOCK_GROUP_RAID5 = 0) :
    RestoresIffKept addr profile n dest1 dest2 data orig mem := by
  obtain ⟨h6, hn, hmax, hdiff⟩ := hlost.raid6 h5
  rw [Consistent, if_neg (not_not.mpr h5)] at hcons
  obtain ⟨z0, rfl⟩ : ∃ z0, n = z0 + 3 := ⟨n - 3, by omega⟩
  have hstripes : SyndromeUpTo z0 data orig BTRFS_STRIPE_LEN orig := by
    have h := raid6GenSyndrome_spec hbuf.distinct orig dvd_stripeLen
    exact (congrArg (SyndromeUpTo z0 data orig BTRFS_STRIPE_LEN) hcons).mp h
  have hsingle : ∀ i : ℕ, i < z0 + 3 → (dest1 = -1 ∨ dest2 = -1) →
      ¬ (dest1 = -1 ∧ dest2 = -1) → reorderDest dest1 dest2 = (↑i, -1) →
      (∀ k : ℕ, k ≠ i → (k : ℤ) ≠ dest1 ∧ (k : ℤ) ≠ dest2) →
      RestoresIffKept addr profile (z0 + 3) dest1 dest2 data orig mem := by
    intro i hi hone hs horder hother
    obtain ⟨mem', hc, hrestored⟩ := raid6Recov_single hbuf hstripes hover.tail addr hi
      fun k hk hki => hover.kept hk (hother k hki).1 (hother k hki).2
    refine ⟨mem', (raid56Recov_raid6 addr h5 h6 hn hs horder).trans hc, ?_⟩
    refine ⟨fun _ _ d e _ _ _ h => ?_, fun _ => hrestored⟩
    omega
  have hp : ∀ i j : ℕ, i < j → j < z0 + 3 → ¬ (dest1 = -1 ∧ dest2 = -1) →
      reorderDest dest1 dest2 = (↑i, ↑j) →
      (dest1 = i ∧ dest2 = j ∨ dest1 = j ∧ dest2 = i) →
      RestoresIffKept addr profile (z0 + 3) dest1 dest2 data orig mem := by
    intro i j hij hj hs horder hdest
    obtain ⟨mem', hc, hiff⟩ := raid6Recov_pair hbuf hstripes hover.tail addr (by omega) hij hj
      fun k hk hki hkj => hover.kept hk (by omega) (by omega)
    refine ⟨mem', (raid56Recov_raid6 addr h5 h6 hn hs horder).trans hc, ?_⟩
    rw [hiff]
    constructor
    · intro h _ d e hd he hen hde
      have heq : d = i ∧ e = j := by omega
      rw [heq.2]
      exact h (by omega) (by omega)
    · intro h hi hparity
      exact h h5 i j (by omega) (by omega) hj hdest
  have hr1 := hlost.range1.2
  have hr2 := hlost.range2.2
  rcases lost_cases hlost.range1.1 with rfl | ⟨i, rfl⟩
  · rcases lost_cases hlost.range2.1 with rfl | ⟨j, rfl⟩
    · refine ⟨mem, raid56Recov_none addr hlost, fun _ _ d e _ _ _ h => ?_, fun _ k hk => ?_⟩
      · omega
      · exact hover.kept hk (by omega) (by omega)
    · exact hsingle j (by omega) (by omega) (by omega) (reorderDest_second j) (by omega)
  · rcases lost_cases hlost.range2.1 with rfl | ⟨j, rfl⟩
    · exact hsingle i (by omega) (by omega) (by omega) (reorderDest_first i) (by omega)
    · rcases Nat.lt_trichotomy i j with hij | hij | hij
      · exact hp i j hij (by omega) (by omega) (reorderDest_lt hij) (by omega)
      · exact absurd (hdiff (by omega)) (by omega)
      · exact hp j i hij (by omega) (by omega) (reorderDest_gt hij) (by omega)

end

/-- The call returns 0 and restores every stripe if and only if a parity stripe that was lost
together with a data stripe happens to have kept its contents. -/
theorem raid56Recov_restores_iff (addr : Ptr → ℕ) {profile : BitVec 64} {n : ℕ}
    {dest1 dest2 : ℤ} {data : PtrTable} {orig mem : Memory} (hbuf : Buffers n data)
    (hlost : Lost profile n dest1 dest2) (hcons : Consistent profile n data orig)
    (hover : Overwritten n dest1 dest2 data orig mem) :
    (∃ mem', raid56Recov addr n BTRFS_STRIPE_LEN profile dest1 dest2 data mem = (0, mem') ∧
      Restored n data orig mem') ↔ ParityKept profile n dest1 dest2 data orig mem := by
  by_cases h5 : profile &&& BTRFS_BLOCK_GROUP_RAID5 = 0
  · obtain ⟨mem', hc, hiff⟩ := raid56Recov_raid6_restores_iff addr hbuf hlost hcons hover h5
    rw [← hiff, hc]
    constructor
    · rintro ⟨out, hout, hrestored⟩
      cases hout
      exact hrestored
    · intro hrestored
      exact ⟨mem', rfl, hrestored⟩
  · have hresult := raid56Recov_raid5_restores addr hbuf hlost hcons hover h5
    exact ⟨fun _ h => absurd h h5, fun _ => hresult⟩

/-! ## Two losses of zero stripes -/

theorem buffers_stripe (n : ℕ) : Buffers n Ptr.stripe := by
  constructor
  · intro i j _ _ h
    exact_mod_cast Ptr.stripe.inj h
  · intro i _
    exact ⟨by simp, by simp⟩

/-- Stripes of zeros, with the first bytes of two of them replaced. -/
private def zerosExcept (a b : ℤ) (v : Byte) : Memory :=
  fun ptr x => if (ptr = .stripe a ∨ ptr = .stripe b) ∧ x < BTRFS_STRIPE_LEN then v else 0

private theorem consistent_zeros (z0 : ℕ) :
    Consistent BTRFS_BLOCK_GROUP_RAID6 (z0 + 3) Ptr.stripe (fun _ _ => 0) := by
  have hsyn := raid6GenSyndrome_spec (buffers_stripe (z0 + 3)).distinct (fun _ _ => 0) dvd_stripeLen
  funext ptr x
  apply of_injective
  by_cases hp : ptr = .stripe (z0 + 1)
  · rw [hp]
    refine (hsyn.parity x).trans ?_
    split
    · exact Finset.sum_eq_zero fun i _ => rfl
    · rfl
  by_cases hq : ptr = .stripe (z0 + 2)
  · rw [hq]
    refine (hsyn.syndrome x).trans ?_
    split
    · exact Finset.sum_eq_zero fun i _ => mul_zero _
    · rfl
  · exact congrArg of (congrFun (hsyn.frame ptr hp hq) x)

private theorem overwritten_zerosExcept (n : ℕ) (a b : ℤ) (v : Byte) :
    Overwritten n a b Ptr.stripe (fun _ _ => 0) (zerosExcept a b v) := by
  intro i _ x h
  have hnot : ¬ ((Ptr.stripe i = .stripe a ∨ Ptr.stripe i = .stripe b) ∧ x < BTRFS_STRIPE_LEN) := by
    simp only [Ptr.stripe.injEq]
    omega
  rw [zerosExcept, if_neg hnot]

private theorem lost_pair (n a b : ℕ) (hn : 3 ≤ n ∧ n ≤ 257) (ha : a < n) (hb : b < n)
    (hab : a ≠ b) : Lost BTRFS_BLOCK_GROUP_RAID6 n a b := by
  refine ⟨by omega, by omega, fun h => absurd (by decide) h, fun _ => ⟨by decide, hn.1, hn.2, ?_⟩⟩
  omega

/-- Two data stripes of four, given in descending order. -/
theorem raid56Recov_restores_two_data :
    ∃ mem', raid56Recov (fun _ => 0) 4 BTRFS_STRIPE_LEN BTRFS_BLOCK_GROUP_RAID6 1 0 Ptr.stripe
        (zerosExcept 1 0 7) = (0, mem') ∧
      Restored 4 Ptr.stripe (fun _ _ => 0) mem' :=
  (raid56Recov_restores_iff (fun _ => 0) (buffers_stripe 4)
    (lost_pair 4 1 0 (by decide) (by decide) (by decide) (by decide)) (consistent_zeros 1)
    (overwritten_zerosExcept 4 1 0 7)).mpr (by
      intro _ d e hd he hen h
      omega)

/-- A data stripe and `P` of three stripes, both overwritten. -/
theorem raid56Recov_trusts_lost_parity : Lost BTRFS_BLOCK_GROUP_RAID6 3 0 1 ∧
    Consistent BTRFS_BLOCK_GROUP_RAID6 3 Ptr.stripe (fun _ _ => 0) ∧
    Overwritten 3 0 1 Ptr.stripe (fun _ _ => 0) (zerosExcept 0 1 7) ∧
    ¬ ∃ mem', raid56Recov (fun _ => 0) 3 BTRFS_STRIPE_LEN BTRFS_BLOCK_GROUP_RAID6 0 1 Ptr.stripe
        (zerosExcept 0 1 7) = (0, mem') ∧
      Restored 3 Ptr.stripe (fun _ _ => 0) mem' := by
  have hlost := lost_pair 3 0 1 (by decide) (by decide) (by decide) (by decide)
  have hover := overwritten_zerosExcept 3 0 1 7
  refine ⟨hlost, consistent_zeros 0, hover, ?_⟩
  rintro ⟨out, hout, hrst⟩
  obtain ⟨mem', hc, hiff⟩ := raid56Recov_raid6_restores_iff (fun _ => 0) (buffers_stripe 3)
    hlost (consistent_zeros 0) hover (by decide)
  have hs : mem' = out := congrArg Prod.snd (hc.symm.trans hout)
  subst hs
  have hk := hiff.mp hrst (by decide) 0 1 (by decide) (by decide) (by decide) (Or.inl ⟨rfl, rfl⟩)
  have hb : (7 : Byte) = 0 := congrFun hk 0
  exact absurd hb (by decide)

end Btrfs.Raid56
