import Btrfs.Verification.Raid56.Parity
import Btrfs.Verification.Volumes.RowRead

/-! # Writing a row with its parity -/

namespace Btrfs.Volumes

open Raid56 PqCode Gf

variable {devs devs' : Devices} {len n a t : ℕ} {data : ℕ → Byte} {addr : Ptr → ℕ}

/-! ## The data buffers -/

variable {eb : ExtentBuffer} {p : ℕ} {starts rest : List ℕ}

theorem splitEb_of_stripes {info : FsInfo} (hp : BTRFS_RAID5_P_STRIPE ≤ p)
    (hlt : ∀ s ∈ starts, s < BTRFS_RAID5_P_STRIPE) {g : ℕ → ExtentBuffer}
    (hall : ∀ s ∈ starts, splitStripe info devs eb len s = .ok (0, g s)) :
    splitEbForRaid56 info devs eb len (starts ++ p :: rest) = .ok (0, starts.map g) := by
  induction starts with
  | nil => rw [List.nil_append, splitEbForRaid56, if_pos hp]; rfl
  | cons s starts ih =>
    have hr := ih (fun s' hs' => hlt s' (List.mem_cons_of_mem s hs'))
      fun s' hs' => hall s' (List.mem_cons_of_mem s hs')
    have hs : ¬ BTRFS_RAID5_P_STRIPE ≤ s := not_le.mpr (hlt s List.mem_cons_self)
    simp only [List.cons_append, splitEbForRaid56, hs, if_false, hall s List.mem_cons_self,
      ne_eq, not_true_eq_false, hr, List.map_cons]

theorem stripes_of_splitEb {info : FsInfo} (hlt : ∀ s ∈ starts, s < BTRFS_RAID5_P_STRIPE)
    {ebs : List ExtentBuffer}
    (h : splitEbForRaid56 info devs eb len (starts ++ p :: rest) = .ok (0, ebs)) :
    ∀ s ∈ starts, ∃ eb', splitStripe info devs eb len s = .ok (0, eb') := by
  induction starts generalizing ebs with
  | nil => intro s hs; cases hs
  | cons s starts ih =>
    have hs : ¬ BTRFS_RAID5_P_STRIPE ≤ s := not_le.mpr (hlt s List.mem_cons_self)
    simp only [List.cons_append, splitEbForRaid56, hs, if_false] at h
    split at h
    · cases h
    · rename_i ret eb' hstripe
      split at h
      · rename_i hret
        simp only [Except.ok.injEq, Prod.mk.injEq] at h
        exact absurd h.1 hret
      · rename_i hret
        rw [not_not.mp hret] at hstripe
        split at h
        · cases h
        · rename_i ret' ebs' hr
          simp only [Except.ok.injEq, Prod.mk.injEq] at h
          rw [h.1] at hr
          intro s' hs'
          rcases List.mem_cons.mp hs' with rfl | hs'
          · exact ⟨eb', hstripe⟩
          · exact ih (fun s' hs' => hlt s' (List.mem_cons_of_mem s hs')) hr s' hs'

/-! ## The parity buffers -/

theorem distinct_stripe (n : ℕ) : Distinct n Ptr.stripe := by
  intro i j _ _ heq
  have hij : (i : ℤ) = j := Ptr.stripe.inj heq
  exact_mod_cast hij

/-- The buffers after the first `columns` ones are P and, in RAID6, Q of these. -/
structure ParityOf (columns len : ℕ) (raid6 : Bool) (bufs : ℕ → ℕ → Byte) : Prop where
  p : ∀ x < len, of (bufs columns x) = pSum columns fun k => of (bufs k x)
  q : raid6 = true → ∀ x < len, of (bufs (columns + 1) x) = qSum gen columns fun k => of (bufs k x)

theorem ParityOf.congr {columns : ℕ} {raid6 : Bool} {bufs bufs' : ℕ → ℕ → Byte}
    (h : ParityOf columns len raid6 bufs)
    (heq : ∀ k < columns + (if raid6 then 2 else 1), bufs' k = bufs k) :
    ParityOf columns len raid6 bufs' := by
  have hd : ∀ x, ∀ k < columns, of (bufs' k x) = of (bufs k x) := by
    intro x k hk
    rw [heq k (by omega)]
  constructor
  · intro x hx
    rw [heq columns (by split <;> omega), h.p x hx, pSum_congr (hd x)]
  · intro hsix x hx
    rw [heq (columns + 1) (by rw [if_pos hsix]; omega), h.q hsix x hx, qSum_congr gen (hd x)]

theorem parityBuffers_spec (addr : Ptr → ℕ) {q : Bool} (hn : (if q then 3 else 2) ≤ n)
    (ebs : List ExtentBuffer) :
    ∃ bufs, parityBuffers addr n BTRFS_STRIPE_LEN ebs q = (0, bufs) ∧
      (∀ k < n - (if q then 2 else 1), bufs k = stripeMemory ebs (.stripe k)) ∧
      ParityOf (n - if q then 2 else 1) BTRFS_STRIPE_LEN q bufs := by
  cases q with
  | false =>
    have htwo : 2 ≤ n := hn
    obtain ⟨m, rfl⟩ : ∃ m, n = m + 1 := ⟨n - 1, by omega⟩
    have hl : ((m + 1 : ℕ) : ℤ) - 1 = (m : ℕ) := by omega
    obtain ⟨mem, hgeneration, hcombined⟩ := raid5GenResult_spec addr htwo (Nat.lt_succ_self m)
      (distinct_stripe (m + 1)) (stripeMemory ebs)
    have hd : ∀ k < m, mem (.stripe k) = stripeMemory ebs (.stripe k) := by
      intro k hk
      apply hcombined.frame
      intro heq
      have hkm := Ptr.stripe.inj heq
      omega
    refine ⟨fun i => mem (.stripe i), ?_, hd, ?_, nofun⟩
    · simp only [parityBuffers, Bool.false_eq_true, if_false, hl, hgeneration]
    · intro x hx
      change of (mem (.stripe m) x) = pSum m fun k => of (mem (.stripe k) x)
      rw [hcombined.result x, if_pos hx, pSum, Finset.sum_range_succ, Function.update_self, add_zero]
      apply pSum_congr
      intro k hk
      rw [Function.update_of_ne hk.ne, dataAt, hd k hk]
  | true =>
    have hthree : 3 ≤ n := hn
    obtain ⟨z0, rfl⟩ : ∃ z0, n = z0 + 3 := ⟨n - 3, by omega⟩
    have hcast : ((z0 + 3 : ℕ) : ℤ) = (z0 : ℤ) + 3 := by omega
    have hsyn := raid6GenSyndrome_spec (distinct_stripe (z0 + 3)) (stripeMemory ebs)
      (by decide : 8 ∣ BTRFS_STRIPE_LEN)
    have hbufs : parityBuffers addr (z0 + 3) BTRFS_STRIPE_LEN ebs true = (0, fun i : ℕ =>
        raid6GenSyndrome (z0 + 3) BTRFS_STRIPE_LEN Ptr.stripe (stripeMemory ebs) (.stripe i)) := by
      simp only [parityBuffers, if_true, hcast]
    generalize raid6GenSyndrome _ _ _ _ = mem at hsyn hbufs
    have hd : ∀ k < z0 + 1, mem (.stripe k) = stripeMemory ebs (.stripe k) := by
      intro k hk
      have hne := (distinct_stripe (z0 + 3)).ne_parity hk
      exact hsyn.frame _ hne.1 hne.2
    have hke : ∀ x, ∀ k < z0 + 1, dataAt (stripeMemory ebs) Ptr.stripe x k =
        of (mem (.stripe k) x) := by
      intro x k hk
      rw [dataAt, hd k hk]
    refine ⟨_, hbufs, hd, ?_, ?_⟩
    · intro x hx
      have hp := hsyn.parity x
      rw [if_pos hx, pSum_congr (hke x)] at hp
      exact_mod_cast hp
    · intro _ x hx
      have hq := hsyn.syndrome x
      rw [if_pos hx, qSum_congr gen (hke x)] at hq
      exact_mod_cast hq

/-! ## The parity stripes -/

theorem find?_range_eq {i : ℕ} {p : ℕ → Bool} (hi : i < n) (hp : p i = true)
    (hbefore : ∀ j < i, p j = false) : (List.range n).find? p = some i := by
  rw [List.find?_range_eq_some]
  exact ⟨hp, List.mem_range.mpr hi, fun j hj => by rw [hbefore j hj]; rfl⟩

section

variable {map : MapLookup} {profile : Profile} (h : Accepted map profile)
  (hparity : profile.parity = true) {row : ℕ}
  (hrow : map.ce.start + (row + 1) * profile.columns map.numStripes * map.stripeLen ≤ 2 ^ 64)

/-- The stripes of a row in the order of the `raid_map`. -/
def rowStripes (map : MapLookup) (row : ℕ) : List BioStripe :=
  (List.range map.numStripes).map fun k => map.stripeAt (row * map.stripeLen) (rotated map row k)

/-- The first addresses of the data stripes of a row. -/
def unitStart (map : MapLookup) (profile : Profile) (row i : ℕ) : ℕ :=
  (row * profile.columns map.numStripes + i) * map.stripeLen

omit h hparity hrow in
theorem parityStripe_row (entry : ℕ) :
    parityStripe ((List.range map.numStripes).map (rowEntry map profile row)) (rowStripes map row)
      entry = ((List.range map.numStripes).find? fun k => rowEntry map profile row k = entry).map
        fun k => map.stripeAt (row * map.stripeLen) (rotated map row k) := by
  rw [parityStripe, rowStripes, List.zip_map', List.find?_map, Option.map_map]
  rfl

include h hparity hrow

theorem Accepted.rowEntry_ne_q {k : ℕ} (hk : k ≤ profile.columns map.numStripes) :
    rowEntry map profile row k ≠ BTRFS_RAID6_Q_STRIPE := by
  have hp : rowEntry map profile row (profile.columns map.numStripes) = BTRFS_RAID5_P_STRIPE := by
    rw [rowEntry, if_neg (lt_irrefl _), if_pos rfl]
  have hpq : BTRFS_RAID5_P_STRIPE < BTRFS_RAID6_Q_STRIPE := by decide
  rcases hk.lt_or_eq with hlt | heq
  · have hent := h.rowEntry_lt hparity hrow hlt (h.columns_lt hparity)
    rw [hp] at hent
    exact (hent.trans hpq).ne
  · rw [heq, hp]
    exact hpq.ne

theorem Accepted.parityStripe_p :
    parityStripe ((List.range map.numStripes).map (rowEntry map profile row)) (rowStripes map row)
      BTRFS_RAID5_P_STRIPE = some (map.stripeAt (row * map.stripeLen)
        (rotated map row (profile.columns map.numStripes))) := by
  have hcolumns := h.columns_lt hparity
  have hp : rowEntry map profile row (profile.columns map.numStripes) = BTRFS_RAID5_P_STRIPE := by
    rw [rowEntry, if_neg (lt_irrefl _), if_pos rfl]
  have hf : (List.range map.numStripes).find?
      (fun k => rowEntry map profile row k = BTRFS_RAID5_P_STRIPE) =
        some (profile.columns map.numStripes) := by
    apply find?_range_eq hcolumns (decide_eq_true hp)
    intro j hj
    have hlt := h.rowEntry_lt hparity hrow hj hcolumns
    rw [hp] at hlt
    exact decide_eq_false hlt.ne
  rw [parityStripe_row, hf]
  rfl

theorem Accepted.parityStripe_q :
    parityStripe ((List.range map.numStripes).map (rowEntry map profile row)) (rowStripes map row)
      BTRFS_RAID6_Q_STRIPE = if profile = .raid6 then some (map.stripeAt (row * map.stripeLen)
        (rotated map row (profile.columns map.numStripes + 1))) else none := by
  have hother : ∀ k ≤ profile.columns map.numStripes,
      decide (rowEntry map profile row k = BTRFS_RAID6_Q_STRIPE) = false :=
    fun k hk => decide_eq_false (h.rowEntry_ne_q hparity hrow hk)
  have hq : rowEntry map profile row (profile.columns map.numStripes + 1) =
      BTRFS_RAID6_Q_STRIPE := by
    rw [rowEntry, if_neg (by omega), if_neg (by omega)]
  have hcount := h.count
  rw [parityStripe_row]
  cases profile with
  | raid5 =>
    have hf : (List.range map.numStripes).find?
        (fun k => rowEntry map .raid5 row k = BTRFS_RAID6_Q_STRIPE) = none := by
      rw [List.find?_eq_none]
      intro k hk
      have hlt := List.mem_range.mp hk
      rw [hother k (by simp only [Profile.columns]; omega)]
      exact Bool.false_ne_true
    rw [hf]
    rfl
  | raid6 =>
    have hthree : 3 ≤ map.numStripes := hcount
    have hlt : Profile.raid6.columns map.numStripes + 1 < map.numStripes := by
      simp only [Profile.columns]
      omega
    rw [find?_range_eq hlt (decide_eq_true hq) fun j hj => hother j (Nat.le_of_lt_succ hj)]
    rfl
  | _ => cases hparity

end

/-! ## The row as a whole -/

theorem range_split {c : ℕ} (h : c < n) :
    List.range n = List.range c ++ c :: (List.range n).drop (c + 1) := by
  have hd : (List.range n).drop c = c :: (List.range n).drop (c + 1) := by
    rw [List.drop_eq_getElem_cons (by simpa using h), List.getElem_range]
  have ht : (List.range n).take c = List.range c := by rw [List.take_range, min_eq_left h.le]
  rw [← hd, ← ht, List.take_append_drop]

def unrotated (map : MapLookup) (row j : ℕ) : ℕ :=
  (j + (map.numStripes - row % map.numStripes)) % map.numStripes

theorem unrotated_rotated {map : MapLookup} {row k : ℕ} (hk : k < map.numStripes) :
    unrotated map row (rotated map row k) = k := by
  have hrot : row % map.numStripes < map.numStripes := Nat.mod_lt _ (by omega)
  have hsum : row % map.numStripes + k + (map.numStripes - row % map.numStripes) =
      k + map.numStripes := by omega
  rw [unrotated, rotated, ← Nat.mod_add_mod row, Nat.mod_add_mod, hsum, Nat.add_mod_right,
    Nat.mod_eq_of_lt hk]

section

variable {info : FsInfo} {map : MapLookup} {profile : Profile} (h : InTree info map profile)
  (hparity : profile.parity = true) {row : ℕ}
  (hrow : (row + 1) * profile.columns map.numStripes * map.stripeLen ≤ map.ce.size)

/-- The row can be written: the bytes that are not overwritten can be read first. -/
def RowReadable (h : InTree info map profile) (devs : Devices) (row a t : ℕ) : Prop :=
  ∀ i < profile.columns map.numStripes, (a ≤ unitStart map profile row i ∧
      unitStart map profile row i + map.stripeLen ≤ a + t) ∨
    ∀ b < map.stripeLen, (rmwByte h devs (unitStart map profile row i + b)).isSome

omit h hrow in
include hparity in
theorem Accepted.parity_count (h : Accepted map profile) :
    map.numStripes = profile.columns map.numStripes + if profile = .raid6 then 2 else 1 := by
  have hcount := h.count
  cases profile with
  | raid5 =>
    have htwo : 2 ≤ map.numStripes := hcount
    simp only [Profile.columns, reduceCtorEq, if_false]
    omega
  | raid6 =>
    have hthree : 3 ≤ map.numStripes := hcount
    simp only [Profile.columns, if_true]
    omega
  | _ => cases hparity

omit h hrow in
include hparity in
theorem Accepted.targets_eq (h : Accepted map profile) (row : ℕ) :
    (rowStripes map row).take (profile.columns map.numStripes) ++
      map.stripeAt (row * map.stripeLen) (rotated map row (profile.columns map.numStripes)) ::
      (if profile = .raid6 then some (map.stripeAt (row * map.stripeLen)
        (rotated map row (profile.columns map.numStripes + 1))) else none).toList =
      rowStripes map row := by
  have hcount := h.parity_count hparity
  rw [rowStripes]
  generalize profile.columns map.numStripes = c at hcount ⊢
  rw [hcount, ← List.map_take, List.take_range, min_eq_left (Nat.le_add_right _ _)]
  split
  · rw [List.range_succ, List.range_succ, List.map_append, List.map_append]
    simp
  · rw [List.range_succ, List.map_append]
    simp

omit h hrow in
include hparity in
theorem Accepted.map_rowEntry (h : Accepted map profile) :
    (List.range map.numStripes).map (rowEntry map profile row) =
      (List.range (profile.columns map.numStripes)).map
          (fun i => map.ce.start + unitStart map profile row i) ++
        BTRFS_RAID5_P_STRIPE ::
          ((List.range map.numStripes).drop (profile.columns map.numStripes + 1)).map
            (rowEntry map profile row) := by
  have hd : (List.range (profile.columns map.numStripes)).map (rowEntry map profile row) =
      (List.range (profile.columns map.numStripes)).map
        fun i => map.ce.start + unitStart map profile row i := by
    apply List.map_congr_left
    intro i hi
    rw [rowEntry, if_pos (List.mem_range.mp hi), unitStart]
  have hp : rowEntry map profile row (profile.columns map.numStripes) = BTRFS_RAID5_P_STRIPE := by
    rw [rowEntry, if_neg (lt_irrefl _), if_pos rfl]
  conv_lhs => rw [range_split (h.columns_lt hparity)]
  rw [List.map_append, List.map_cons, hd, hp]

omit h hparity in
include hrow in
theorem isUnit_unitStart {i : ℕ} (hi : i < profile.columns map.numStripes) :
    IsUnit map (unitStart map profile row i) := by
  refine ⟨Dvd.intro_left _ rfl, ?_⟩
  refine le_trans ?_ hrow
  rw [unitStart, ← Nat.succ_mul]
  apply Nat.mul_le_mul_right
  rw [Nat.succ_mul]
  omega

def writeRow (addr : Ptr → ℕ) (info : FsInfo) (map : MapLookup) (profile : Profile)
    (devs : Devices) (row a t : ℕ) (data : ℕ → Byte) : Call (ℤ × Devices) :=
  writeRaid56WithParity addr info devs ⟨map.ce.start + a, t, data⟩ (rowStripes map row)
    map.stripeLen ((List.range map.numStripes).map (rowEntry map profile row))

def RowData (h : InTree info map profile) (devs : Devices) (row a t : ℕ) (data : ℕ → Byte)
    (stripeData : ℕ → ℕ → Byte) : Prop :=
  ∀ i < profile.columns map.numStripes, ∀ b < map.stripeLen,
    stripeData (rotated map row i) b = newByte h devs a t data (unitStart map profile row i + b)

def RowParity (map : MapLookup) (profile : Profile) (row : ℕ) (stripeData : ℕ → ℕ → Byte) : Prop :=
  ParityOf (profile.columns map.numStripes) map.stripeLen (profile = .raid6) fun k =>
    stripeData (rotated map row k)

def rowBuffer (h : InTree info map profile) (devs : Devices) (a t : ℕ) (data : ℕ → Byte)
    (start : ℕ) : ExtentBuffer :=
  ⟨start, map.stripeLen, fun b => if b < map.stripeLen then
    newByte h devs a t data (start - map.ce.start + b) else 0⟩

include h hrow

theorem InTree.row_end_le :
    map.ce.start + (row + 1) * profile.columns map.numStripes * map.stripeLen ≤ 2 ^ 64 := by
  have hbound := h.bound
  omega

include hparity

theorem InTree.unitStart_lt_p : ∀ s ∈ (List.range (profile.columns map.numStripes)).map
      (fun i => map.ce.start + unitStart map profile row i), s < BTRFS_RAID5_P_STRIPE := by
  intro s hs
  obtain ⟨i, hi, rfl⟩ := List.mem_map.mp hs
  have hic := List.mem_range.mp hi
  have hlt := h.rowEntry_lt hparity (h.row_end_le hrow) hic (h.columns_lt hparity)
  rwa [rowEntry, if_pos hic, rowEntry, if_neg (lt_irrefl _), if_pos rfl] at hlt

theorem InTree.splitRow_of_readable (data : ℕ → Byte) (hr : RowReadable h devs row a t) :
    splitEbForRaid56 info devs ⟨map.ce.start + a, t, data⟩ map.stripeLen
        ((List.range map.numStripes).map (rowEntry map profile row)) =
      .ok (0, ((List.range (profile.columns map.numStripes)).map
        (fun i => map.ce.start + unitStart map profile row i)).map
          (rowBuffer h devs a t data)) := by
  rw [h.map_rowEntry hparity]
  apply splitEb_of_stripes le_rfl (h.unitStart_lt_p hparity hrow)
  intro s hs
  obtain ⟨i, hi, rfl⟩ := List.mem_map.mp hs
  have hic := List.mem_range.mp hi
  have hstripe := h.splitStripe_spec (isUnit_unitStart hrow hic) devs a t data
  rw [if_pos (hr i hic)] at hstripe
  rw [hstripe, rowBuffer, Nat.add_sub_cancel_left]

theorem InTree.readable_of_splitRow {ebs : List ExtentBuffer}
    (hsplit : splitEbForRaid56 info devs ⟨map.ce.start + a, t, data⟩ map.stripeLen
      ((List.range map.numStripes).map (rowEntry map profile row)) = .ok (0, ebs)) :
    RowReadable h devs row a t := by
  rw [h.map_rowEntry hparity] at hsplit
  intro i hi
  have hmem : map.ce.start + unitStart map profile row i ∈
      (List.range (profile.columns map.numStripes)).map
        (fun i => map.ce.start + unitStart map profile row i) :=
    List.mem_map.mpr ⟨i, List.mem_range.mpr hi, rfl⟩
  obtain ⟨eb, heb⟩ := stripes_of_splitEb (h.unitStart_lt_p hparity hrow) hsplit _ hmem
  have hstripe := h.splitStripe_spec (isUnit_unitStart hrow hi) devs a t data
  by_contra hnot
  rw [if_neg hnot] at hstripe
  exact hstripe eb heb

/-- A row whose bytes can be read goes to all its stripes. -/
theorem InTree.writeRow_of_readable (addr : Ptr → ℕ) (data : ℕ → Byte)
    (hr : RowReadable h devs row a t) :
    ∃ stripeData, RowData h devs row a t data stripeData ∧ RowParity map profile row stripeData ∧
      writeRow addr info map profile devs row a t data =
        .ok (writeBuffers map.stripeLen (((List.range map.numStripes).map (rotated map row)).map
          fun i => (stripeData i, map.stripeAt (row * map.stripeLen) i)) devs) := by
  have hsplit := h.splitRow_of_readable hparity hrow data hr
  have hp := h.parityStripe_p hparity (h.row_end_le hrow)
  have hq := h.parityStripe_q hparity (h.row_end_le hrow)
  have htargets := h.targets_eq hparity row
  have hcount := h.parity_count hparity
  have hlen : (rowStripes map row).length = map.numStripes := by
    rw [rowStripes, List.length_map, List.length_range]
  have hs : (if profile = .raid6 then some (map.stripeAt (row * map.stripeLen)
      (rotated map row (profile.columns map.numStripes + 1))) else none).isSome =
        decide (profile = .raid6) := by
    split
    · exact (decide_eq_true ‹_›).symm
    · exact (decide_eq_false ‹_›).symm
  obtain ⟨ebs, hebs⟩ : ∃ ebs, ebs = ((List.range (profile.columns map.numStripes)).map
    (fun i => map.ce.start + unitStart map profile row i)).map (rowBuffer h devs a t data) :=
    ⟨_, rfl⟩
  have hebsLength : ebs.length = profile.columns map.numStripes := by simp [hebs]
  rw [← hebs] at hsplit
  have hcolumns := (layout h.toAccepted).columns_pos
  have hn : (if decide (profile = .raid6) then 3 else 2) ≤ map.numStripes := by
    change 0 < profile.columns map.numStripes at hcolumns
    simp only [decide_eq_true_eq]
    split at hcount
    · rw [if_pos ‹_›]
      omega
    · rw [if_neg ‹_›]
      omega
  obtain ⟨bufs, hbufs, hd, hparityOf⟩ := parityBuffers_spec addr hn ebs
  have hdataCount : map.numStripes - (if decide (profile = .raid6) then 2 else 1) =
      profile.columns map.numStripes := by
    simp only [decide_eq_true_eq]
    omega
  rw [hdataCount, ← h.stripeLen] at hparityOf
  refine ⟨fun j => bufs (unrotated map row j), ?_, ?_, ?_⟩
  · intro i hi b hb
    have hin : i < map.numStripes := hi.trans (h.columns_lt hparity)
    have hbuf : ebs[i]? = some (rowBuffer h devs a t data
        (map.ce.start + unitStart map profile row i)) := by
      simp [hebs, hi]
    simp only [unrotated_rotated hin]
    rw [hd i (by omega), stripeMemory, Int.toNat_natCast, hbuf]
    simp only [Option.map_some, Option.getD_some, rowBuffer, hb, if_true, Nat.add_sub_cancel_left]
  · apply hparityOf.congr
    intro k hk
    simp only [decide_eq_true_eq, ← hcount] at hk
    simp only [unrotated_rotated hk]
  · have hzip : ((List.range map.numStripes).map bufs).zip (rowStripes map row) =
        ((List.range map.numStripes).map (rotated map row)).map fun i =>
          (bufs (unrotated map row i), map.stripeAt (row * map.stripeLen) i) := by
      rw [rowStripes, List.zip_map', List.map_map]
      apply List.map_congr_left
      intro k hk
      rw [Function.comp_apply, unrotated_rotated (List.mem_range.mp hk)]
    rw [← h.stripeLen] at hbufs
    simp only [writeRow, writeRaid56WithParity, hsplit, hp, hq, ne_eq, not_true_eq_false, if_false,
      hlen, hs, hbufs, lt_irrefl, hebsLength, htargets, hzip]

theorem InTree.readable_of_writeRow
    (hwrite : writeRow addr info map profile devs row a t data = .ok (0, devs')) :
    RowReadable h devs row a t := by
  simp only [writeRow, writeRaid56WithParity] at hwrite
  split at hwrite
  · cases hwrite
  · rename_i ret ebs hsplit
    split at hwrite
    · rename_i hret
      simp only [Except.ok.injEq, Prod.mk.injEq] at hwrite
      exact absurd hwrite.1 hret
    · rename_i hret
      rw [not_not.mp hret] at hsplit
      exact h.readable_of_splitRow hparity hrow hsplit

end

/-! ## The bytes of the chunk -/

/-- A mapped chunk with its place on the devices. -/
structure Stored (info : FsInfo) (map : MapLookup) (profile : Profile) : Prop
    extends InTree info map profile, Placed map profile

structure RowWritten {info : FsInfo} {map : MapLookup} {profile : Profile}
    (h : InTree info map profile) (devs devs' : Devices) (row a t : ℕ) (data : ℕ → Byte) :
    Prop where
  shape : SameShape devs devs'
  bytes : ∀ x < map.ce.size, chunkByte h.toAccepted devs' x =
    if (layout h.toAccepted).row x = row then
      if a ≤ x ∧ x < a + t then some (data (x - a)) else rmwByte h devs x
    else chunkByte h.toAccepted devs x

section

variable {info : FsInfo} {map : MapLookup} {profile : Profile} (h : Stored info map profile)
  (hparity : profile.parity = true) {row : ℕ}
  (hrow : (row + 1) * profile.columns map.numStripes * map.stripeLen ≤ map.ce.size)

include h hparity hrow

omit hrow in
theorem Stored.place_eq (x : ℕ) : ((layout h.toAccepted).cell x).1 =
    rotated map ((layout h.toAccepted).row x) ((layout h.toAccepted).col x) := by
  cases profile with
  | raid5 => rfl
  | raid6 => rfl
  | _ => cases hparity

omit hparity in
theorem Stored.row_stripe_end_le :
    row * map.stripeLen + map.stripeLen ≤ map.stripeSize profile := by
  have hcolumns : 0 < profile.columns map.numStripes := (layout h.toAccepted).columns_pos
  rw [MapLookup.stripeSize, Nat.le_div_iff_mul_le hcolumns, ← Nat.succ_mul, Nat.mul_right_comm]
  exact hrow

omit hparity hrow in
/-- An address that is kept lies in a stripe that was read. -/
theorem Stored.newByte_eq (hr : RowReadable h.toInTree devs row a t) (data : ℕ → Byte) {x : ℕ}
    (hx : (layout h.toAccepted).row x = row) :
    some (newByte h.toInTree devs a t data x) =
      if a ≤ x ∧ x < a + t then some (data (x - a)) else rmwByte h.toInTree devs x := by
  rw [newByte]
  split
  · rfl
  · rename_i hk
    have haddress : unitStart map profile row ((layout h.toAccepted).col x) + x % map.stripeLen =
        x := by
      rw [← hx]
      exact (layout h.toAccepted).address_eq x
    have hmod : x % map.stripeLen < map.stripeLen := Nat.mod_lt _ h.stripeLen_pos
    rcases hr _ ((layout h.toAccepted).col_lt x) with hcovered | hs
    · exact absurd ⟨by omega, by omega⟩ hk
    · have hb := hs _ hmod
      rw [haddress] at hb
      obtain ⟨v, hv⟩ := Option.isSome_iff_exists.mp hb
      rw [hv, Option.getD_some]

theorem Stored.rowWritten_of_fit {stripeData : ℕ → ℕ → Byte}
    (hr : RowReadable h.toInTree devs row a t)
    (hd : RowData h.toInTree devs row a t data stripeData)
    (hfit : StripesFit map devs (row * map.stripeLen) map.stripeLen
      ((List.range map.numStripes).map (rotated map row))) :
    RowWritten h.toInTree devs (storeStripes map (row * map.stripeLen) map.stripeLen stripeData
      ((List.range map.numStripes).map (rotated map row)) devs) row a t data := by
  have hp := h.rotated_perm row
  have hin := h.row_stripe_end_le hrow
  refine ⟨sameShape_storeStripes _ _ _ _ _ _, ?_⟩
  intro x hx
  have hlt : ((layout h.toAccepted).cell x).1 < map.numStripes := (layout h.toAccepted).place_lt x
  have hmem : ((layout h.toAccepted).cell x).1 ∈
      (List.range map.numStripes).map (rotated map row) :=
    hp.mem_iff.mpr (List.mem_range.mpr hlt)
  have hiff := (layout h.toAccepted).row_eq_iff x row
  rw [chunkByte, h.toPlaced.byteAt_storeStripes hin stripeData (hp.nodup_iff.mpr List.nodup_range)
    (fun i hi => List.mem_range.mp (hp.mem_iff.mp hi)) hfit hlt (h.toPlaced.depth_lt hx)]
  by_cases hs : (layout h.toAccepted).row x = row
  · -- the byte comes from the buffer of its column
    have hoff : (layout h.toAccepted).depth x - row * map.stripeLen = x % map.stripeLen := by
      rw [← hs]
      exact Nat.add_sub_cancel_left _ _
    have haddress : unitStart map profile row ((layout h.toAccepted).col x) + x % map.stripeLen =
        x := by
      rw [← hs]
      exact (layout h.toAccepted).address_eq x
    rw [if_pos ⟨hmem, hiff.mp hs⟩, if_pos hs, h.place_eq hparity, hs, hoff,
      hd _ ((layout h.toAccepted).col_lt x) _ (Nat.mod_lt _ h.stripeLen_pos), haddress,
      h.newByte_eq hr data hs]
  · rw [if_neg fun hc => hs (hiff.mpr hc.2), if_neg hs]
    rfl

section

variable (hwrite : writeRow addr info map profile devs row a t data = .ok (0, devs'))

include hwrite

theorem Stored.writeRow_eq_store : ∃ stripeData, RowData h.toInTree devs row a t data stripeData ∧
      RowParity map profile row stripeData ∧
      StripesFit map devs (row * map.stripeLen) map.stripeLen
        ((List.range map.numStripes).map (rotated map row)) ∧
      devs' = storeStripes map (row * map.stripeLen) map.stripeLen stripeData
        ((List.range map.numStripes).map (rotated map row)) devs := by
  have hr := h.toInTree.readable_of_writeRow hparity hrow hwrite
  obtain ⟨stripeData, hd, hparityOf, hbufs⟩ :=
    h.toInTree.writeRow_of_readable hparity hrow addr data hr
  rw [hbufs, Except.ok.injEq] at hwrite
  have hfit := fit_of_writeBuffers map stripeData h.stripeLen_pos hwrite
  rw [writeBuffers_of_fit map stripeData _ _ hfit] at hwrite
  exact ⟨stripeData, hd, hparityOf, hfit, (Prod.mk.inj hwrite).2.symm⟩

theorem Stored.rowWritten_of_writeRow : RowWritten h.toInTree devs devs' row a t data := by
  obtain ⟨stripeData, hd, -, hfit, rfl⟩ := h.writeRow_eq_store hparity hrow hwrite
  exact h.rowWritten_of_fit hparity hrow (h.toInTree.readable_of_writeRow hparity hrow hwrite) hd
    hfit

theorem Stored.byteAt_of_writeRow {loc : ℕ × ℕ}
    (hout : ∀ i < map.numStripes, loc.1 = (map.stripe i).dev → ¬ ((map.stripe i).physical ≤ loc.2 ∧
        loc.2 < (map.stripe i).physical + map.stripeSize profile)) :
    byteAt devs' loc = byteAt devs loc := by
  obtain ⟨stripeData, -, -, hfit, rfl⟩ := h.writeRow_eq_store hparity hrow hwrite
  have hend := h.row_stripe_end_le hrow
  apply byteAt_storeStripes_of_outside _ _ hfit
  rintro i hi ⟨hdev, hlow, hhigh⟩
  have hlt := List.mem_range.mp ((h.rotated_perm row).mem_iff.mp hi)
  exact hout i hlt hdev ⟨by omega, by omega⟩

end

end

end Btrfs.Volumes
