import Btrfs.Verification.FreeSpaceCache.Ranges

/-! # The runs of a bitmap and the normalised tree -/

namespace Btrfs.FreeSpaceCache

open RbTree

variable {ctl : FreeSpaceCtl} {e : FreeSpace} {bits : List Bool} {z : ℕ}

/-! ## Searching for bits -/

theorem findNext_spec (value : Bool) {i : ℕ} (h : i ≤ bits.length) :
    i ≤ findNext value bits i ∧ findNext value bits i ≤ bits.length ∧
      (∀ j, i ≤ j → j < findNext value bits i → bits[j]? = some (!value)) ∧
      (findNext value bits i < bits.length → bits[findNext value bits i]? = some value) := by
  unfold findNext
  split_ifs with hend
  · refine ⟨h, le_rfl, fun j hle hlt => ?_, fun hlt => ?_⟩
    · omega
    · omega
  · have hle : (bits.drop i).findIdx (· == value) ≤ (bits.drop i).length := List.findIdx_le_length
    rw [List.length_drop] at hle
    refine ⟨by omega, by omega, fun j hij hlt => ?_, fun hlt => ?_⟩
    · have hnot := List.not_of_lt_findIdx (show j - i < (bits.drop i).findIdx (· == value) by omega)
      rw [List.getElem_drop, beq_eq_false_iff_ne] at hnot
      rw [List.getElem?_eq_getElem (by omega)]
      have hj : i + (j - i) = j := by omega
      simp only [hj] at hnot
      rw [← Bool.eq_not_of_ne hnot]
    · have hfound := @List.findIdx_getElem _ (· == value) (bits.drop i)
        (by rw [List.length_drop]; omega)
      rw [List.getElem_drop, beq_iff_eq] at hfound
      rw [List.getElem?_eq_getElem hlt, hfound]

theorem getD_eq_true_iff {i : ℕ} : bits.getD i false = true ↔ bits[i]? = some true := by
  rw [List.getD_eq_getElem?_getD]
  cases bits[i]? with
  | none => simp
  | some b => simp

theorem lt_length_of_set {i : ℕ} (h : bits[i]? = some true) : i < bits.length :=
  (List.getElem?_eq_some_iff.mp h).1

/-- The next run of set bits, from `s` up to `n`. -/
structure NextRun (bits : List Bool) (z s n : ℕ) : Prop where
  le : z ≤ s
  lt : s < n
  le_length : n ≤ bits.length
  clear : ∀ j, z ≤ j → j < s → bits[j]? ≠ some true
  set : ∀ j, s ≤ j → j < n → bits[j]? = some true
  stop : bits[n]? ≠ some true

/-- `search_bitmap` asks for one sector: the first run is long enough. -/
theorem searchBits_one (rounds : ℕ) (h : z ≤ bits.length) :
    (searchBits bits 1 (rounds + 1) z = .ok none ∧ findNext true bits z = bits.length ∧
      ∀ j, z ≤ j → bits[j]? ≠ some true) ∨
    ∃ s n, searchBits bits 1 (rounds + 1) z = .ok (some (s, n - s)) ∧ NextRun bits z s n ∧
      findNext true bits z = s ∧ findNext false bits s = n := by
  obtain ⟨hle, hlen, hclear, hset⟩ := findNext_spec true h
  have hclear' : ∀ j, z ≤ j → j < findNext true bits z → bits[j]? ≠ some true := by
    intro j hj hlt heq
    rw [hclear j hj hlt] at heq
    cases heq
  unfold searchBits
  by_cases hend : bits.length ≤ findNext true bits z
  · rw [if_pos hend]
    refine .inl ⟨rfl, by omega, fun j hj heq => ?_⟩
    have := lt_length_of_set heq
    exact hclear' j hj (by omega) heq
  · rw [if_neg hend]
    have hs := hset (by omega)
    obtain ⟨hle', hlen', hset', hst⟩ := findNext_spec false hlen
    have hlt : findNext true bits z < findNext false bits (findNext true bits z) := by
      refine lt_of_le_of_ne hle' fun heq => ?_
      have := hst (by omega)
      rw [← heq, hs] at this
      cases this
    rw [if_pos (by omega)]
    refine .inr ⟨_, _, rfl, ⟨hle, hlt, hlen', hclear', hset', fun heq => ?_⟩, rfl, rfl⟩
    have := hst (lt_length_of_set heq)
    rw [heq] at this
    cases this

/-! ## Sectors and addresses -/

theorem index_range {u : ℕ} (hu : 0 < u) {o a s n : ℕ} :
    o + s * u ≤ a ∧ a < o + n * u ↔ o ≤ a ∧ s ≤ (a - o) / u ∧ (a - o) / u < n := by
  rw [Nat.le_div_iff_mul_le hu, Nat.div_lt_iff_lt_mul hu]
  omega

theorem covers_bitmap {unit : ℕ} {e : FreeSpace} {bits : List Bool} (h : e.bitmap = some bits)
    (a : ℕ) :
    e.Covers unit a ↔ e.offset ≤ a ∧ bits[(a - e.offset) / unit]? = some true := by
  unfold FreeSpace.Covers
  rw [h]
  exact and_congr_right fun _ => getD_eq_true_iff

/-- A bitmap that was unlinked, whose bits from `z` on are in no entry of the tree. -/
structure Replaying (ctl : FreeSpaceCtl) (e : FreeSpace) (bits : List Bool) (z : ℕ) : Prop where
  wellFormed : WellFormed ctl
  bitmap : e.bitmap = some bits
  end_lt : e.offset + bits.length * ctl.unit < 2 ^ 64
  le : z ≤ bits.length
  apart : ∀ x ∈ inorder ctl.freeSpaceOffset, ∀ a, x.Covers ctl.unit a →
    ¬ (e.Covers ctl.unit a ∧ z ≤ (a - e.offset) / ctl.unit)

theorem WellFormed.unit_pos (h : WellFormed ctl) : 0 < ctl.unit := by
  have hsec := h.sectorsize
  rw [← h.unit] at hsec
  simp only [List.mem_cons, List.not_mem_nil, or_false] at hsec
  omega

section

variable (h : Replaying ctl e bits z)

include h

theorem Replaying.searchBitmap : (searchBitmap ctl e (e.offset + z * ctl.unit) ctl.unit = .ok none ∧
      findNext true bits z = bits.length ∧ ∀ j, z ≤ j → bits[j]? ≠ some true) ∨
    ∃ s n, searchBitmap ctl e (e.offset + z * ctl.unit) ctl.unit =
        .ok (some (e.offset + s * ctl.unit, (n - s) * ctl.unit)) ∧
      NextRun bits z s n ∧ findNext true bits z = s ∧ findNext false bits s = n := by
  have hpos := h.wellFormed.unit_pos
  have hend := h.end_lt
  have hst : (max (e.offset + z * ctl.unit) e.offset - e.offset) / ctl.unit = z := by
    rw [Nat.max_eq_left (Nat.le_add_right _ _), Nat.add_sub_cancel_left, Nat.mul_div_cancel _ hpos]
  unfold FreeSpaceCache.searchBitmap
  rw [h.bitmap, hst, Nat.div_self hpos]
  obtain ⟨hc, hno⟩ | ⟨s, n, hc, hrun, hfound⟩ := searchBits_one bits.length h.le
  · exact .inl ⟨bind_eq_ok.mpr ⟨_, hc, rfl⟩, hno⟩
  · refine .inr ⟨s, n, ?_, hrun, hfound⟩
    have hlt := hrun.lt
    have hs : s * ctl.unit ≤ bits.length * ctl.unit :=
      Nat.mul_le_mul_right _ (hlt.le.trans hrun.le_length)
    have hn : (n - s) * ctl.unit ≤ bits.length * ctl.unit :=
      Nat.mul_le_mul_right _ ((Nat.sub_le _ _).trans hrun.le_length)
    have hoff : wrap64 (s * ctl.unit + e.offset) = e.offset + s * ctl.unit := by
      rw [Nat.add_comm]
      exact wrap64_of_lt (by omega)
    have hbytes : wrap64 ((n - s) * ctl.unit) = (n - s) * ctl.unit := wrap64_of_lt (by omega)
    refine bind_eq_ok.mpr ⟨_, hc, ?_⟩
    simp only
    rw [if_neg (by omega), hoff, hbytes]
    rfl

theorem Replaying.add {s n : ℕ} (hrun : NextRun bits z s n) :
    ∃ ctl', btrfsAddFreeSpace ctl (e.offset + s * ctl.unit) ((n - s) * ctl.unit) = .ok (0, ctl') ∧
      Moves ctl ctl' ∧ Replaying ctl' e bits n ∧
      (∀ a, ExtentAt ctl' a ↔ ExtentAt ctl a ∨ e.Covers ctl.unit a ∧ z ≤ (a - e.offset) / ctl.unit ∧
          (a - e.offset) / ctl.unit < n) ∧
      weight (inorder ctl'.freeSpaceOffset) ≤ weight (inorder ctl.freeSpaceOffset) + 1 := by
  have hpos := h.wellFormed.unit_pos
  have hend := h.end_lt
  have hcovers := fun a => @covers_bitmap ctl.unit e bits h.bitmap a
  have hlt := hrun.lt
  have hsplit : s * ctl.unit + (n - s) * ctl.unit = n * ctl.unit := by
    rw [← Nat.add_mul, Nat.add_sub_cancel' hlt.le]
  have hbound : n * ctl.unit ≤ bits.length * ctl.unit := Nat.mul_le_mul_right _ hrun.le_length
  have hbytes : 0 < (n - s) * ctl.unit := Nat.mul_pos (by omega) hpos
  -- the addresses of the run are what the bitmap has between `z` and `n`
  have hrange : ∀ a, (e.offset + s * ctl.unit ≤ a ∧
      a < e.offset + s * ctl.unit + (n - s) * ctl.unit) ↔
      e.Covers ctl.unit a ∧ z ≤ (a - e.offset) / ctl.unit ∧ (a - e.offset) / ctl.unit < n := by
    intro a
    rw [Nat.add_assoc, hsplit, index_range hpos, hcovers]
    constructor
    · rintro ⟨hle, hs, hn⟩
      exact ⟨⟨hle, hrun.set _ hs hn⟩, hrun.le.trans hs, hn⟩
    · rintro ⟨⟨hle, hset⟩, hz, hn⟩
      refine ⟨hle, ?_, hn⟩
      by_contra hs
      exact hrun.clear _ hz (Nat.lt_of_not_le hs) hset
  have hi : Apart ctl ⟨e.offset + s * ctl.unit, (n - s) * ctl.unit, none⟩ := by
    refine ⟨rfl, hbytes, ?_, fun x hx a ha hin => ?_⟩
    · simp only
      omega
    · obtain ⟨hcovered, hz, -⟩ := (hrange a).mp hin
      exact h.apart x hx a ha ⟨hcovered, hz⟩
  obtain ⟨ctl', hc, hmov, hextents, hweight⟩ := h.wellFormed.add hi
  have hextents' : ∀ a, ExtentAt ctl' a ↔ ExtentAt ctl a ∨ e.Covers ctl.unit a ∧
      z ≤ (a - e.offset) / ctl.unit ∧ (a - e.offset) / ctl.unit < n :=
    fun a => (hextents a).trans (or_congr_right (hrange a))
  refine ⟨ctl', hc, hmov, ⟨hmov.wellFormed, h.bitmap, ?_, hrun.le_length, ?_⟩, hextents', hweight⟩
  · rw [hmov.unit]
    exact h.end_lt
  · intro x hx a ha
    rw [hmov.unit] at ha ⊢
    rintro ⟨hcovered, hn⟩
    have hz : z ≤ (a - e.offset) / ctl.unit := by
      have := hrun.le
      omega
    by_cases hk : x.bitmap = none
    · obtain ⟨y, hy, -, hya⟩ | ⟨-, -, hlt'⟩ :=
        (hextents' a).mp ⟨x, hx, hk, by rw [hmov.unit]; exact ha⟩
      · exact h.apart y hy a hya ⟨hcovered, hz⟩
      · omega
    · exact h.apart x ((hmov.bitmaps x hk).mp hx) a ha ⟨hcovered, hz⟩

theorem Replaying.round {stop : ℕ} (rounds : ℕ) :
    (replayBitmap e stop (rounds + 1) ctl (e.offset + z * ctl.unit) = .ok ctl ∧
      findNext true bits z = bits.length ∧ ∀ j, z ≤ j → bits[j]? ≠ some true) ∨
    ∃ n ctl', z < n ∧ n ≤ bits.length ∧ n = findNext false bits (findNext true bits z) ∧
      Moves ctl ctl' ∧ Replaying ctl' e bits n ∧
      (∀ a, ExtentAt ctl' a ↔ ExtentAt ctl a ∨ e.Covers ctl.unit a ∧ z ≤ (a - e.offset) / ctl.unit ∧
          (a - e.offset) / ctl.unit < n) ∧
      weight (inorder ctl'.freeSpaceOffset) ≤ weight (inorder ctl.freeSpaceOffset) + 1 ∧
      replayBitmap e stop (rounds + 1) ctl (e.offset + z * ctl.unit) =
        if stop ≤ e.offset + n * ctl.unit then .ok ctl'
        else replayBitmap e stop rounds ctl' (e.offset + n * ctl'.unit) := by
  rw [replayBitmap]
  obtain ⟨hsearch, hno⟩ | ⟨s, n, hsearch, hrun, hs, hn⟩ := h.searchBitmap
  · exact .inl ⟨by rw [hsearch]; rfl, hno⟩
  · obtain ⟨ctl', hadd, hmov, hreplaced, hextents, hweight⟩ := h.add hrun
    have hend := hreplaced.end_lt
    have hbound : n * ctl'.unit ≤ bits.length * ctl'.unit := Nat.mul_le_mul_right _ hrun.le_length
    have hoff : wrap64 (e.offset + s * ctl.unit + (n - s) * ctl.unit) =
        e.offset + n * ctl.unit := by
      rw [Nat.add_assoc, ← Nat.add_mul, Nat.add_sub_cancel' hrun.lt.le]
      rw [hmov.unit] at hbound hend
      exact wrap64_of_lt (by omega)
    refine .inr ⟨n, ctl', hrun.le.trans_lt hrun.lt, hrun.le_length, by rw [hs, hn], hmov,
      hreplaced, hextents, hweight, ?_⟩
    rw [hsearch]
    change (btrfsAddFreeSpace ctl _ _ >>= _) = _
    rw [hadd]
    change (if stop ≤ wrap64 _ then Except.ok ctl' else replayBitmap e stop rounds ctl' (wrap64 _)) =
      _
    rw [hoff, hmov.unit]

theorem Replaying.all {stop : ℕ} (hs : stop = e.offset + bits.length * ctl.unit) {rounds : ℕ}
    (hrounds : bits.length < rounds + z) :
    ∃ ctl', replayBitmap e stop rounds ctl (e.offset + z * ctl.unit) = .ok ctl' ∧ Moves ctl ctl' ∧
      (∀ a, ExtentAt ctl' a ↔
        ExtentAt ctl a ∨ e.Covers ctl.unit a ∧ z ≤ (a - e.offset) / ctl.unit) ∧
      weight (inorder ctl'.freeSpaceOffset) ≤
        weight (inorder ctl.freeSpaceOffset) + (bits.length - z) := by
  induction rounds generalizing ctl z with
  | zero =>
    have := h.le
    omega
  | succ rounds ih =>
    have hidx := fun a => (@covers_bitmap ctl.unit e bits h.bitmap a).mp
    obtain ⟨hc, -, hno⟩ | ⟨n, ctl', hlt, hlen, -, hmov, hrpl, hextents, hweight, hc⟩ :=
      @Replaying.round _ _ _ _ h stop rounds
    · refine ⟨ctl, hc, ⟨h.wellFormed, rfl, rfl, fun _ _ => Iff.rfl⟩, fun a => ?_, by omega⟩
      exact (or_iff_left fun hcovered => hno _ hcovered.2 (hidx a hcovered.1).2).symm
    · rw [hc]
      by_cases hd : stop ≤ e.offset + n * ctl.unit
      · rw [if_pos hd]
        -- no bit is left behind the last run
        have hn : n = bits.length := by
          have hmul : bits.length * ctl.unit ≤ n * ctl.unit := by omega
          exact le_antisymm hlen (Nat.le_of_mul_le_mul_right hmul h.wellFormed.unit_pos)
        refine ⟨ctl', rfl, hmov, fun a => ?_, by omega⟩
        rw [hextents a, hn]
        refine or_congr_right (and_congr_right fun hcovered => and_iff_left ?_)
        exact lt_length_of_set (hidx a hcovered).2
      · rw [if_neg hd]
        obtain ⟨ctl₂, hr, hmov₂, hexts₂, hwt₂⟩ := ih hrpl (by rw [hmov.unit]; exact hs) (by omega)
        refine ⟨ctl₂, hr, hmov.trans hmov₂, fun a => ?_, by omega⟩
        rw [hexts₂ a, hextents a, hmov.unit, or_assoc, ← and_or_left]
        refine or_congr_right (and_congr_right fun _ => ?_)
        omega

theorem Replaying.first {stop : ℕ} (hs : stop ≤ e.offset) {rounds : ℕ} :
    ∃ ctl', replayBitmap e stop (rounds + 1) ctl (e.offset + z * ctl.unit) = .ok ctl' ∧
      Moves ctl ctl' ∧
      (∀ a, ExtentAt ctl' a ↔ ExtentAt ctl a ∨ e.Covers ctl.unit a ∧ z ≤ (a - e.offset) / ctl.unit ∧
          (a - e.offset) / ctl.unit < findNext false bits (findNext true bits z)) ∧
      weight (inorder ctl'.freeSpaceOffset) ≤
        weight (inorder ctl.freeSpaceOffset) + (bits.length - z) := by
  have hidx := fun a => (@covers_bitmap ctl.unit e bits h.bitmap a).mp
  obtain ⟨hc, -, hno⟩ | ⟨n, ctl', hlt, hlen, hn, hmov, -, hextents, hweight, hc⟩ :=
    @Replaying.round _ _ _ _ h stop rounds
  · refine ⟨ctl, hc, ⟨h.wellFormed, rfl, rfl, fun _ _ => Iff.rfl⟩, fun a => ?_, by omega⟩
    exact (or_iff_left fun hcovered => hno _ hcovered.2.1 (hidx a hcovered.1).2).symm
  · rw [if_pos (by omega)] at hc
    exact ⟨ctl', hc, hmov, hn ▸ hextents, by omega⟩

end

/-! ## The bound of a bitmap -/

def keptBits (sectorsize : ℕ) (bits : List Bool) : ℕ :=
  if sectorsize ≤ 16384 then bits.length else findNext false bits (findNext true bits 0)

/-- The span of a bitmap is computed in 32 bits: it is zero for the two largest sector sizes. -/
theorem WellFormed.bitmapSpan (h : WellFormed ctl) :
    bitmapSpan ctl = if ctl.sectorsize ≤ 16384 then bitsPerBitmap ctl.sectorsize * ctl.unit else 0 := by
  have hsec := h.sectorsize
  unfold FreeSpaceCache.bitmapSpan bitsPerBitmap
  rw [h.unit]
  simp only [List.mem_cons, List.not_mem_nil, or_false] at hsec
  obtain hs | hs | hs | hs | hs := hsec <;> rw [hs] <;> rfl

theorem WellFormed.replay (h : WellFormed ctl) (hmem : e ∈ inorder ctl.freeSpaceOffset)
    (hbitmap : e.bitmap = some bits) :
    ∃ ctl₁ ctl₂, unlinkFreeSpace ctl e = .ok ctl₁ ∧
      replayBitmap e (wrap64 (e.offset + FreeSpaceCache.bitmapSpan ctl)) (bits.length + 1) ctl₁ e.offset =
        .ok ctl₂ ∧
      WellFormed ctl₂ ∧ ctl₂.unit = ctl.unit ∧ ctl₂.sectorsize = ctl.sectorsize ∧
      (∀ x, x.bitmap ≠ none → (x ∈ inorder ctl₂.freeSpaceOffset ↔
        x ∈ inorder ctl.freeSpaceOffset ∧ x ≠ e)) ∧
      (∀ a, ExtentAt ctl₂ a ↔ ExtentAt ctl a ∨ e.Covers ctl.unit a ∧
        (a - e.offset) / ctl.unit < keptBits ctl.sectorsize bits) ∧
      weight (inorder ctl₂.freeSpaceOffset) < weight (inorder ctl.freeSpaceOffset) := by
  obtain ⟨ctl₁, hunlink, hwell, hp, hu, hsec⟩ := h.unlink hmem
  obtain ⟨hlen, -, hend⟩ := (h.entries e hmem).bitmap bits hbitmap
  have hnot := h.not_mem_unlink hp
  have hmem₁ : ∀ x, x ∈ inorder ctl₁.freeSpaceOffset ↔ x ∈ inorder ctl.freeSpaceOffset ∧ x ≠ e := by
    intro x
    rw [hp.mem_iff, List.mem_cons]
    constructor
    · intro hx
      refine ⟨.inr hx, ?_⟩
      rintro rfl
      exact hnot hx
    · rintro ⟨hx | hx, hne⟩
      · exact absurd hx hne
      · exact hx
  have hextent₁ : ∀ a, ExtentAt ctl₁ a ↔ ExtentAt ctl a := by
    intro a
    unfold ExtentAt
    rw [hu]
    constructor
    · rintro ⟨x, hx, hk, ha⟩
      exact ⟨x, ((hmem₁ x).mp hx).1, hk, ha⟩
    · rintro ⟨x, hx, hk, ha⟩
      refine ⟨x, (hmem₁ x).mpr ⟨hx, ?_⟩, hk, ha⟩
      rintro rfl
      rw [hbitmap] at hk
      cases hk
  have hweight : weight (inorder ctl.freeSpaceOffset) =
      1 + bits.length + weight (inorder ctl₁.freeSpaceOffset) := by
    rw [weight_perm hp, weight_cons, hbitmap, Option.getD_some]
  have hrpl : Replaying ctl₁ e bits 0 := by
    refine ⟨hwell, hbitmap, by rw [hu]; exact hend, Nat.zero_le _, fun x hx a ha => ?_⟩
    rw [hu] at ha ⊢
    obtain ⟨hx, hne⟩ := (hmem₁ x).mp hx
    exact fun hcovered => h.disjoint x hx e hmem hne a ha hcovered.1
  have hst : e.offset + 0 * ctl₁.unit = e.offset := by omega
  have hspan := h.bitmapSpan
  rw [← hlen] at hspan
  by_cases hsmall : ctl.sectorsize ≤ 16384
  · rw [if_pos hsmall] at hspan
    obtain ⟨ctl₂, hc, hmov, hextents, hweight₂⟩ := hrpl.all rfl (Nat.lt_succ_self _)
    rw [hst] at hc
    refine ⟨ctl₁, ctl₂, hunlink, ?_, hmov.wellFormed, hmov.unit.trans hu,
      hmov.sectorsize.trans hsec, fun x hx => (hmov.bitmaps x hx).trans (hmem₁ x), fun a => ?_,
      by omega⟩
    · rw [hspan, wrap64_of_lt hend, ← hu]
      exact hc
    · rw [hextents a, hextent₁ a, hu, keptBits, if_pos hsmall]
      refine or_congr_right (and_congr_right fun hcovered => iff_of_true (Nat.zero_le _) ?_)
      exact lt_length_of_set ((covers_bitmap hbitmap a).mp hcovered).2
  · rw [if_neg hsmall] at hspan
    have hle : wrap64 (e.offset + FreeSpaceCache.bitmapSpan ctl) ≤ e.offset := by
      rw [hspan]
      exact Nat.mod_le _ _
    obtain ⟨ctl₂, hc, hmov, hextents, hweight₂⟩ := @Replaying.first _ _ _ _ hrpl _ hle bits.length
    rw [hst] at hc
    refine ⟨ctl₁, ctl₂, hunlink, hc, hmov.wellFormed, hmov.unit.trans hu,
      hmov.sectorsize.trans hsec, fun x hx => (hmov.bitmaps x hx).trans (hmem₁ x), fun a => ?_,
      by omega⟩
    rw [hextents a, hextent₁ a, hu, keptBits, if_neg hsmall]
    exact or_congr_right (and_congr_right fun _ => and_iff_right (Nat.zero_le _))

/-! # The normalised tree -/

/-! ## The walk over the tree -/

def Separate (p e : FreeSpace) : Prop := p.offset + p.bytes < e.offset

instance : Trans Separate Separate Separate where
  trans hpe hef := by
    unfold Separate at *
    omega

theorem treeSize_eq (tree : RbNode FreeSpace) : treeSize tree = (inorder tree).length := by
  induction tree with
  | nil => rfl
  | node c l e r ihl ihr =>
    rw [treeSize, inorder_node, List.length_append, List.length_cons]
    omega

def Finds (tree : RbNode FreeSpace) : Scan → Prop
  | .done => (∀ e ∈ inorder tree, e.bitmap = none) ∧ (inorder tree).Pairwise Separate
  | .bitmap e => e ∈ inorder tree ∧ ∃ bits, e.bitmap = some bits
  | .adjacent prev e => prev ∈ inorder tree ∧ e ∈ inorder tree ∧ prev.bitmap = none ∧
      e.bitmap = none ∧ prev.offset + prev.bytes = e.offset

section

variable {ctl : FreeSpaceCtl} (h : WellFormed ctl)

include h

theorem WellFormed.end_le {p e : FreeSpace} (hp : p ∈ inorder ctl.freeSpaceOffset)
    (he : e ∈ inorder ctl.freeSpaceOffset) (hpacked : p.bitmap = none) (hek : e.bitmap = none)
    (hlt : KeyLt p e) : p.offset + p.bytes ≤ e.offset := by
  have hle := hlt.offset_le
  have hpos := ((h.entries e he).extent hek).1
  have hne : p ≠ e := by
    rintro rfl
    exact hlt.ne_key ⟨rfl, Iff.rfl⟩
  by_contra ho
  refine h.disjoint p hp e he hne e.offset ((covers_extent hpacked _).mpr ?_)
    ((covers_extent hek _).mpr ?_) <;> omega

theorem WellFormed.scanTree {rounds : ℕ} {seen : List FreeSpace} {node : Option (Loc FreeSpace)}
    (hno : match node with
      | none => inorder ctl.freeSpaceOffset = seen
      | some n => n.root = ctl.freeSpaceOffset ∧ n.before = seen)
    (hs : ∀ e ∈ seen, e.bitmap = none) (hchain : seen.IsChain Separate)
    (hrounds : (inorder ctl.freeSpaceOffset).length < seen.length + rounds) :
    ∃ scan, FreeSpaceCache.scanTree rounds seen.getLast? node = .ok scan ∧
      Finds ctl.freeSpaceOffset scan := by
  induction rounds generalizing seen node with
  | zero =>
    cases node with
    | none => simp [hno] at hrounds
    | some n =>
      obtain ⟨hr, hbefore⟩ := hno
      rw [← hr, Loc.inorder_root, hbefore, List.length_append] at hrounds
      omega
  | succ rounds ih =>
    cases node with
    | none =>
      refine ⟨.done, rfl, hno ▸ hs, ?_⟩
      rw [hno]
      exact List.isChain_iff_pairwise.mp hchain
    | some n =>
      obtain ⟨hr, hbefore⟩ := hno
      have horder := n.inorder_root
      rw [hr, hbefore] at horder
      have hmem := mem_of_root hr
      unfold FreeSpaceCache.scanTree
      by_cases hk : n.entry.bitmap.isSome
      · rw [if_pos hk]
        exact ⟨_, rfl, hmem, Option.isSome_iff_exists.mp hk⟩
      rw [if_neg hk]
      have hextent : n.entry.bitmap = none := by simpa using hk
      -- the walk goes on behind an extent with a gap before it
      have hne (hgap : ∀ p ∈ seen.getLast?, Separate p n.entry) :
          ∃ scan, FreeSpaceCache.scanTree rounds (some n.entry) (rbNext n) = .ok scan ∧
            Finds ctl.freeSpaceOffset scan := by
        have hl : (seen ++ [n.entry]).getLast? = some n.entry := List.getLast?_concat
        rw [← hl]
        refine ih ?_ ?_ ?_ ?_
        · have hsp := rbNext_spec n
          cases hn : rbNext n with
          | none =>
            rw [hn] at hsp
            rw [horder, hsp]
          | some n' =>
            rw [hn] at hsp
            exact ⟨hsp.1.trans hr, by rw [hsp.2.1, hbefore]⟩
        · intro e he
          obtain he | he := List.mem_append.mp he
          · exact hs e he
          · rw [List.mem_singleton.mp he]
            exact hextent
        · refine List.isChain_append.mpr ⟨hchain, List.isChain_singleton _, ?_⟩
          rintro p hp y ⟨⟩
          exact hgap p hp
        · rw [List.length_append, List.length_singleton]
          omega
      cases hpr : seen.getLast? with
      | none => exact hne (by simp [hpr])
      | some p =>
        have hp : p ∈ seen := List.mem_of_getLast? hpr
        have hpmem : p ∈ inorder ctl.freeSpaceOffset := by
          rw [horder]
          exact by simp [hp]
        have hkeyed := h.tree.keyed
        rw [horder] at hkeyed
        have hlt : KeyLt p n.entry := (List.pairwise_append.mp hkeyed).2.2 p hp _ (by simp)
        have hle := h.end_le hpmem hmem (hs p hp) hextent hlt
        have hend := wrap64_of_lt ((h.entries p hpmem).extent (hs p hp)).2
        simp only
        rw [hend]
        by_cases hadj : p.offset + p.bytes = n.entry.offset
        · rw [if_pos hadj]
          exact ⟨_, rfl, hpmem, hmem, hs p hp, hextent, hadj⟩
        · rw [if_neg hadj]
          refine hne ?_
          rw [hpr]
          rintro q ⟨⟩
          exact lt_of_le_of_ne hle hadj

theorem WellFormed.scanTree_first :
    ∃ scan, FreeSpaceCache.scanTree (treeSize ctl.freeSpaceOffset + 1) none
        (rbFirst ctl.freeSpaceOffset) = .ok scan ∧ Finds ctl.freeSpaceOffset scan := by
  refine @WellFormed.scanTree _ h _ [] _ ?_ nofun .nil ?_
  · have hs := rbFirst_spec ctl.freeSpaceOffset
    cases hfirst : rbFirst ctl.freeSpaceOffset with
    | none =>
      rw [hfirst] at hs
      rw [hs]
      rfl
    | some n =>
      rw [hfirst] at hs
      exact hs
  · rw [treeSize_eq]
    omega

end

/-! ## Two neighbours become one -/

variable {e : FreeSpace} {bits : List Bool}

theorem WellFormed.joinNeighbours {ctl : FreeSpaceCtl} (h : WellFormed ctl) {p : FreeSpace}
    (hp : p ∈ inorder ctl.freeSpaceOffset) (he : e ∈ inorder ctl.freeSpaceOffset)
    (hpacked : p.bitmap = none) (hek : e.bitmap = none) (hadj : p.offset + p.bytes = e.offset) :
    ∃ ctl₁ ctl₂ ctl₃, unlinkFreeSpace ctl p = .ok ctl₁ ∧ unlinkFreeSpace ctl₁ e = .ok ctl₂ ∧
      linkFreeSpace ctl₂ { p with bytes := wrap64 (p.bytes + e.bytes) } = .ok (0, ctl₃) ∧
      Moves ctl ctl₃ ∧ (∀ a, ExtentAt ctl₃ a ↔ ExtentAt ctl a) ∧
      weight (inorder ctl₃.freeSpaceOffset) < weight (inorder ctl.freeSpaceOffset) := by
  obtain ⟨ctl₁, hunlink₁, hwell, hpe, hu, hsec⟩ := h.unlink hp
  have hnot := h.not_mem_unlink hpe
  have hmem : ∀ x, x ∈ inorder ctl.freeSpaceOffset ↔ x = p ∨ x ∈ inorder ctl₁.freeSpaceOffset :=
    fun x => hpe.mem_iff.trans List.mem_cons
  obtain ⟨hppos, hpend⟩ := (h.entries p hp).extent hpacked
  have heend := ((h.entries e he).extent hek).2
  have he₁ : e ∈ inorder ctl₁.freeSpaceOffset := by
    obtain rfl | he := (hmem e).mp he
    · omega
    · exact he
  have hi : Apart ctl₁ p := by
    refine ⟨hpacked, hppos, hpend, fun x hx a ha hin => ?_⟩
    rw [hu] at ha
    have hne : x ≠ p := by
      rintro rfl
      exact hnot hx
    exact h.disjoint x ((hmem x).mpr (.inr hx)) p hp hne a ha ((covers_extent hpacked a).mpr hin)
  have hbytes : wrap64 (p.bytes + e.bytes) = p.bytes + e.bytes := wrap64_of_lt (by omega)
  rw [hbytes]
  obtain ⟨ctl₂, hunlink₂, habs, hp₂⟩ := @Apart.absorb _ _ _
    { p with bytes := p.bytes + e.bytes } hi hwell he₁ hek hpacked (by simp only; omega)
    (fun a => by simp only; omega)
  obtain ⟨ctl₃, hl, hmov, hextents, hweight⟩ := habs.apart.link habs.moves.wellFormed
  have hweight₁ := weight_perm hpe
  have hweight₂ := weight_perm hp₂
  rw [weight_cons] at hweight₁ hweight₂
  have hmov' := habs.moves.trans hmov
  refine ⟨ctl₁, ctl₂, ctl₃, hunlink₁, hunlink₂, hl, ⟨hmov'.wellFormed,
    hmov'.unit.trans hu, hmov'.sectorsize.trans hsec, fun x hx => ?_⟩, fun a => ?_, by omega⟩
  · rw [hmov'.bitmaps x hx, hmem]
    refine (or_iff_right ?_).symm
    rintro rfl
    exact hx hpacked
  · rw [hextents a, habs.ranges a]
    unfold ExtentAt
    rw [hu]
    constructor
    · rintro (⟨x, hx, hk, ha⟩ | ha)
      · exact ⟨x, (hmem x).mpr (.inr hx), hk, ha⟩
      · exact ⟨p, hp, hpacked, (covers_extent hpacked a).mpr ha⟩
    · rintro ⟨x, hx, hk, ha⟩
      obtain rfl | hx := (hmem x).mp hx
      · exact .inr ((covers_extent hpacked a).mp ha)
      · exact .inl ⟨x, hx, hk, ha⟩

/-! ## Whole runs -/

/-- What stays free: the extents, and the bits of the bitmaps that are replayed. -/
def KeptAt (ctl : FreeSpaceCtl) (a : ℕ) : Prop :=
  ExtentAt ctl a ∨ ∃ e ∈ inorder ctl.freeSpaceOffset, ∃ bits, e.bitmap = some bits ∧
    e.Covers ctl.unit a ∧ (a - e.offset) / ctl.unit < keptBits ctl.sectorsize bits

theorem KeptAt.congr {ctl ctl' : FreeSpaceCtl} (hmov : Moves ctl ctl')
    (hextents : ∀ a, ExtentAt ctl' a ↔ ExtentAt ctl a) (a : ℕ) : KeptAt ctl' a ↔ KeptAt ctl a := by
  unfold KeptAt
  rw [hextents a, hmov.unit, hmov.sectorsize]
  refine or_congr_right (exists_congr fun e => ?_)
  constructor
  · rintro ⟨he, bits, hb, hr⟩
    exact ⟨(hmov.bitmaps e (by simp [hb])).mp he, bits, hb, hr⟩
  · rintro ⟨he, bits, hb, hr⟩
    exact ⟨(hmov.bitmaps e (by simp [hb])).mpr he, bits, hb, hr⟩

theorem KeptAt.replay {ctl ctl' : FreeSpaceCtl} (hmem : e ∈ inorder ctl.freeSpaceOffset)
    (hbitmap : e.bitmap = some bits) (hu : ctl'.unit = ctl.unit)
    (hsec : ctl'.sectorsize = ctl.sectorsize)
    (hbms : ∀ x, x.bitmap ≠ none → (x ∈ inorder ctl'.freeSpaceOffset ↔ x ∈ inorder ctl.freeSpaceOffset ∧ x ≠ e))
    (hexts : ∀ a, ExtentAt ctl' a ↔ ExtentAt ctl a ∨ e.Covers ctl.unit a ∧ (a - e.offset) / ctl.unit < keptBits ctl.sectorsize bits)
    (a : ℕ) :
    KeptAt ctl' a ↔ KeptAt ctl a := by
  unfold KeptAt
  rw [hexts a, hu, hsec]
  constructor
  · rintro ((hextent | hcovered) | ⟨x, hx, bits', hb', hr⟩)
    · exact .inl hextent
    · exact .inr ⟨e, hmem, bits, hbitmap, hcovered⟩
    · exact .inr ⟨x, ((hbms x (by simp [hb'])).mp hx).1, bits', hb', hr⟩
  · rintro (hextent | ⟨x, hx, bits', hb', hr⟩)
    · exact .inl (.inl hextent)
    · by_cases hxe : x = e
      · subst hxe
        obtain rfl : bits = bits' := Option.some.inj (hbitmap.symm.trans hb')
        exact .inl (.inr hr)
      · exact .inr ⟨x, (hbms x (by simp [hb'])).mpr ⟨hx, hxe⟩, bits', hb', hr⟩

structure Settled (ctl ctl' : FreeSpaceCtl) : Prop where
  wellFormed : WellFormed ctl'
  unit : ctl'.unit = ctl.unit
  extents : ∀ e ∈ inorder ctl'.freeSpaceOffset, e.bitmap = none
  separate : (inorder ctl'.freeSpaceOffset).Pairwise Separate
  kept : ∀ a, ExtentAt ctl' a ↔ KeptAt ctl a

theorem WellFormed.mergeSpaceTreeLoop {ctl : FreeSpaceCtl} (h : WellFormed ctl) {rounds : ℕ}
    (hrounds : weight (inorder ctl.freeSpaceOffset) < rounds) :
    ∃ ctl', FreeSpaceCache.mergeSpaceTreeLoop rounds ctl = .ok ctl' ∧ Settled ctl ctl' := by
  induction rounds generalizing ctl with
  | zero => omega
  | succ rounds ih =>
    obtain ⟨scan, hscan, hfinds⟩ := h.scanTree_first
    cases scan with
    | done =>
      obtain ⟨hextents, hsep⟩ := hfinds
      refine ⟨ctl, bind_eq_ok.mpr ⟨_, hscan, rfl⟩, h, rfl, hextents, hsep, fun a => ?_⟩
      refine (or_iff_left ?_).symm
      rintro ⟨e, he, bits, hb, -⟩
      rw [hextents e he] at hb
      cases hb
    | bitmap e =>
      obtain ⟨hmem, bits, hbm⟩ := hfinds
      obtain ⟨ctl₁, ctl₂, hunl, hreplay, hwell, hu, hsec, hbms, hextents, hwt⟩ := h.replay hmem hbm
      obtain ⟨ctl', hl, hset⟩ := ih hwell (by omega)
      refine ⟨ctl', ?_, hset.wellFormed, hset.unit.trans hu, hset.extents,
        hset.separate, fun a => ?_⟩
      · refine bind_eq_ok.mpr ⟨_, hscan, bind_eq_ok.mpr ⟨_, hunl, ?_⟩⟩
        rw [hbm]
        exact bind_eq_ok.mpr ⟨_, hreplay, hl⟩
      · rw [hset.kept a]
        exact KeptAt.replay hmem hbm hu hsec hbms hextents a
    | adjacent p e =>
      obtain ⟨hp, he, hpacked, hek, hadj⟩ := hfinds
      obtain ⟨ctl₁, ctl₂, ctl₃, hunlink₁, hunlink₂, hli, hmov, hextents, hwt⟩ :=
        h.joinNeighbours hp he hpacked hek hadj
      obtain ⟨ctl', hl, hset⟩ := ih hmov.wellFormed (by omega)
      refine ⟨ctl', ?_, hset.wellFormed, hset.unit.trans hmov.unit, hset.extents,
        hset.separate, fun a => ?_⟩
      · exact bind_eq_ok.mpr ⟨_, hscan, bind_eq_ok.mpr ⟨_, hunlink₁, bind_eq_ok.mpr ⟨_, hunlink₂,
          bind_eq_ok.mpr ⟨_, hli, hl⟩⟩⟩⟩
      · rw [hset.kept a]
        exact KeptAt.congr hmov hextents a

/-! ## The normal form -/

def FreeAt (ctl : FreeSpaceCtl) (a : ℕ) : Prop :=
  ∃ e ∈ inorder ctl.freeSpaceOffset, e.Covers ctl.unit a

/-- Extents with gaps between them for all that was free, and the counters of them. -/
structure Normalised (ctl ctl' : FreeSpaceCtl) : Prop where
  extents : ∀ e ∈ inorder ctl'.freeSpaceOffset, e.bitmap = none
  separate : (inorder ctl'.freeSpaceOffset).Pairwise Separate
  union : ∀ a, FreeAt ctl' a ↔ FreeAt ctl a
  freeSpace : ctl'.freeSpace = ((inorder ctl'.freeSpaceOffset).map FreeSpace.bytes).sum
  freeExtents : ctl'.freeExtents = (inorder ctl'.freeSpaceOffset).length

def Consecutive (bits : List Bool) : Prop :=
  ∀ i j k : ℕ, i < j → j < k → bits[i]? = some true → bits[k]? = some true → bits[j]? = some true

theorem consecutive_iff : Consecutive bits ↔
      ∀ j, bits[j]? = some true → j < findNext false bits (findNext true bits 0) := by
  obtain ⟨-, -, hno⟩ | ⟨s, n, -, hrun, hs, hn⟩ := searchBits_one 0 (Nat.zero_le bits.length)
  · refine iff_of_true (fun i j k _ _ hi => ?_) fun j hj => ?_
    · exact absurd hi (hno i (Nat.zero_le i))
    · exact absurd hj (hno j (Nat.zero_le j))
  · rw [hs, hn]
    constructor
    · intro hc j hj
      by_contra hle
      have hne : n ≠ j := by
        rintro rfl
        exact hrun.stop hj
      exact hrun.stop (hc s n j hrun.lt (by omega) (hrun.set s le_rfl hrun.lt) hj)
    · intro hbefore i j k hij hjk hi hk
      have hsi : s ≤ i := by
        by_contra hlt
        exact hrun.clear i (Nat.zero_le i) (by omega) hi
      exact hrun.set j (by omega) (hjk.trans (hbefore k hk))

theorem sum_bytes_le {entries : List FreeSpace} {lo hi : ℕ} (hsep : entries.Pairwise Separate)
    (hlo : ∀ e ∈ entries, lo ≤ e.offset) (hhi : ∀ e ∈ entries, e.offset + e.bytes ≤ hi)
    (hle : lo ≤ hi) : lo + (entries.map FreeSpace.bytes).sum ≤ hi := by
  induction entries generalizing lo with
  | nil => simpa using hle
  | cons e entries ih =>
    obtain ⟨hfirst, hsep⟩ := List.pairwise_cons.mp hsep
    have hst := hlo e (by simp)
    have hend := hhi e (by simp)
    have hr := ih hsep (fun x hx => (hfirst x hx).le) (List.forall_mem_cons.mp hhi).2 hend
    rw [List.map_cons, List.sum_cons]
    omega

section

variable {ctl ctl' : FreeSpaceCtl}

theorem Settled.freeAt_iff (hset : Settled ctl ctl') (a : ℕ) : FreeAt ctl' a ↔ KeptAt ctl a := by
  rw [← hset.kept a]
  exact exists_congr fun e => and_congr_right fun he => (and_iff_right (hset.extents e he)).symm

theorem Settled.normalised_iff (hset : Settled ctl ctl') :
    Normalised ctl ctl' ↔ ∀ a, FreeAt ctl a → KeptAt ctl a := by
  constructor
  · intro hnormal a ha
    exact (hset.freeAt_iff a).mp ((hnormal.union a).mpr ha)
  · intro hk
    refine ⟨hset.extents, hset.separate, fun a => ?_, ?_, hset.wellFormed.freeExtents⟩
    · rw [hset.freeAt_iff a]
      refine ⟨?_, hk a⟩
      rintro (⟨e, he, -, ha⟩ | ⟨e, he, -, -, ha, -⟩)
      · exact ⟨e, he, ha⟩
      · exact ⟨e, he, ha⟩
    · rw [hset.wellFormed.freeSpace]
      have hsum := @sum_bytes_le _ 0 (2 ^ 64 - 1) hset.separate (fun _ _ => Nat.zero_le _)
        (fun e he => by
          have := ((hset.wellFormed.entries e he).extent (hset.extents e he)).2
          omega) (Nat.zero_le _)
      exact wrap64_of_lt (by omega)

/-- Nothing is lost if the bound of the bitmaps is right or the first run is all they have. -/
theorem WellFormed.kept_iff (h : WellFormed ctl) :
    (∀ a, FreeAt ctl a → KeptAt ctl a) ↔ ctl.sectorsize ≤ 16384 ∨
      ∀ e ∈ inorder ctl.freeSpaceOffset, ∀ bits, e.bitmap = some bits → Consecutive bits := by
  by_cases hsmall : ctl.sectorsize ≤ 16384
  · refine iff_of_true ?_ (.inl hsmall)
    rintro a ⟨e, he, ha⟩
    cases hbitmap : e.bitmap with
    | none => exact .inl ⟨e, he, hbitmap, ha⟩
    | some bits =>
      refine .inr ⟨e, he, bits, hbitmap, ha, ?_⟩
      rw [keptBits, if_pos hsmall]
      exact lt_length_of_set ((covers_bitmap hbitmap a).mp ha).2
  · rw [or_iff_right hsmall]
    constructor
    · intro hke e he bits hbitmap
      refine consecutive_iff.mpr fun j hj => ?_
      have hidx : (e.offset + j * ctl.unit - e.offset) / ctl.unit = j := by
        simp [Nat.mul_div_cancel _ h.unit_pos]
      have ha : e.Covers ctl.unit (e.offset + j * ctl.unit) :=
        (covers_bitmap hbitmap _).mpr ⟨Nat.le_add_right _ _, by rw [hidx]; exact hj⟩
      -- no other entry has the address of the bit
      have hs : ∀ x ∈ inorder ctl.freeSpaceOffset,
          x.Covers ctl.unit (e.offset + j * ctl.unit) → x = e := by
        intro x hx hxa
        by_contra hne
        exact h.disjoint x hx e he hne _ hxa ha
      obtain ⟨x, hx, hk, hxa⟩ | ⟨x, hx, bits', hb', hxa, hlt⟩ := hke _ ⟨e, he, ha⟩
      · rw [hs x hx hxa, hbitmap] at hk
        cases hk
      · obtain rfl := hs x hx hxa
        obtain rfl : bits = bits' := Option.some.inj (hbitmap.symm.trans hb')
        rw [hidx, keptBits, if_neg hsmall] at hlt
        exact hlt
    · rintro hc a ⟨e, he, ha⟩
      cases hbitmap : e.bitmap with
      | none => exact .inl ⟨e, he, hbitmap, ha⟩
      | some bits =>
        refine .inr ⟨e, he, bits, hbitmap, ha, ?_⟩
        rw [keptBits, if_neg hsmall]
        exact consecutive_iff.mp (hc e he bits hbitmap) _ ((covers_bitmap hbitmap a).mp ha).2

theorem WellFormed.normalises_iff (h : WellFormed ctl) :
    (∃ ctl', mergeSpaceTree ctl = .ok ctl' ∧ Normalised ctl ctl') ↔ ctl.sectorsize ≤ 16384 ∨
      ∀ e ∈ inorder ctl.freeSpaceOffset, ∀ bits, e.bitmap = some bits → Consecutive bits := by
  have hrounds : weight (inorder ctl.freeSpaceOffset) < treeWeight ctl.freeSpaceOffset + 1 := by
    rw [treeWeight_eq]
    omega
  obtain ⟨ctl', hc, hset⟩ := h.mergeSpaceTreeLoop hrounds
  rw [← h.kept_iff, ← hset.normalised_iff]
  constructor
  · rintro ⟨ctl'', hc', hnormal⟩
    obtain rfl : ctl' = ctl'' := Except.ok.inj (hc.symm.trans hc')
    exact hnormal
  · exact fun hnormal => ⟨ctl', hc, hnormal⟩

end

/-- `merge_space_tree` normalises a tree with small sectors. With 32 KiB and 64 KiB sectors the
32-bit span of a bitmap wraps to zero and only its first run is replayed. -/
theorem mergeSpaceTree_normalises_iff (ctl : FreeSpaceCtl) (h : WellFormed ctl) :
    (∃ ctl', mergeSpaceTree ctl = .ok ctl' ∧ Normalised ctl ctl') ↔ ctl.sectorsize ≤ 16384 ∨
      ∀ e ∈ inorder ctl.freeSpaceOffset, ∀ bits, e.bitmap = some bits → Consecutive bits :=
  h.normalises_iff

def splitBitmap (sectorsize : ℕ) : FreeSpaceCtl where
  freeSpaceOffset := .node .black .nil
    ⟨0, 2 * sectorsize, some ([true, false, true] ++ List.replicate (sectorsize * 8 - 3) false)⟩ .nil
  freeSpace := 2 * sectorsize
  freeExtents := 1
  unit := sectorsize
  sectorsize := sectorsize

theorem splitBitmap_wellFormed {sectorsize : ℕ}
    (h : sectorsize ∈ [4096, 8192, 16384, 32768, 65536]) : WellFormed (splitBitmap sectorsize) := by
  have hsizes := h
  simp only [List.mem_cons, List.not_mem_nil, or_false] at hsizes
  have hle : sectorsize ≤ 65536 := by omega
  have hsquare : sectorsize * 8 * sectorsize ≤ 65536 * 8 * 65536 :=
    Nat.mul_le_mul (Nat.mul_le_mul_right 8 hle) hle
  refine ⟨h, rfl, ⟨⟨1, .black .nil .nil⟩, List.pairwise_singleton _ _⟩, ?_, ?_, ?_, rfl⟩
  · intro e he
    obtain rfl := List.mem_singleton.mp he
    refine ⟨nofun, ?_⟩
    rintro bits ⟨⟩
    have hlen : ([true, false, true] ++ List.replicate (sectorsize * 8 - 3) false).length =
        sectorsize * 8 := by
      rw [List.length_append, List.length_replicate]
      simp only [List.length_cons, List.length_nil]
      omega
    refine ⟨hlen, ?_, ?_⟩
    · rw [List.count_append, List.count_replicate]
      rfl
    · rw [hlen]
      change 0 + sectorsize * 8 * sectorsize < _
      omega
  · intro e he e' he' hne
    exact absurd ((List.mem_singleton.mp he).trans (List.mem_singleton.mp he').symm) hne
  · change 2 * sectorsize = wrap64 (2 * sectorsize + 0)
    exact (wrap64_of_lt (by omega)).symm

theorem mergeSpaceTree_normalises_splitBitmap : WellFormed (splitBitmap 4096) ∧
      ∃ ctl', mergeSpaceTree (splitBitmap 4096) = .ok ctl' ∧ Normalised (splitBitmap 4096) ctl' :=
  ⟨splitBitmap_wellFormed (by decide),
    (mergeSpaceTree_normalises_iff _ (splitBitmap_wellFormed (by decide))).mpr (.inl (by decide))⟩

theorem mergeSpaceTree_loses_second_run : WellFormed (splitBitmap 65536) ∧
      ¬ ∃ ctl', mergeSpaceTree (splitBitmap 65536) = .ok ctl' ∧
        Normalised (splitBitmap 65536) ctl' := by
  have hwell : WellFormed (splitBitmap 65536) := splitBitmap_wellFormed (by decide)
  refine ⟨hwell, fun hnormal => ?_⟩
  obtain hsmall | hc := hwell.normalises_iff.mp hnormal
  · exact absurd hsmall (by decide)
  · have hbit := hc _ (List.mem_singleton.mpr rfl) _ rfl 0 1 2 (by decide) (by decide) rfl rfl
    cases hbit

end Btrfs.FreeSpaceCache
