import Btrfs.Model.DataTransfer
import Btrfs.Verification.Volumes.Profile

/-! # Bytes on devices -/

namespace Btrfs.Volumes

open Raid56

variable {len offset d x : ℕ} {devs devs' : Devices} {map : MapLookup} {profile : Profile}
  {indices : List ℕ}

/-! ## One device -/

/-- The byte at a place of a device, if it can be read. -/
def byteAt (devs : Devices) (loc : ℕ × ℕ) : Option Byte :=
  if 0 < (devs loc.1).fd ∧ loc.2 < (devs loc.1).size then some ((devs loc.1).data loc.2) else none

def Device.Fits (dev : Device) (len offset : ℕ) : Prop := 0 < dev.fd ∧ offset + len ≤ dev.size

instance (dev : Device) (len offset : ℕ) : Decidable (dev.Fits len offset) :=
  inferInstanceAs (Decidable (_ ∧ _))

variable {dev : Device} {i j y : ℕ}

theorem Device.Fits.moved_eq (h : dev.Fits len offset) : dev.moved len offset = len := by
  obtain ⟨hfd, hs⟩ := h
  have hmin : min len (dev.size - offset) = len := by omega
  rw [Device.moved, if_neg (not_le.mpr hfd), hmin]

theorem Device.fits_of_moved (hlen : 0 < len) (h : dev.moved len offset = len) :
    dev.Fits len offset := by
  unfold Device.moved at h
  split at h
  · omega
  · refine ⟨by omega, ?_⟩
    omega

def store (devs : Devices) (d offset len : ℕ) (data : ℕ → Byte) : Devices :=
  Function.update devs d { devs d with data := copyBytes (devs d).data offset data 0 len }

theorem copyBytes_start (dst : ℕ → Byte) (dstOff : ℕ) (src : ℕ → Byte) (srcOff len : ℕ) :
    copyBytes dst dstOff src srcOff len = copyBytes dst dstOff (fun k => src (srcOff + k)) 0 len := by
  funext x
  simp [copyBytes]

theorem Device.Fits.pwrite_eq (h : (devs d).Fits len offset) (buf : ℕ → Byte) (start : ℕ) :
    pwrite (devs d) buf start len offset =
      ((len : ℤ), store devs d offset len (fun k => buf (start + k)) d) := by
  simp only [pwrite, h.moved_eq, store, Function.update_self, Int.toNat_natCast]
  rw [copyBytes_start]

def SameShape (devs devs' : Devices) : Prop :=
  ∀ d, (devs' d).devid = (devs d).devid ∧ (devs' d).fd = (devs d).fd ∧
    (devs' d).size = (devs d).size

theorem SameShape.trans {devs'' : Devices} (h : SameShape devs devs') (h' : SameShape devs' devs'') :
    SameShape devs devs'' := by
  intro d
  obtain ⟨h1, h2, h3⟩ := h d
  obtain ⟨h1', h2', h3'⟩ := h' d
  exact ⟨h1'.trans h1, h2'.trans h2, h3'.trans h3⟩

theorem SameShape.fits_iff (h : SameShape devs devs') :
    (devs' d).Fits len offset ↔ (devs d).Fits len offset := by
  obtain ⟨-, hfd, hs⟩ := h d
  rw [Device.Fits, Device.Fits, hfd, hs]

theorem sameShape_store (devs : Devices) (d offset len : ℕ) (data : ℕ → Byte) :
    SameShape devs (store devs d offset len data) := by
  intro d'
  by_cases hd : d' = d
  · subst hd
    simp [store]
  · simp [store, hd]

theorem byteAt_store (h : (devs d).Fits len offset) (data : ℕ → Byte) (loc : ℕ × ℕ) :
    byteAt (store devs d offset len data) loc =
      if loc.1 = d ∧ offset ≤ loc.2 ∧ loc.2 < offset + len then some (data (loc.2 - offset))
      else byteAt devs loc := by
  obtain ⟨hfd, hs⟩ := h
  obtain ⟨d', x⟩ := loc
  by_cases hd : d' = d
  · subst hd
    by_cases hx : offset ≤ x ∧ x < offset + len
    · have hin : x < (devs d').size := by omega
      simp [byteAt, store, copyBytes, hx, hfd, hin]
    · simp [byteAt, store, copyBytes, hx]
  · simp [byteAt, store, hd]

/-! ## The stripes of a chunk -/

def MapLookup.stripe (map : MapLookup) (i : ℕ) : BioStripe := map.stripes.getD i ⟨0, 0⟩

def MapLookup.locate (map : MapLookup) (i x : ℕ) : ℕ × ℕ :=
  ((map.stripe i).dev, (map.stripe i).physical + x)

/-- The length of the range that each stripe of a chunk occupies on its device. -/
def MapLookup.stripeSize (map : MapLookup) (profile : Profile) : ℕ :=
  map.ce.size / profile.columns map.numStripes

/-- An accepted chunk of whole rows whose stripes occupy disjoint device ranges. -/
structure Placed (map : MapLookup) (profile : Profile) : Prop extends Accepted map profile where
  rows : map.stripeLen * profile.columns map.numStripes ∣ map.ce.size
  disjoint : ∀ i j, i < map.numStripes → j < map.numStripes → i ≠ j →
    (map.stripe i).dev = (map.stripe j).dev →
    (map.stripe i).physical + map.stripeSize profile ≤ (map.stripe j).physical ∨
      (map.stripe j).physical + map.stripeSize profile ≤ (map.stripe i).physical

theorem Placed.locate_inj (h : Placed map profile) (hi : i < map.numStripes)
    (hj : j < map.numStripes) (hx : x < map.stripeSize profile) (hy : y < map.stripeSize profile)
    (heq : map.locate i x = map.locate j y) : i = j ∧ x = y := by
  obtain ⟨hdev, hphys⟩ := Prod.mk.inj heq
  by_cases hij : i = j
  · subst hij
    exact ⟨rfl, by omega⟩
  · rcases h.disjoint i j hi hj hij hdev with hle | hle <;> omega

theorem Placed.depth_lt (h : Placed map profile) {a : ℕ} (ha : a < map.ce.size) :
    (layout h.toAccepted).depth a < map.stripeSize profile := by
  obtain ⟨rows, hr⟩ := h.rows
  have hs : map.stripeSize profile = map.stripeLen * rows := by
    have hpos := (layout h.toAccepted).columns_pos
    rw [MapLookup.stripeSize, hr, Nat.mul_comm map.stripeLen, Nat.mul_assoc]
    exact Nat.mul_div_cancel_left _ hpos
  rw [hs]
  apply (layout h.toAccepted).depth_lt
  rw [hr] at ha
  exact ha

/-! ## Writes to several stripes -/

/-- Each of the stripes gets its data at the same offset. -/
def storeStripes (map : MapLookup) (x len : ℕ) (data : ℕ → ℕ → Byte) :
    List ℕ → Devices → Devices
  | [], devs => devs
  | i :: rest, devs => storeStripes map x len data rest
      (store devs (map.stripe i).dev ((map.stripe i).physical + x) len (data i))

theorem sameShape_storeStripes (map : MapLookup) (x len : ℕ) (data : ℕ → ℕ → Byte)
    (indices : List ℕ) (devs : Devices) :
    SameShape devs (storeStripes map x len data indices devs) := by
  induction indices generalizing devs with
  | nil => exact fun d => ⟨rfl, rfl, rfl⟩
  | cons i rest ih => exact (sameShape_store _ _ _ _ _).trans (ih _)

def StripesFit (map : MapLookup) (devs : Devices) (x len : ℕ) (indices : List ℕ) : Prop :=
  ∀ i ∈ indices, (devs (map.stripe i).dev).Fits len ((map.stripe i).physical + x)

theorem Placed.byteAt_storeStripes (h : Placed map profile) (hx : x + len ≤ map.stripeSize profile)
    (data : ℕ → ℕ → Byte) (hnd : indices.Nodup) (hlt : ∀ i ∈ indices, i < map.numStripes)
    (hfit : StripesFit map devs x len indices) (hj : j < map.numStripes)
    (hy : y < map.stripeSize profile) :
    byteAt (storeStripes map x len data indices devs) (map.locate j y) =
      if j ∈ indices ∧ x ≤ y ∧ y < x + len then some (data j (y - x))
      else byteAt devs (map.locate j y) := by
  induction indices generalizing devs with
  | nil => simp [storeStripes]
  | cons i rest ih =>
    obtain ⟨hi, hr⟩ := List.nodup_cons.mp hnd
    have hiFit := hfit i List.mem_cons_self
    have hshape := sameShape_store devs (map.stripe i).dev ((map.stripe i).physical + x) len
      (data i)
    have hrestFit : StripesFit map (store devs (map.stripe i).dev
        ((map.stripe i).physical + x) len (data i)) x len rest := by
      intro k hk
      exact hshape.fits_iff.mpr (hfit k (List.mem_cons_of_mem i hk))
    rw [storeStripes, ih hr (fun k hk => hlt k (List.mem_cons_of_mem i hk)) hrestFit,
      byteAt_store hiFit]
    by_cases hji : j = i
    · -- the stripe written first is not written again
      subst hji
      have hdiff : (map.locate j y).2 - ((map.stripe j).physical + x) = y - x := by
        rw [MapLookup.locate]
        omega
      have hiff : ((map.stripe j).physical + x ≤ (map.locate j y).2 ∧
          (map.locate j y).2 < (map.stripe j).physical + x + len) ↔ x ≤ y ∧ y < x + len := by
        rw [MapLookup.locate]
        omega
      simp only [hi, hiff, hdiff, List.mem_cons_self, false_and, if_false]
      simp [MapLookup.locate]
    · have hout : ¬ ((map.locate j y).1 = (map.stripe i).dev ∧
          (map.stripe i).physical + x ≤ (map.locate j y).2 ∧
          (map.locate j y).2 < (map.stripe i).physical + x + len) := by
        rintro ⟨hdev, hlow, hhigh⟩
        have hz : (map.locate j y).2 - (map.stripe i).physical < map.stripeSize profile := by omega
        have heq : map.locate j y =
            map.locate i ((map.locate j y).2 - (map.stripe i).physical) := by
          refine Prod.ext hdev ?_
          change (map.locate j y).2 = (map.stripe i).physical + _
          omega
        exact hji (h.locate_inj hj (hlt i (by simp)) hy hz heq).1
      rw [if_neg hout]
      simp [hji]

theorem byteAt_storeStripes_of_outside (data : ℕ → ℕ → Byte) (indices : List ℕ)
    (hfit : StripesFit map devs x len indices) {loc : ℕ × ℕ}
    (hout : ∀ i ∈ indices, ¬ (loc.1 = (map.stripe i).dev ∧ (map.stripe i).physical + x ≤ loc.2 ∧
      loc.2 < (map.stripe i).physical + x + len)) :
    byteAt (storeStripes map x len data indices devs) loc = byteAt devs loc := by
  induction indices generalizing devs with
  | nil => rfl
  | cons i rest ih =>
    have hrestFit : StripesFit map (store devs (map.stripe i).dev
        ((map.stripe i).physical + x) len (data i)) x len rest := by
      intro k hk
      exact (sameShape_store _ _ _ _ _).fits_iff.mpr (hfit k (List.mem_cons_of_mem i hk))
    rw [storeStripes, ih hrestFit fun k hk => hout k (List.mem_cons_of_mem i hk),
      byteAt_store (hfit i (by simp)), if_neg (hout i (by simp))]

/-- The stripe at an offset, as `__btrfs_map_block` returns it. -/
def MapLookup.stripeAt (map : MapLookup) (x i : ℕ) : BioStripe :=
  ⟨(map.stripe i).dev, (map.stripe i).physical + x⟩

theorem StripesFit.tail {rest : List ℕ} (h : StripesFit map devs x len (i :: rest))
    (data : ℕ → Byte) :
    StripesFit map (store devs (map.stripe i).dev ((map.stripe i).physical + x) len data) x len
      rest := by
  intro k hk
  exact (sameShape_store _ _ _ _ _).fits_iff.mpr (h k (List.mem_cons_of_mem i hk))

theorem update_eq_store {data : ℕ → Byte} :
    Function.update devs d (store devs d offset len data d) = store devs d offset len data := by
  simp [store]

theorem writeCopies_of_fit (map : MapLookup) (buf : ℕ → Byte) (total x len : ℕ)
    (h : StripesFit map devs x len indices) :
    writeCopies buf total len (indices.map (map.stripeAt x)) devs =
      (0, storeStripes map x len (fun _ k => buf (total + k)) indices devs) := by
  induction indices generalizing devs with
  | nil => rfl
  | cons i rest ih =>
    have hfit := h i (by simp)
    have hopen : ¬ (devs (map.stripe i).dev).fd ≤ 0 := not_le.mpr hfit.1
    simp only [List.map_cons, writeCopies, MapLookup.stripeAt, hopen,
      hfit.pwrite_eq buf total, ne_eq, update_eq_store]
    exact ih (h.tail _)

theorem fit_of_writeCopies (map : MapLookup) (buf : ℕ → Byte) {total : ℕ} (hlen : 0 < len)
    (h : writeCopies buf total len (indices.map (map.stripeAt x)) devs = (0, devs')) :
    StripesFit map devs x len indices := by
  induction indices generalizing devs with
  | nil => intro i hi; cases hi
  | cons i rest ih =>
    simp only [List.map_cons, writeCopies, MapLookup.stripeAt] at h
    split at h
    · have heio : -eio = 0 := congrArg Prod.fst h
      exact absurd heio (by decide)
    · split at h
      · have hret := congrArg Prod.fst h
        simp only [eio] at hret
        split at hret <;> omega
      · rename_i hmoved
        have hfit : (devs (map.stripe i).dev).Fits len ((map.stripe i).physical + x) :=
          Device.fits_of_moved hlen (not_not.mp hmoved)
        rw [hfit.pwrite_eq buf total, update_eq_store] at h
        have hr := ih h
        exact List.forall_mem_cons.mpr ⟨hfit,
          fun k hk => (sameShape_store _ _ _ _ _).fits_iff.mp (hr k hk)⟩

theorem writeBuffers_of_fit (map : MapLookup) (data : ℕ → ℕ → Byte) (x len : ℕ)
    (h : StripesFit map devs x len indices) :
    writeBuffers len (indices.map fun i => (data i, map.stripeAt x i)) devs =
      (0, storeStripes map x len data indices devs) := by
  induction indices generalizing devs with
  | nil => rfl
  | cons i rest ih =>
    have hfit := h i (by simp)
    have hnonneg : ¬ (len : ℤ) < 0 := by omega
    simp only [List.map_cons, writeBuffers, writeExtentToDisk, MapLookup.stripeAt,
      hfit.pwrite_eq (data i) 0, Nat.zero_add, hnonneg, ne_eq, not_true_eq_false,
      update_eq_store]
    exact ih (h.tail _)

theorem writeExtentToDisk_not_fit (data : ℕ → Byte) {stripe : BioStripe} (hlen : 0 < len)
    (h : ¬ (devs stripe.dev).Fits len stripe.physical) :
    (writeExtentToDisk devs data len stripe).1 < 0 := by
  have hmoved : (devs stripe.dev).moved len stripe.physical ≠ len :=
    fun hmoved => h (Device.fits_of_moved hlen hmoved)
  simp only [writeExtentToDisk, pwrite]
  by_cases hneg : (devs stripe.dev).moved len stripe.physical < 0
  · simp [hneg]
  · simp only [hneg, hmoved, ne_eq]
    exact Int.neg_neg_of_pos (by decide)

theorem fit_of_writeBuffers (map : MapLookup) (data : ℕ → ℕ → Byte) (hlen : 0 < len)
    (h : writeBuffers len (indices.map fun i => (data i, map.stripeAt x i)) devs = (0, devs')) :
    StripesFit map devs x len indices := by
  induction indices generalizing devs with
  | nil => intro i hi; cases hi
  | cons i rest ih =>
    by_cases hfit : (devs (map.stripe i).dev).Fits len ((map.stripe i).physical + x)
    · simp only [List.map_cons, writeBuffers, writeExtentToDisk, MapLookup.stripeAt,
        hfit.pwrite_eq (data i) 0, ne_eq,
        update_eq_store] at h
      have hr := ih h
      exact List.forall_mem_cons.mpr ⟨hfit,
        fun k hk => (sameShape_store _ _ _ _ _).fits_iff.mp (hr k hk)⟩
    · have hneg : (writeExtentToDisk devs (data i) len (map.stripeAt x i)).1 < 0 :=
        writeExtentToDisk_not_fit (data i) hlen hfit
      simp only [List.map_cons, writeBuffers, hneg, if_true] at h
      have hz := congrArg Prod.fst h
      exact absurd hneg (by rw [hz]; exact lt_irrefl 0)

end Btrfs.Volumes
