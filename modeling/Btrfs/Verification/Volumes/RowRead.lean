import Btrfs.Verification.Volumes.Reading

/-! # The buffers of a row before it is written -/

namespace Btrfs.Volumes

open Raid56

variable {info : FsInfo} {map : MapLookup} {profile : Profile} (h : InTree info map profile)

/-- The byte that the read-modify-write of a row takes for an address it does not overwrite. For
most stripes this is the byte of the address. A stripe whose logical address is that of the
super block, and every stripe while restoring, is read from the same offset of device 1. -/
def rmwByte (h : InTree info map profile) (devs : Devices) (x : ℕ) : Option Byte :=
  if info.unmapped (map.ce.start + x / map.stripeLen * map.stripeLen) then
    (info.firstDevice devs).bind fun d => byteAt devs (d, map.ce.start + x)
  else chunkByte h.toAccepted devs x

/-- The byte of an address in the buffers of its row, when `t` bytes from `a` on are written. -/
def newByte (h : InTree info map profile) (devs : Devices) (a t : ℕ) (data : ℕ → Byte) (x : ℕ) :
    Byte :=
  if a ≤ x ∧ x < a + t then data (x - a) else (rmwByte h devs x).getD 0

/-- A data stripe of the chunk, from its first address on. -/
def IsUnit (map : MapLookup) (s : ℕ) : Prop := map.stripeLen ∣ s ∧ s + map.stripeLen ≤ map.ce.size

/-- A loop that reads everything at once from one place. -/
theorem readWholeEbLoop_once {devs : Devices} {start mirror rounds len pos : ℕ} {dev : Device}
    (hrounds : 0 < rounds) (hlen : 0 < len)
    (hsrc : wholeEbSource info devs start mirror 0 len = .ok (some (dev, pos, len)))
    (data : ℕ → Byte) :
    if dev.Fits len pos then
      readWholeEbLoop info devs start mirror rounds 0 len data =
        .ok (0, copyBytes data 0 dev.data pos len)
    else ∃ out, readWholeEbLoop info devs start mirror rounds 0 len data = .ok (-eio, out) := by
  obtain ⟨rounds, rfl⟩ : ∃ n, rounds = n + 1 := ⟨rounds - 1, by omega⟩
  have hz : ¬ len = 0 := by omega
  have hd : ∀ out, readWholeEbLoop info devs start mirror rounds len 0 out = .ok (0, out) := by
    intro out
    cases rounds <;> rfl
  simp only [readWholeEbLoop, if_false, hsrc, lt_irrefl]
  split
  · rename_i hfit
    have hneg : ¬ (len : ℤ) < 0 := by omega
    simp [readExtentFromDisk, pread, hfit.moved_eq, hneg, ne_eq, hd]
  · rename_i hfit
    have hsh : (pread dev data 0 len pos).1 ≠ len :=
      fun hmoved => hfit (Device.fits_of_moved hlen hmoved)
    simp only [readExtentFromDisk_short hsh]
    exact ⟨_, rfl⟩

section

variable {s : ℕ} (hs : IsUnit map s)

include h hs

theorem InTree.unit_of_mem {b : ℕ} (hb : b < map.stripeLen) :
    (s + b) / map.stripeLen * map.stripeLen = s := by
  obtain ⟨k, rfl⟩ := hs.1
  rw [Nat.mul_add_div h.stripeLen_pos, Nat.div_eq_of_lt hb, Nat.add_zero, Nat.mul_comm]

/-- The result of `read_whole_eb` for a data stripe: the buffer with the bytes to keep, or an
error when one of them cannot be read. -/
def StripeRead (h : InTree info map profile) (devs : Devices) (s : ℕ)
    (result : Call (ℤ × ExtentBuffer)) : Prop :=
  if ∀ b < map.stripeLen, (rmwByte h devs (s + b)).isSome then
    result = .ok (0, ⟨map.ce.start + s, map.stripeLen,
      fun b => if b < map.stripeLen then (rmwByte h devs (s + b)).getD 0 else 0⟩)
  else ∀ eb, result ≠ .ok (0, eb)

theorem InTree.readWholeEb_mapped (hmap : info.unmapped (map.ce.start + s) = false)
    (devs : Devices) :
    StripeRead h devs s
      (readWholeEb info devs ⟨map.ce.start + s, map.stripeLen, fun _ => 0⟩ 0) := by
  have hby : ∀ b < map.stripeLen, rmwByte h devs (s + b) = chunkByte h.toAccepted devs (s + b) := by
    intro b hb
    rw [rmwByte, h.unit_of_mem hs hb, hmap]
    rfl
  have hiff : (∀ b < map.stripeLen, (rmwByte h devs (s + b)).isSome) ↔
      ∀ b < map.stripeLen, (chunkByte h.toAccepted devs (s + b)).isSome :=
    forall₂_congr fun b hb => by rw [hby b hb]
  have hsp : ReadsAll (chunkByte h.toAccepted devs) s map.stripeLen 0 (fun _ => 0)
      (readWholeEbLoop info devs (map.ce.start + s) 0 map.stripeLen 0 map.stripeLen fun _ => 0) :=
    h.readWholeEbLoop_spec hmap rfl hs.2 le_rfl _
  rw [StripeRead, if_congr hiff rfl rfl]
  rw [ReadsAll] at hsp
  split
  · rename_i hall
    rw [if_pos hall] at hsp
    simp only [readWholeEb, hsp]
    congr 3
    funext b
    simp only [filled, Nat.zero_le, true_and, Nat.zero_add, Nat.sub_zero]
    split
    · rename_i hb
      rw [hby b hb]
    · rfl
  · rename_i hall
    rw [if_neg hall] at hsp
    obtain ⟨out, hout⟩ := hsp
    intro eb heb
    simp only [readWholeEb, hout, Except.ok.injEq, Prod.mk.injEq] at heb
    exact absurd heb.1 (by decide)

theorem InTree.readWholeEb_unmapped (hunmapped : info.unmapped (map.ce.start + s) = true)
    (devs : Devices) :
    StripeRead h devs s
      (readWholeEb info devs ⟨map.ce.start + s, map.stripeLen, fun _ => 0⟩ 0) := by
  have hpos := h.stripeLen_pos
  have hby : ∀ b < map.stripeLen, rmwByte h devs (s + b) =
      (info.firstDevice devs).bind fun d => byteAt devs (d, map.ce.start + s + b) := by
    intro b hb
    rw [rmwByte, h.unit_of_mem hs hb, hunmapped, Nat.add_assoc]
    rfl
  cases hdev : info.firstDevice devs with
  | none =>
    have hnot : ¬ ∀ b < map.stripeLen, (rmwByte h devs (s + b)).isSome := by
      intro hall
      have hfirst := hall 0 hpos
      rw [hby 0 hpos, hdev] at hfirst
      cases hfirst
    have hfault : readWholeEbLoop info devs (map.ce.start + s) 0 map.stripeLen 0 map.stripeLen
        (fun _ => 0) = .error .bug := by
      generalize map.stripeLen = len at hpos
      obtain ⟨rounds, rfl⟩ : ∃ n, len = n + 1 := ⟨len - 1, by omega⟩
      simp [readWholeEbLoop, wholeEbSource, hunmapped, hdev]
    rw [StripeRead, if_neg hnot]
    intro eb heb
    simp only [readWholeEb, hfault] at heb
    cases heb
  | some d =>
    simp only [hdev, Option.bind_some] at hby
    have hsrc : wholeEbSource info devs (map.ce.start + s) 0 0 map.stripeLen =
        .ok (some (devs d, map.ce.start + s, map.stripeLen)) := by
      simp [wholeEbSource, hunmapped, hdev]
    have hiff : (∀ b < map.stripeLen, (rmwByte h devs (s + b)).isSome) ↔
        (devs d).Fits map.stripeLen (map.ce.start + s) := by
      constructor
      · intro hall
        have hl := hall (map.stripeLen - 1) (by omega)
        rw [hby _ (by omega), byteAt] at hl
        split at hl
        · rename_i hok
          exact ⟨hok.1, by have := hok.2; simp only at this; omega⟩
        · cases hl
      · rintro ⟨hfd, hsi⟩ b hb
        rw [hby b hb, byteAt, if_pos ⟨hfd, by simp only; omega⟩]
        rfl
    have honce := readWholeEbLoop_once hpos hpos hsrc fun _ => 0
    rw [StripeRead, if_congr hiff rfl rfl]
    split
    · rename_i hfit
      rw [if_pos hfit] at honce
      simp only [readWholeEb, honce]
      congr 3
      funext b
      simp only [copyBytes, Nat.zero_le, true_and, Nat.zero_add]
      split
      · rename_i hb
        rw [hby b hb, byteAt, if_pos ⟨hfit.1, by have := hfit.2; simp only; omega⟩]
        rfl
      · rfl
    · rename_i hfit
      rw [if_neg hfit] at honce
      obtain ⟨out, hout⟩ := honce
      intro eb heb
      simp only [readWholeEb, hout, Except.ok.injEq, Prod.mk.injEq] at heb
      exact absurd heb.1 (by decide)

theorem InTree.readWholeEb_spec (devs : Devices) : StripeRead h devs s
      (readWholeEb info devs ⟨map.ce.start + s, map.stripeLen, fun _ => 0⟩ 0) := by
  cases hunmapped : info.unmapped (map.ce.start + s) with
  | false => exact h.readWholeEb_mapped hs hunmapped devs
  | true => exact h.readWholeEb_unmapped hs hunmapped devs

theorem InTree.rmwEb_spec (devs : Devices) (a t : ℕ) (data : ℕ → Byte) :
    if ∀ b < map.stripeLen, (rmwByte h devs (s + b)).isSome then
      rmwEb info devs ⟨map.ce.start + s, map.stripeLen, fun _ => 0⟩ ⟨map.ce.start + a, t, data⟩ =
        .ok (0, ⟨map.ce.start + s, map.stripeLen,
          fun b => if b < map.stripeLen then newByte h devs a t data (s + b) else 0⟩)
    else ∀ eb, rmwEb info devs ⟨map.ce.start + s, map.stripeLen, fun _ => 0⟩
      ⟨map.ce.start + a, t, data⟩ ≠ .ok (0, eb) := by
  have hr := h.readWholeEb_spec hs devs
  rw [StripeRead] at hr
  split
  · rename_i hall
    rw [if_pos hall] at hr
    simp only [rmwEb, hr, ne_eq, not_true_eq_false, if_false]
    split
    · -- the extent buffer lies outside of this stripe
      congr 3
      funext b
      split
      · rw [newByte, if_neg (by omega)]
      · rfl
    · congr 3
      funext b
      simp only [copyBytes, newByte]
      by_cases hb : b < map.stripeLen
      · simp only [hb]
        by_cases hwritten : a ≤ s + b ∧ s + b < a + t
        · rw [if_pos hwritten, if_pos (by split_ifs <;> omega)]
          congr 1
          split_ifs <;> omega
        · rw [if_neg hwritten, if_neg (by split_ifs <;> omega)]
      · simp only [hb, if_false]
        rw [if_neg (by split_ifs <;> omega)]
  · rename_i hall
    rw [if_neg hall] at hr
    intro eb heb
    rw [rmwEb] at heb
    split at heb
    · cases heb
    · rename_i ret eb' hresult
      split at heb
      · rename_i hret
        simp only [Except.ok.injEq, Prod.mk.injEq] at heb
        exact hret heb.1
      · rename_i hret
        rw [not_not.mp hret] at hresult
        exact hr eb' hresult

theorem InTree.splitStripe_spec (devs : Devices) (a t : ℕ) (data : ℕ → Byte) :
    if (a ≤ s ∧ s + map.stripeLen ≤ a + t) ∨
        ∀ b < map.stripeLen, (rmwByte h devs (s + b)).isSome then
      splitStripe info devs ⟨map.ce.start + a, t, data⟩ map.stripeLen (map.ce.start + s) =
        .ok (0, ⟨map.ce.start + s, map.stripeLen,
          fun b => if b < map.stripeLen then newByte h devs a t data (s + b) else 0⟩)
    else ∀ eb, splitStripe info devs ⟨map.ce.start + a, t, data⟩ map.stripeLen
      (map.ce.start + s) ≠ .ok (0, eb) := by
  by_cases hcovered : a ≤ s ∧ s + map.stripeLen ≤ a + t
  · rw [if_pos (Or.inl hcovered), splitStripe, if_neg (by simp only; omega)]
    congr 3
    funext b
    simp only [copyBytes, newByte, Nat.zero_le, true_and, Nat.zero_add]
    split
    · rw [if_pos (by omega)]
      congr 1
      omega
    · rfl
  · have hpartial : map.ce.start + s < map.ce.start + a ∨
        map.ce.start + a + t < map.ce.start + s + map.stripeLen := by omega
    simp only [hcovered, false_or, splitStripe, hpartial]
    exact h.rmwEb_spec hs devs a t data

end

end Btrfs.Volumes
