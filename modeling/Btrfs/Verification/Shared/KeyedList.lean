import Mathlib

/-! # Lists with one entry per key -/

namespace Btrfs

variable {α κ : Type*} [DecidableEq κ] (key : α → κ)

def lookupKey (k : κ) (xs : List α) : Option α := xs.find? fun x => key x = k

variable {key} {k k' : κ} {xs : List α} {f : α → α}

theorem lookupKey_cons (x : α) :
    lookupKey key k (x :: xs) = if key x = k then some x else lookupKey key k xs := by
  rw [lookupKey, List.find?_cons]
  by_cases h : key x = k
  · simp [h]
  · simp [h, lookupKey]

theorem lookupKey_modify (hf : ∀ x, key (f x) = key x) :
    lookupKey key k' (xs.modify (xs.findIdx fun x => key x = k) f) =
      if k' = k then (lookupKey key k xs).map f else lookupKey key k' xs := by
  induction xs with
  | nil => simp [lookupKey]
  | cons x xs ih =>
    rw [List.findIdx_cons]
    by_cases hx : key x = k
    · subst hx
      by_cases hk : k' = key x
      · simp [lookupKey_cons, hf, hk]
      · simp [lookupKey_cons, hf, hk, Ne.symm hk]
    · simp only [hx, decide_false, cond_false, List.modify_succ_cons, lookupKey_cons, ih, if_false]
      by_cases hk : k' = k
      · subst hk
        simp [hx]
      · simp [hk]

omit [DecidableEq κ] in
theorem map_key_modify (hf : ∀ x, key (f x) = key x) (i : ℕ) :
    (xs.modify i f).map key = xs.map key := by
  apply List.ext_getElem?
  intro j
  rw [List.getElem?_map, List.getElem?_map, List.getElem?_modify]
  cases xs[j]? with
  | none => rfl
  | some x =>
    by_cases hj : i = j
    · simp [hj, hf]
    · simp [hj]

theorem lookupKey_eq_none : lookupKey key k xs = none ↔ k ∉ xs.map key := by simp [lookupKey]

theorem filter_key_eq_singleton {x : α} (hnd : (xs.map key).Nodup)
    (h : lookupKey key k xs = some x) : (xs.filter fun x => key x = k) = [x] := by
  induction xs with
  | nil => simp [lookupKey] at h
  | cons y xs ih =>
    rw [List.map_cons, List.nodup_cons] at hnd
    rw [lookupKey_cons] at h
    by_cases hy : key y = k
    · rw [if_pos hy] at h
      have hr : (xs.filter fun x => key x = k) = [] := by
        rw [List.filter_eq_nil_iff]
        intro z hz hkey
        have hkey : key z = k := by simpa using hkey
        exact hnd.1 (List.mem_map.mpr ⟨z, hz, by rw [hkey, hy]⟩)
      rw [List.filter_cons_of_pos (by simpa using hy), hr, Option.some_inj.mp h]
    · rw [if_neg hy] at h
      rw [List.filter_cons_of_neg (by simpa using hy), ih hnd.2 h]

end Btrfs
