import Mathlib

/-! # Data laid out in rows over several devices

Addresses are cut into units. A row takes `columns` units; each of them is stored on one or more
of the `width` devices, at the same offset on all of them. -/

namespace Btrfs

structure RowLayout where
  width : ℕ
  columns : ℕ
  unit : ℕ
  /-- Where a column of a row is read from. -/
  place : ℕ → ℕ → ℕ
  /-- Where a column of a row is written to. -/
  copies : ℕ → ℕ → List ℕ
  columns_pos : 0 < columns
  unit_pos : 0 < unit
  place_mem : ∀ row col, col < columns → place row col ∈ copies row col
  copies_lt : ∀ row col, col < columns → ∀ i ∈ copies row col, i < width
  copies_disjoint : ∀ row col col' i, col < columns → col' < columns → i ∈ copies row col →
    i ∈ copies row col' → col = col'

namespace RowLayout

variable (lay : RowLayout)

def row (a : ℕ) : ℕ := a / lay.unit / lay.columns

def col (a : ℕ) : ℕ := a / lay.unit % lay.columns

/-- The offset of an address on each device that stores it. -/
def depth (a : ℕ) : ℕ := lay.row a * lay.unit + a % lay.unit

/-- The device and the offset an address is read from. -/
def cell (a : ℕ) : ℕ × ℕ := (lay.place (lay.row a) (lay.col a), lay.depth a)

theorem col_lt (a : ℕ) : lay.col a < lay.columns := Nat.mod_lt _ lay.columns_pos

theorem place_lt (a : ℕ) : lay.place (lay.row a) (lay.col a) < lay.width :=
  lay.copies_lt _ _ (lay.col_lt a) _ (lay.place_mem _ _ (lay.col_lt a))

theorem mod_unit_lt (a : ℕ) : a % lay.unit < lay.unit := Nat.mod_lt _ lay.unit_pos

theorem depth_div (a : ℕ) : lay.depth a / lay.unit = lay.row a := by
  rw [depth, Nat.mul_comm, Nat.mul_add_div lay.unit_pos, Nat.div_eq_of_lt (lay.mod_unit_lt a),
    Nat.add_zero]

theorem depth_mod (a : ℕ) : lay.depth a % lay.unit = a % lay.unit := by
  rw [depth, Nat.mul_comm, Nat.mul_add_mod, Nat.mod_mod]

theorem row_eq_iff (a r : ℕ) :
    lay.row a = r ↔ r * lay.unit ≤ lay.depth a ∧ lay.depth a < r * lay.unit + lay.unit := by
  have hmod := lay.mod_unit_lt a
  rw [← lay.depth_div a, Nat.div_eq_iff lay.unit_pos]
  omega

/-- An address is determined by its row, its column and its offset in the unit. -/
theorem address_eq (a : ℕ) :
    (lay.row a * lay.columns + lay.col a) * lay.unit + a % lay.unit = a := by
  have hunits : lay.row a * lay.columns + lay.col a = a / lay.unit := by
    rw [row, col, Nat.mul_comm, Nat.div_add_mod]
  rw [hunits, Nat.mul_comm, Nat.div_add_mod]

theorem address_inj {a b : ℕ} (hcol : lay.col a = lay.col b) (hdepth : lay.depth a = lay.depth b) :
    a = b := by
  rw [← lay.address_eq a, ← lay.address_eq b, hcol, ← lay.depth_div a, ← lay.depth_div b,
    ← lay.depth_mod a, ← lay.depth_mod b, hdepth]

theorem eq_of_copy_eq_cell {a b i : ℕ} (hi : i ∈ lay.copies (lay.row a) (lay.col a))
    (h : (i, lay.depth a) = lay.cell b) : a = b := by
  obtain ⟨hplace, hdepth⟩ := Prod.mk.inj h
  have hrow : lay.row a = lay.row b := by rw [← lay.depth_div a, ← lay.depth_div b, hdepth]
  refine lay.address_inj ?_ hdepth
  rw [hplace, hrow] at hi
  exact lay.copies_disjoint _ _ _ _ (lay.col_lt a) (lay.col_lt b) hi
    (lay.place_mem _ _ (lay.col_lt b))

theorem add_within {a k : ℕ} (h : a % lay.unit + k < lay.unit) :
    lay.row (a + k) = lay.row a ∧ lay.col (a + k) = lay.col a ∧
      lay.depth (a + k) = lay.depth a + k := by
  have hdiv : (a + k) / lay.unit = a / lay.unit := by
    rw [Nat.div_eq_iff lay.unit_pos]
    have := Nat.div_add_mod a lay.unit
    rw [Nat.mul_comm] at this
    omega
  have hmod : (a + k) % lay.unit = a % lay.unit + k := by
    rw [Nat.add_mod, Nat.mod_eq_of_lt (by omega : k < lay.unit), Nat.mod_eq_of_lt h]
  have hrow : lay.row (a + k) = lay.row a := by rw [row, row, hdiv]
  refine ⟨hrow, by rw [col, col, hdiv], ?_⟩
  rw [depth, depth, hrow, hmod, Nat.add_assoc]

theorem depth_of_one_column (h : lay.columns = 1) (a : ℕ) : lay.depth a = a := by
  rw [depth, row, h, Nat.div_one, Nat.mul_comm, Nat.div_add_mod]

theorem depth_lt {a rows : ℕ} (h : a < lay.unit * lay.columns * rows) :
    lay.depth a < lay.unit * rows := by
  have hrow : lay.row a < rows := by
    rw [row, Nat.div_div_eq_div_mul]
    exact Nat.div_lt_of_lt_mul h
  have hmod := lay.mod_unit_lt a
  calc lay.depth a < lay.row a * lay.unit + lay.unit := Nat.add_lt_add_left hmod _
    _ = lay.unit * (lay.row a + 1) := by rw [Nat.mul_comm, Nat.mul_succ]
    _ ≤ lay.unit * rows := Nat.mul_le_mul_left _ hrow

end RowLayout

end Btrfs
