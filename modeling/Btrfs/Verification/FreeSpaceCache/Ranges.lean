import Btrfs.Model.FreeSpaceCache
import Btrfs.Verification.RbTree.Search
import Btrfs.Verification.Shared.Calls

/-! # The tree of free space entries and the ranges that it describes -/

namespace Btrfs.FreeSpaceCache

open RbTree

variable {a b info e : FreeSpace} {n : Loc FreeSpace}

/-! ## The order of the entries -/

/-- By offset, and at one offset the extent before the bitmap. -/
def KeyLt (a b : FreeSpace) : Prop :=
  a.offset < b.offset ∨ a.offset = b.offset ∧ a.bitmap = none ∧ b.bitmap ≠ none

theorem KeyLt.offset_le (h : KeyLt a b) : a.offset ≤ b.offset := by
  obtain h | ⟨h, -, -⟩ := h
  · exact h.le
  · exact h.le

theorem KeyLt.trans {c : FreeSpace} (hab : KeyLt a b) (hbc : KeyLt b c) : KeyLt a c := by
  obtain hab | ⟨hab, ha, hb⟩ := hab
  · obtain hbc | ⟨hbc, -, -⟩ := hbc
    · exact .inl (hab.trans hbc)
    · exact .inl (hab.trans_eq hbc)
  · obtain hbc | ⟨-, hb', -⟩ := hbc
    · exact .inl (hab.trans_lt hbc)
    · exact absurd hb' hb

theorem insertComp_cases (info e : FreeSpace) :
    insertComp info e = -1 ∧ KeyLt info e ∨ insertComp info e = 1 ∧ KeyLt e info ∨
      insertComp info e = 0 ∧ e.offset = info.offset ∧ (e.bitmap = none ↔ info.bitmap = none) := by
  unfold insertComp KeyLt
  split_ifs with hlt hgt hs hs' hn
  · exact .inl ⟨rfl, .inl hlt⟩
  · exact .inr (.inl ⟨rfl, .inl hgt⟩)
  · refine .inr (.inr ⟨rfl, by omega, ?_⟩)
    rw [Option.isSome_iff_ne_none] at hs hs'
    exact iff_of_false hs' hs
  · refine .inr (.inl ⟨rfl, .inr ⟨by omega, ?_, Option.isSome_iff_ne_none.mp hs⟩⟩)
    simpa using hs'
  · refine .inr (.inr ⟨rfl, by omega, ?_⟩)
    rw [Option.isNone_iff_eq_none] at hn
    exact iff_of_true hn (by simpa using hs)
  · refine .inl ⟨rfl, .inr ⟨by omega, by simpa using hs, ?_⟩⟩
    rwa [Option.isNone_iff_eq_none] at hn

theorem KeyLt.ne_key (h : KeyLt a b) :
    ¬ (a.offset = b.offset ∧ (a.bitmap = none ↔ b.bitmap = none)) := by
  rintro ⟨hoff, hk⟩
  obtain h | ⟨-, ha, hb⟩ := h
  · omega
  · exact hb (hk.mp ha)

theorem KeyLt.asymm (h : KeyLt a b) : ¬ KeyLt b a := by
  intro h'
  exact (h.trans h').ne_key ⟨rfl, Iff.rfl⟩

theorem insertComp_neg_iff : insertComp info e < 0 ↔ KeyLt info e := by
  obtain ⟨hc, hlt⟩ | ⟨hc, hgt⟩ | ⟨hc, hoff, hk⟩ := insertComp_cases info e
  · exact iff_of_true (by omega) hlt
  · exact iff_of_false (by omega) hgt.asymm
  · exact iff_of_false (by omega) fun h => h.ne_key ⟨hoff.symm, hk.symm⟩

theorem insertComp_pos_iff : 0 < insertComp info e ↔ KeyLt e info := by
  obtain ⟨hc, hlt⟩ | ⟨hc, hgt⟩ | ⟨hc, hoff, hk⟩ := insertComp_cases info e
  · exact iff_of_false (by omega) hlt.asymm
  · exact iff_of_true (by omega) hgt
  · exact iff_of_false (by omega) fun h => h.ne_key ⟨hoff, hk⟩

theorem insertComp_zero_iff :
    insertComp info e = 0 ↔ e.offset = info.offset ∧ (e.bitmap = none ↔ info.bitmap = none) := by
  obtain ⟨hc, hlt⟩ | ⟨hc, hgt⟩ | ⟨hc, hkey⟩ := insertComp_cases info e
  · exact iff_of_false (by omega) fun hkey => hlt.ne_key ⟨hkey.1.symm, hkey.2.symm⟩
  · exact iff_of_false (by omega) hgt.ne_key
  · exact iff_of_true hc hkey

theorem searchComp_zero_iff {offset : ℕ} : searchComp offset e = 0 ↔ e.offset = offset := by
  unfold searchComp
  split_ifs
  · exact iff_of_false (by decide) (by omega)
  · exact iff_of_false (by decide) (by omega)
  · exact iff_of_true rfl (by omega)

theorem searchComp_pos_iff {offset : ℕ} : 0 < searchComp offset e ↔ e.offset < offset := by
  unfold searchComp
  split_ifs
  · exact iff_of_false (by decide) (by omega)
  · exact iff_of_true (by decide) (by omega)
  · exact iff_of_false (by decide) (by omega)

/-! ## Trees in that order -/

structure Holds (tree : RbNode FreeSpace) : Prop where
  valid : Valid tree
  keyed : (inorder tree).Pairwise KeyLt

section

variable {tree : RbNode FreeSpace} (h : Holds tree)

include h

theorem Holds.eq_of_key (ha : a ∈ inorder tree) (hb : b ∈ inorder tree)
    (hoff : a.offset = b.offset) (hk : a.bitmap = none ↔ b.bitmap = none) : a = b := by
  by_contra hne
  have hsymm : (inorder tree).Pairwise fun x y => KeyLt x y ∨ KeyLt y x := h.keyed.imp Or.inl
  have : Std.Symm fun x y => KeyLt x y ∨ KeyLt y x := ⟨fun _ _ => Or.symm⟩
  obtain hlt | hgt := hsymm.forall ha hb hne
  · exact hlt.ne_key ⟨hoff, hk⟩
  · exact hgt.ne_key ⟨hoff.symm, hk.symm⟩

theorem Holds.insertComp_consistent (info : FreeSpace) :
    Consistent (insertComp info) (inorder tree) := by
  refine h.keyed.imp ?_
  intro a b hab
  rw [insertComp_pos_iff, insertComp_pos_iff, insertComp_neg_iff, insertComp_neg_iff]
  exact ⟨fun hb => hab.trans hb, fun ha => ha.trans hab⟩

theorem Holds.searchComp_consistent (offset : ℕ) :
    Consistent (searchComp offset) (inorder tree) := by
  refine h.keyed.imp ?_
  intro a b hab
  have hle := hab.offset_le
  unfold searchComp
  constructor <;> omega

theorem Holds.offset_le_of_prev {prev : Loc FreeSpace} (hr : n.root = tree)
    (hp : rbPrev n = some prev) : prev.root = tree ∧ prev.entry.offset ≤ n.entry.offset := by
  have hs := rbPrev_spec n
  rw [hp] at hs
  obtain ⟨hsa, hafter, -⟩ := hs
  refine ⟨hsa.trans hr, ?_⟩
  have hkeyed := h.keyed
  rw [← hr, ← hsa, Loc.inorder_root, hafter] at hkeyed
  obtain ⟨-, hc, -⟩ := List.pairwise_append.mp hkeyed
  exact ((List.pairwise_cons.mp hc).1 n.entry (by simp)).offset_le

end

/-! ## Linking and unlinking -/

theorem bugOn_bytes (h : info.bytes ≠ 0) :
    bugOn (info.bitmap.isNone && info.bytes == 0) = .ok () := by
  have hok : (info.bitmap.isNone && info.bytes == 0) = false := by
    rw [Bool.and_eq_false_iff]
    right
    simpa using h
  rw [hok]
  rfl

section

variable {ctl : FreeSpaceCtl} (h : Holds ctl.freeSpaceOffset)

include h

theorem Holds.unlink (hmem : info ∈ inorder ctl.freeSpaceOffset) :
    ∃ root, Holds root ∧ (inorder ctl.freeSpaceOffset).Perm (info :: inorder root) ∧
      unlinkFreeSpace ctl info = .ok { ctl with
        freeSpaceOffset := root
        freeExtents := ctl.freeExtents - 1
        freeSpace := sub64 ctl.freeSpace info.bytes } := by
  have hz : insertComp info info = 0 := insertComp_zero_iff.mpr ⟨rfl, Iff.rfl⟩
  obtain ⟨n, hsearch, hr, hc⟩ | ⟨below, above, next, hcut, -, -⟩ :=
    rbSearch_spec (h.insertComp_consistent info)
  · obtain ⟨hoff, hk⟩ := insertComp_zero_iff.mp hc
    have hent : n.entry = info := h.eq_of_key (hr ▸ Loc.entry_mem _) hmem hoff hk
    obtain ⟨root, herase, hval, horder⟩ := rbErase_spec (hr ▸ h.valid)
    have hp : (inorder ctl.freeSpaceOffset).Perm (info :: inorder root) := by
      rw [← hr, Loc.inorder_root, hent, horder]
      exact List.perm_middle
    have hsub : (inorder root).Sublist (inorder ctl.freeSpaceOffset) := by
      rw [← hr, Loc.inorder_root, horder]
      exact List.Sublist.append_left (List.sublist_cons_self _ _) _
    refine ⟨root, ⟨hval, h.keyed.sublist hsub⟩, hp, ?_⟩
    rw [unlinkFreeSpace, hsearch]
    simp only [herase]
    rfl
  · exact absurd hz (hcut.ne_zero info hmem)

theorem Holds.link {info : FreeSpace} (hbytes : info.bytes ≠ 0)
    (hnew : ∀ e ∈ inorder ctl.freeSpaceOffset,
      ¬ (e.offset = info.offset ∧ (e.bitmap = none ↔ info.bitmap = none))) :
    ∃ root, Holds root ∧ (inorder root).Perm (info :: inorder ctl.freeSpaceOffset) ∧
      linkFreeSpace ctl info = .ok (0, { ctl with
        freeSpaceOffset := root
        freeSpace := wrap64 (ctl.freeSpace + info.bytes)
        freeExtents := ctl.freeExtents + 1 }) := by
  obtain ⟨⟨e, hmem, hz⟩, -⟩ | ⟨root, below, above, hcut, hinside, hval, horder⟩ :=
    rbInsert_spec info h.valid (h.insertComp_consistent info)
  · exact absurd (insertComp_zero_iff.mp hz) (hnew e hmem)
  · refine ⟨root, ⟨hval, ?_⟩, ?_, ?_⟩
    · rw [horder]
      apply hcut.insert h.keyed
      · exact fun e _ => insertComp_pos_iff.mp
      · exact fun e _ => insertComp_neg_iff.mp
    · rw [horder, hcut.append]
      exact List.perm_middle
    · rw [linkFreeSpace, bugOn_bytes hbytes, treeInsertOffset, hinside]
      rfl

theorem Holds.link_exists (hbytes : info.bytes ≠ 0) (hold : ∃ e ∈ inorder ctl.freeSpaceOffset,
      e.offset = info.offset ∧ (e.bitmap = none ↔ info.bitmap = none)) :
    linkFreeSpace ctl info = .ok (-EEXIST, ctl) := by
  obtain ⟨e, hmem, hkey⟩ := hold
  obtain ⟨-, hinside⟩ | ⟨root, below, above, hcut, -⟩ :=
    rbInsert_spec info h.valid (h.insertComp_consistent info)
  · rw [linkFreeSpace, bugOn_bytes hbytes, treeInsertOffset, hinside]
    rfl
  · exact absurd (insertComp_zero_iff.mpr hkey) (hcut.ne_zero e hmem)

end

/-! ## Searching -/

/-- An extent that a search may return for an offset. -/
def Near (tree : RbNode FreeSpace) (offset : ℕ) (n : Loc FreeSpace) : Prop :=
  n.root = tree ∧ (n.entry.bitmap = none → n.entry.offset ≤ offset ∧
    (n.entry.offset = offset ∨ offset < wrap64 (n.entry.offset + n.entry.bytes)))

section

variable {ctl : FreeSpaceCtl} (h : Holds ctl.freeSpaceOffset) {offset : ℕ}

include h

theorem Holds.coveringPrev {prev : Loc FreeSpace} (hr : n.root = ctl.freeSpaceOffset)
    (hle : n.entry.offset ≤ offset) (hp : coveringPrev n offset = some prev) :
    Near ctl.freeSpaceOffset offset prev := by
  obtain ⟨hp, hbeyond⟩ := Option.filter_eq_some_iff.mp hp
  obtain ⟨hs, hoff⟩ := h.offset_le_of_prev hr hp
  rw [extentBeyond, Bool.and_eq_true, decide_eq_true_iff] at hbeyond
  exact ⟨hs, fun _ => ⟨hoff.trans hle, .inr hbeyond.2⟩⟩

theorem Holds.searchBefore (hr : n.root = ctl.freeSpaceOffset) (hle : n.entry.offset ≤ offset) :
    ∃ result, searchBefore ctl offset false 0 n = .ok result ∧
      ∀ found ∈ result, Near ctl.freeSpaceOffset offset found := by
  have hbeyond : goesBeyond ctl n.entry offset = true → Near ctl.freeSpaceOffset offset n := by
    intro hbeyond
    refine ⟨hr, fun hn => ⟨hle, .inr ?_⟩⟩
    rw [goesBeyond, hn] at hbeyond
    simpa using hbeyond
  unfold FreeSpaceCache.searchBefore
  generalize hcovering : (if n.entry.bitmap.isSome then FreeSpaceCache.coveringPrev n offset
    else none) = covering
  cases covering with
  | some prev =>
    refine ⟨some prev, rfl, ?_⟩
    rintro found ⟨⟩
    split_ifs at hcovering
    exact h.coveringPrev hr hle hcovering
  | none =>
    cases hgoes : goesBeyond ctl n.entry offset with
    | true =>
      refine ⟨some n, rfl, ?_⟩
      rintro found ⟨⟩
      exact hbeyond hgoes
    | false => exact ⟨none, rfl, nofun⟩

theorem Holds.search (offset : ℕ) :
    ∃ result, treeSearchOffset ctl offset false false 0 = .ok result ∧
      ∀ found ∈ result, Near ctl.freeSpaceOffset offset found := by
  have hend := @rbSearchLoop_spec _ _ ctl.freeSpaceOffset ctl.freeSpaceOffset [] none 0
    (h.searchComp_consistent offset) between_nil rfl nofun fun _ => rfl
  unfold treeSearchOffset
  generalize rbSearchLoop (searchComp offset) ctl.freeSpaceOffset [] none 0 = result at hend
  obtain ⟨found, parent, ret⟩ := result
  cases found with
  | some n =>
    obtain ⟨hr, hc⟩ := hend
    have hoff : n.entry.offset = offset := searchComp_zero_iff.mp hc
    have hn : Near ctl.freeSpaceOffset offset n := ⟨hr, fun _ => ⟨hoff.le, .inl hoff⟩⟩
    simp only
    split_ifs
    · refine ⟨_, rfl, ?_⟩
      rintro found ⟨⟩
      cases hp : FreeSpaceCache.coveringPrev n offset with
      | none => exact hn
      | some prev => exact h.coveringPrev hr hoff.le hp
    · refine ⟨_, rfl, ?_⟩
      rintro found ⟨⟩
      exact hn
  | none =>
    cases parent with
    | none => exact ⟨none, rfl, nofun⟩
    | some prev =>
      obtain ⟨up, hup, hbetween, hr, hside⟩ := hend
      have hbelow : ∀ e ∈ before up, e.offset < offset :=
        fun e he => searchComp_pos_iff.mp ((hbetween.cut hup).below e he)
      simp only
      by_cases hlt : offset < prev.entry.offset
      · rw [if_pos hlt]
        -- the last entry compared is behind the offset, so the one before it is not
        cases hp : rbPrev prev with
        | none => exact ⟨none, rfl, nofun⟩
        | some n =>
          have hs := rbPrev_spec prev
          rw [hp] at hs
          obtain ⟨hsa, -, hbefore⟩ := hs
          have hle : n.entry.offset < offset := by
            obtain ⟨-, hparity, -⟩ | ⟨-, hparity, -⟩ := hside
            · rw [inorder_nil, List.append_nil] at hparity
              apply hbelow
              rw [← hparity, ← hbefore]
              exact by simp
            · have := hbelow prev.entry (by
                rw [← hparity]
                exact by simp)
              omega
          simp only
          rw [if_neg (by omega)]
          exact h.searchBefore (hsa.trans hr) hle.le
      · rw [if_neg hlt]
        exact h.searchBefore hr (Nat.le_of_not_lt hlt)

end

/-! # The free ranges of a block group, and adding to them -/

/-! ## What entries describe -/

def FreeSpace.Covers (unit : ℕ) (e : FreeSpace) (a : ℕ) : Prop :=
  e.offset ≤ a ∧
    match e.bitmap with
    | none => a < e.offset + e.bytes
    | some bits => bits.getD ((a - e.offset) / unit) false = true

/-- An entry with its sizes, below the end of the address space. -/
structure FitsEntry (sectorsize unit : ℕ) (e : FreeSpace) : Prop where
  extent : e.bitmap = none → 0 < e.bytes ∧ e.offset + e.bytes < 2 ^ 64
  bitmap : ∀ bits, e.bitmap = some bits → bits.length = bitsPerBitmap sectorsize ∧
    e.bytes = bits.count true * unit ∧ e.offset + bits.length * unit < 2 ^ 64

/-- Extents and bitmaps whose free ranges are disjoint, with the counters that `link_free_space`
and `unlink_free_space` keep. -/
structure WellFormed (ctl : FreeSpaceCtl) : Prop where
  sectorsize : ctl.sectorsize ∈ [4096, 8192, 16384, 32768, 65536]
  unit : ctl.unit = ctl.sectorsize
  tree : Holds ctl.freeSpaceOffset
  entries : ∀ e ∈ inorder ctl.freeSpaceOffset, FitsEntry ctl.sectorsize ctl.unit e
  disjoint : ∀ e ∈ inorder ctl.freeSpaceOffset, ∀ e' ∈ inorder ctl.freeSpaceOffset, e ≠ e' →
    ∀ a, e.Covers ctl.unit a → ¬ e'.Covers ctl.unit a
  freeSpace : ctl.freeSpace = wrap64 ((inorder ctl.freeSpaceOffset).map FreeSpace.bytes).sum
  freeExtents : ctl.freeExtents = (inorder ctl.freeSpaceOffset).length

theorem covers_extent {unit : ℕ} {e : FreeSpace} (h : e.bitmap = none) (a : ℕ) :
    e.Covers unit a ↔ e.offset ≤ a ∧ a < e.offset + e.bytes := by
  unfold FreeSpace.Covers
  rw [h]

def ExtentAt (ctl : FreeSpaceCtl) (a : ℕ) : Prop :=
  ∃ e ∈ inorder ctl.freeSpaceOffset, e.bitmap = none ∧ e.Covers ctl.unit a

def weight (entries : List FreeSpace) : ℕ :=
  (entries.map fun e => 1 + (e.bitmap.getD []).length).sum

theorem treeWeight_eq (tree : RbNode FreeSpace) : treeWeight tree = weight (inorder tree) := by
  induction tree with
  | nil => rfl
  | node c l e r ihl ihr =>
    rw [treeWeight, ihl, ihr, inorder_node, weight, weight, weight, List.map_append,
      List.sum_append, List.map_cons, List.sum_cons, Nat.add_assoc]

theorem weight_cons (e : FreeSpace) (entries : List FreeSpace) :
    weight (e :: entries) = 1 + (e.bitmap.getD []).length + weight entries := by
  rfl

theorem weight_perm {xs ys : List FreeSpace} (h : xs.Perm ys) : weight xs = weight ys :=
  (h.map _).sum_eq

/-- A step to another tree of the same block group that leaves the bitmaps. -/
structure Moves (ctl ctl' : FreeSpaceCtl) : Prop where
  wellFormed : WellFormed ctl'
  unit : ctl'.unit = ctl.unit
  sectorsize : ctl'.sectorsize = ctl.sectorsize
  bitmaps : ∀ e, e.bitmap ≠ none →
    (e ∈ inorder ctl'.freeSpaceOffset ↔ e ∈ inorder ctl.freeSpaceOffset)

theorem Moves.trans {a b c : FreeSpaceCtl} (hab : Moves a b) (hbc : Moves b c) : Moves a c :=
  ⟨hbc.wellFormed, hbc.unit.trans hab.unit, hbc.sectorsize.trans hab.sectorsize,
    fun e he => (hbc.bitmaps e he).trans (hab.bitmaps e he)⟩

/-! ## Unlinking and linking -/

theorem sub64_wrap64_add {b : ℕ} (hb : b < 2 ^ 64) (s : ℕ) : sub64 (wrap64 (b + s)) b = wrap64 s := by
  rw [sub64, wrap64_of_lt hb, wrap64, wrap64, wrap64]
  omega

/-- Any entries in order, with the counters of them. -/
structure Counted (ctl : FreeSpaceCtl) : Prop where
  tree : Holds ctl.freeSpaceOffset
  bytes_lt : ∀ e ∈ inorder ctl.freeSpaceOffset, e.bytes < 2 ^ 64
  freeSpace : ctl.freeSpace = wrap64 ((inorder ctl.freeSpaceOffset).map FreeSpace.bytes).sum
  freeExtents : ctl.freeExtents = (inorder ctl.freeSpaceOffset).length

theorem Counted.unlink {ctl : FreeSpaceCtl} (h : Counted ctl) {e : FreeSpace}
    (hmem : e ∈ inorder ctl.freeSpaceOffset) :
    ∃ ctl', unlinkFreeSpace ctl e = .ok ctl' ∧ Counted ctl' ∧
      (inorder ctl.freeSpaceOffset).Perm (e :: inorder ctl'.freeSpaceOffset) ∧
      ctl'.unit = ctl.unit ∧ ctl'.sectorsize = ctl.sectorsize := by
  obtain ⟨root, hholds, hp, hc⟩ := h.tree.unlink hmem
  have hsum := (hp.map FreeSpace.bytes).sum_eq
  rw [List.map_cons, List.sum_cons] at hsum
  refine ⟨_, hc, ⟨hholds, ?_, ?_, ?_⟩, hp, rfl, rfl⟩
  · exact fun x hx => h.bytes_lt x (hp.mem_iff.mpr (by simp [hx]))
  · rw [h.freeSpace, hsum, sub64_wrap64_add (h.bytes_lt e hmem)]
  · change ctl.freeExtents - 1 = ((inorder root).length : ℤ)
    rw [h.freeExtents, hp.length_eq, List.length_cons]
    omega

section

variable {ctl : FreeSpaceCtl} (h : WellFormed ctl)

include h

theorem WellFormed.counted : Counted ctl where
  tree := h.tree
  bytes_lt := by
    intro e hmem
    have hf := h.entries e hmem
    cases hbitmap : e.bitmap with
    | none =>
      have := (hf.extent hbitmap).2
      omega
    | some bits =>
      obtain ⟨-, hbytes, hend⟩ := hf.bitmap bits hbitmap
      have hcount : bits.count true * ctl.unit ≤ bits.length * ctl.unit :=
        Nat.mul_le_mul_right _ List.count_le_length
      omega
  freeSpace := h.freeSpace
  freeExtents := h.freeExtents

theorem WellFormed.unlink {e : FreeSpace} (hmem : e ∈ inorder ctl.freeSpaceOffset) :
    ∃ ctl', unlinkFreeSpace ctl e = .ok ctl' ∧ WellFormed ctl' ∧
      (inorder ctl.freeSpaceOffset).Perm (e :: inorder ctl'.freeSpaceOffset) ∧
      ctl'.unit = ctl.unit ∧ ctl'.sectorsize = ctl.sectorsize := by
  obtain ⟨ctl', hc, hcount, hp, hu, hsec⟩ := h.counted.unlink hmem
  have hsub : ∀ x ∈ inorder ctl'.freeSpaceOffset, x ∈ inorder ctl.freeSpaceOffset :=
    fun x hx => hp.mem_iff.mpr (by simp [hx])
  refine ⟨ctl', hc, ⟨hsec ▸ h.sectorsize, hu.trans (h.unit.trans hsec.symm),
    hcount.tree, ?_, ?_, hcount.freeSpace, hcount.freeExtents⟩, hp, hu, hsec⟩
  · rw [hu, hsec]
    exact fun x hx => h.entries x (hsub x hx)
  · rw [hu]
    exact fun x hx y hy => h.disjoint x (hsub x hx) y (hsub y hy)

theorem WellFormed.not_mem_unlink {ctl' : FreeSpaceCtl} {e : FreeSpace}
    (hp : (inorder ctl.freeSpaceOffset).Perm (e :: inorder ctl'.freeSpaceOffset)) :
    e ∉ inorder ctl'.freeSpaceOffset := by
  have hnd : (inorder ctl.freeSpaceOffset).Nodup := by
    refine h.tree.keyed.imp ?_
    rintro x _ hlt rfl
    exact hlt.ne_key ⟨rfl, Iff.rfl⟩
  exact (List.nodup_cons.mp (hp.nodup_iff.mp hnd)).1

end

/-- A new extent away from all that is free already. -/
structure Apart (ctl : FreeSpaceCtl) (info : FreeSpace) : Prop where
  extent : info.bitmap = none
  pos : 0 < info.bytes
  end_lt : info.offset + info.bytes < 2 ^ 64
  apart : ∀ e ∈ inorder ctl.freeSpaceOffset, ∀ a, e.Covers ctl.unit a →
    ¬ (info.offset ≤ a ∧ a < info.offset + info.bytes)

theorem Apart.link {ctl : FreeSpaceCtl} {info : FreeSpace} (hinfo : Apart ctl info)
    (h : WellFormed ctl) :
    ∃ ctl', linkFreeSpace ctl info = .ok (0, ctl') ∧ Moves ctl ctl' ∧ (∀ a, ExtentAt ctl' a ↔
        ExtentAt ctl a ∨ info.offset ≤ a ∧ a < info.offset + info.bytes) ∧
      weight (inorder ctl'.freeSpaceOffset) = weight (inorder ctl.freeSpaceOffset) + 1 := by
  have hpos := hinfo.pos
  have hcovered := fun a => @covers_extent ctl.unit info hinfo.extent a
  have hnew : ∀ e ∈ inorder ctl.freeSpaceOffset,
      ¬ (e.offset = info.offset ∧ (e.bitmap = none ↔ info.bitmap = none)) := by
    rintro e he ⟨hoff, hk⟩
    have hextent := hk.mpr hinfo.extent
    have := ((h.entries e he).extent hextent).1
    apply hinfo.apart e he e.offset ((covers_extent hextent _).mpr ⟨le_rfl, by omega⟩)
    omega
  obtain ⟨root, hholds, hp, hc⟩ := h.tree.link hpos.ne' hnew
  have hmem : ∀ x, x ∈ inorder root ↔ x = info ∨ x ∈ inorder ctl.freeSpaceOffset :=
    fun x => hp.mem_iff.trans List.mem_cons
  have hsum := (hp.map FreeSpace.bytes).sum_eq
  rw [List.map_cons, List.sum_cons] at hsum
  refine ⟨_, hc, ⟨⟨h.sectorsize, h.unit, hholds, ?_, ?_, ?_, ?_⟩, rfl, rfl, ?_⟩, ?_, ?_⟩
  · intro x hx
    obtain rfl | hx := (hmem x).mp hx
    · refine ⟨fun _ => ⟨hpos, hinfo.end_lt⟩, fun bits hbi => ?_⟩
      rw [hinfo.extent] at hbi
      cases hbi
    · exact h.entries x hx
  · intro x hx y hy hne a ha hb
    obtain hx | hx := (hmem x).mp hx <;> obtain hy | hy := (hmem y).mp hy
    · exact hne (hx.trans hy.symm)
    · exact hinfo.apart y hy a hb ((hcovered a).mp (hx ▸ ha))
    · exact hinfo.apart x hx a ha ((hcovered a).mp (hy ▸ hb))
    · exact h.disjoint x hx y hy hne a ha hb
  · rw [h.freeSpace, hsum, wrap64, wrap64, wrap64, Nat.mod_add_mod, Nat.add_comm]
  · rw [h.freeExtents, hp.length_eq]
    rfl
  · intro e he
    rw [hmem]
    refine or_iff_right ?_
    rintro rfl
    exact he hinfo.extent
  · intro a
    constructor
    · rintro ⟨e, he, hextent, ha⟩
      obtain rfl | he := (hmem e).mp he
      · exact .inr ((hcovered a).mp ha)
      · exact .inl ⟨e, he, hextent, ha⟩
    · rintro (⟨e, he, hextent, ha⟩ | ha)
      · exact ⟨e, (hmem e).mpr (.inr he), hextent, ha⟩
      · exact ⟨info, (hmem info).mpr (.inl rfl), hinfo.extent, (hcovered a).mpr ha⟩
  · rw [weight_perm hp, weight_cons, hinfo.extent, Option.getD_none, List.length_nil]
    omega

/-! ## Joining neighbours -/

/-- One step of `try_merge_free_space`: an entry of the tree may go over into the new one. -/
structure Absorbs (ctl : FreeSpaceCtl) (info : FreeSpace) (ctl' : FreeSpaceCtl) (info' : FreeSpace) :
    Prop where
  moves : Moves ctl ctl'
  apart : Apart ctl' info'
  ranges : ∀ a, ExtentAt ctl' a ∨ info'.offset ≤ a ∧ a < info'.offset + info'.bytes ↔
    ExtentAt ctl a ∨ info.offset ≤ a ∧ a < info.offset + info.bytes
  weight_le : weight (inorder ctl'.freeSpaceOffset) ≤ weight (inorder ctl.freeSpaceOffset)

theorem Absorbs.refl {ctl : FreeSpaceCtl} {info : FreeSpace} (h : WellFormed ctl)
    (hinfo : Apart ctl info) : Absorbs ctl info ctl info :=
  ⟨⟨h, rfl, rfl, fun _ _ => Iff.rfl⟩, hinfo, fun _ => Iff.rfl, le_rfl⟩

theorem Absorbs.trans {ctl ctl' ctl'' : FreeSpaceCtl} {info info' info'' : FreeSpace}
    (h : Absorbs ctl info ctl' info') (h' : Absorbs ctl' info' ctl'' info'') :
    Absorbs ctl info ctl'' info'' :=
  ⟨h.moves.trans h'.moves, h'.apart, fun a => (h'.ranges a).trans (h.ranges a),
    h'.weight_le.trans h.weight_le⟩

theorem Apart.absorb {ctl : FreeSpaceCtl} {info e info' : FreeSpace} (hinfo : Apart ctl info)
    (h : WellFormed ctl) (hmem : e ∈ inorder ctl.freeSpaceOffset) (hextent : e.bitmap = none)
    (hk : info'.bitmap = none) (hend : info'.offset + info'.bytes < 2 ^ 64)
    (hrange : ∀ a, info'.offset ≤ a ∧ a < info'.offset + info'.bytes ↔
      (e.offset ≤ a ∧ a < e.offset + e.bytes) ∨ info.offset ≤ a ∧ a < info.offset + info.bytes) :
    ∃ ctl', unlinkFreeSpace ctl e = .ok ctl' ∧ Absorbs ctl info ctl' info' ∧
      (inorder ctl.freeSpaceOffset).Perm (e :: inorder ctl'.freeSpaceOffset) := by
  obtain ⟨ctl', hc, hwell, hp, hu, hsec⟩ := h.unlink hmem
  have hmem' : ∀ x, x ∈ inorder ctl.freeSpaceOffset ↔ x = e ∨ x ∈ inorder ctl'.freeSpaceOffset :=
    fun x => hp.mem_iff.trans List.mem_cons
  have hcovered := fun a => @covers_extent ctl.unit e hextent a
  have hnot := h.not_mem_unlink hp
  have hpos := hinfo.pos
  refine ⟨ctl', hc, ⟨⟨hwell, hu, hsec, ?_⟩, ⟨hk, ?_, hend, ?_⟩, ?_, ?_⟩, hp⟩
  · intro x hx
    rw [hmem']
    refine (or_iff_right ?_).symm
    rintro rfl
    exact hx hextent
  · have := (hrange info.offset).mpr (.inr ⟨le_rfl, by omega⟩)
    omega
  · intro x hx a ha hin
    rw [hu] at ha
    obtain hin | hin := (hrange a).mp hin
    · have hne : x ≠ e := by
        rintro rfl
        exact hnot hx
      exact h.disjoint x ((hmem' x).mpr (.inr hx)) e hmem hne a ha ((hcovered a).mpr hin)
    · exact hinfo.apart x ((hmem' x).mpr (.inr hx)) a ha hin
  · intro a
    rw [hrange a, ← or_assoc]
    refine or_congr_left ?_
    constructor
    · rintro (⟨x, hx, hk, ha⟩ | ha)
      · exact ⟨x, (hmem' x).mpr (.inr hx), hk, hu ▸ ha⟩
      · exact ⟨e, hmem, hextent, (hcovered a).mpr ha⟩
    · rintro ⟨x, hx, hk, ha⟩
      obtain rfl | hx := (hmem' x).mp hx
      · exact .inr ((hcovered a).mp ha)
      · exact .inl ⟨x, hx, hk, hu ▸ ha⟩
  · rw [weight_perm hp, weight_cons]
    omega

theorem mem_of_root {n : Loc FreeSpace} {tree : RbNode FreeSpace} (h : n.root = tree) :
    n.entry ∈ inorder tree :=
  h ▸ Loc.entry_mem _

section

variable {ctl : FreeSpaceCtl} {info : FreeSpace} (h : WellFormed ctl) (hinfo : Apart ctl info)

include h hinfo

theorem Apart.right_offset {n : Loc FreeSpace}
    (hn : Near ctl.freeSpaceOffset (info.offset + info.bytes) n) (hextent : n.entry.bitmap = none) :
    n.entry.offset = info.offset + info.bytes := by
  obtain ⟨hle, hcs⟩ := hn.2 hextent
  have hpos := hinfo.pos
  have hmem := mem_of_root hn.1
  have hend := ((h.entries _ hmem).extent hextent).2
  obtain heq | hbeyond := hcs
  · exact heq
  · rw [wrap64_of_lt hend] at hbeyond
    by_contra hne
    -- otherwise both have the last byte of the new entry
    refine hinfo.apart _ hmem (info.offset + info.bytes - 1) ?_ (by omega)
    exact (covers_extent hextent _).mpr (by omega)

theorem Apart.mergeRight {right : Option (Loc FreeSpace)}
    (hn : ∀ n ∈ right, Near ctl.freeSpaceOffset (info.offset + info.bytes) n) :
    ∃ ctl' info', FreeSpaceCache.mergeRight ctl info right = .ok (ctl', info') ∧
      Absorbs ctl info ctl' info' ∧ info'.offset = info.offset ∧
      ∀ e ∈ inorder ctl.freeSpaceOffset, e.offset < info.offset →
        e ∈ inorder ctl'.freeSpaceOffset := by
  have hs : Absorbs ctl info ctl info := .refl h hinfo
  unfold FreeSpaceCache.mergeRight
  cases right with
  | none => exact ⟨ctl, info, rfl, hs, rfl, fun e he _ => he⟩
  | some n =>
    simp only
    split_ifs with hk
    · have hextent := Option.isNone_iff_eq_none.mp hk
      have hmem := mem_of_root (hn n rfl).1
      have hoff := hinfo.right_offset h (hn n rfl) hextent
      obtain ⟨hpos, hend⟩ := (h.entries _ hmem).extent hextent
      have hbytes : wrap64 (info.bytes + n.entry.bytes) = info.bytes + n.entry.bytes :=
        wrap64_of_lt (by omega)
      rw [hbytes]
      obtain ⟨ctl', hc, habs, hp⟩ := @Apart.absorb _ _ _
        { info with bytes := info.bytes + n.entry.bytes } hinfo h hmem hextent hinfo.extent
        (by simp only; omega) (fun a => by simp only; omega)
      refine ⟨ctl', _, by rw [hc]; rfl, habs, rfl, fun e he hlt => ?_⟩
      obtain rfl | he := List.mem_cons.mp (hp.mem_iff.mp he)
      · omega
      · exact he
    · exact ⟨ctl, info, rfl, hs, rfl, fun e he _ => he⟩

theorem Apart.mergeLeft {left : Option (Loc FreeSpace)}
    (hl : ∀ n ∈ left, n.entry.bitmap = none → n.entry.offset + n.entry.bytes = info.offset →
      n.entry ∈ inorder ctl.freeSpaceOffset)
    (he : ∀ n ∈ left, n.entry.bitmap = none → n.entry.offset + n.entry.bytes < 2 ^ 64) :
    ∃ ctl' info', FreeSpaceCache.mergeLeft ctl info.offset info left = .ok (ctl', info') ∧
      Absorbs ctl info ctl' info' := by
  have hs : Absorbs ctl info ctl info := .refl h hinfo
  unfold FreeSpaceCache.mergeLeft
  cases left with
  | none => exact ⟨ctl, info, rfl, hs⟩
  | some n =>
    simp only
    split_ifs with hk
    · have hextent := Option.isNone_iff_eq_none.mp hk.1
      have hend := hk.2
      rw [wrap64_of_lt (he n rfl hextent)] at hend
      have hmem := hl n rfl hextent hend
      have hlt := hinfo.end_lt
      have hbytes : wrap64 (info.bytes + n.entry.bytes) = info.bytes + n.entry.bytes :=
        wrap64_of_lt (by omega)
      rw [hbytes]
      obtain ⟨ctl', hc, habs, -⟩ := @Apart.absorb _ _ _
        { info with offset := n.entry.offset, bytes := info.bytes + n.entry.bytes }
        hinfo h hmem hextent hinfo.extent (by simp only; omega) (fun a => by simp only; omega)
      exact ⟨ctl', _, by rw [hc]; rfl, habs⟩
    · exact ⟨ctl, info, rfl, hs⟩

omit hinfo in
theorem WellFormed.findLeft {offset : ℕ} {right : Option (Loc FreeSpace)}
    (hright : ∀ n ∈ right, n.root = ctl.freeSpaceOffset) :
    ∃ left, FreeSpaceCache.findLeft ctl offset right = .ok left ∧
      ∀ n ∈ left, n.root = ctl.freeSpaceOffset := by
  unfold FreeSpaceCache.findLeft
  cases hp : right.bind rbPrev with
  | none =>
    obtain ⟨left, hc, hne⟩ := h.tree.search (sub64 offset 1)
    exact ⟨left, hc, fun n hn => (hne n hn).1⟩
  | some prev =>
    obtain ⟨n, hn, hp⟩ := Option.bind_eq_some_iff.mp hp
    refine ⟨some prev, rfl, ?_⟩
    rintro m ⟨⟩
    exact (h.tree.offset_le_of_prev (hright n hn) hp).1

theorem Apart.tryMerge :
    ∃ ctl' info', tryMergeFreeSpace ctl info = .ok (ctl', info') ∧ Absorbs ctl info ctl' info' := by
  obtain ⟨right, hsearch, hne⟩ := h.tree.search (info.offset + info.bytes)
  obtain ⟨left, hfi, hr⟩ := @WellFormed.findLeft _ h info.offset right
    fun n hn => (hne n hn).1
  obtain ⟨ctl₁, info₁, hright, habs₁, hoff, hk⟩ := hinfo.mergeRight h hne
  have hf : ∀ n ∈ left, n.entry.bitmap = none →
      0 < n.entry.bytes ∧ n.entry.offset + n.entry.bytes < 2 ^ 64 :=
    fun n hn => (h.entries _ (mem_of_root (hr n hn))).extent
  obtain ⟨ctl₂, info₂, hl, habs₂⟩ := @Apart.mergeLeft _ _ habs₁.moves.wellFormed habs₁.apart left
    (fun n hn hextent hend => hk _ (mem_of_root (hr n hn)) (by
      have := (hf n hn hextent).1
      omega))
    fun n hn hextent => (hf n hn hextent).2
  refine ⟨ctl₂, info₂, ?_, habs₁.trans habs₂⟩
  unfold tryMergeFreeSpace
  rw [wrap64_of_lt hinfo.end_lt]
  rw [hoff] at hl
  exact bind_eq_ok.mpr ⟨_, hsearch, bind_eq_ok.mpr ⟨_, hfi, bind_eq_ok.mpr ⟨_, hright, hl⟩⟩⟩

end

/-- `btrfs_add_free_space` of a range away from what is free already. -/
theorem WellFormed.add {ctl : FreeSpaceCtl} (h : WellFormed ctl) {offset bytes : ℕ}
    (hinfo : Apart ctl ⟨offset, bytes, none⟩) :
    ∃ ctl', btrfsAddFreeSpace ctl offset bytes = .ok (0, ctl') ∧ Moves ctl ctl' ∧
      (∀ a, ExtentAt ctl' a ↔ ExtentAt ctl a ∨ offset ≤ a ∧ a < offset + bytes) ∧
      weight (inorder ctl'.freeSpaceOffset) ≤ weight (inorder ctl.freeSpaceOffset) + 1 := by
  obtain ⟨ctl₁, info, hmerge, habs⟩ := hinfo.tryMerge h
  obtain ⟨ctl₂, hl, hmov, hranges, hweight⟩ := habs.apart.link habs.moves.wellFormed
  refine ⟨ctl₂, ?_, habs.moves.trans hmov, fun a => ?_, ?_⟩
  · exact bind_eq_ok.mpr ⟨_, hmerge, bind_eq_ok.mpr ⟨_, hl, rfl⟩⟩
  · rw [hranges a, habs.ranges a]
  · have := habs.weight_le
    omega

end Btrfs.FreeSpaceCache
