import Btrfs.Model.CsumRange
import Btrfs.Verification.Ctree.Iteration

/-! # The bytes of a range with a checksum

A gap in front of an item moves the start of the range and leaves its length, so that as many bytes
behind the range are looked at as were skipped in it. -/

namespace Btrfs.Check

open Ctree

/-- The bytes that the checksums of an item of the csum tree are for. -/
structure CsumItem where
  offset : ℕ
  stop : ℕ
deriving DecidableEq, Repr

/-- The csum items among the items of a tree. -/
def csumItems (info : CsumInfo) (items : List Item) : List CsumItem :=
  (items.filter fun item => isCsumKey item.key).map fun item => ⟨item.key.offset, info.csumEnd item⟩

def Covered (items : List CsumItem) (x : ℕ) : Prop :=
  ∃ item ∈ items, item.offset ≤ x ∧ x < item.stop

instance (items : List CsumItem) (x : ℕ) : Decidable (Covered items x) :=
  inferInstanceAs (Decidable (∃ item ∈ items, _ ∧ _))

/-- The items of a csum tree in key order: none is empty, and none reaches into the next. -/
structure CsumTree (items : List CsumItem) : Prop where
  disjoint : items.Pairwise fun a b => a.stop ≤ b.offset
  nonempty : ∀ item ∈ items, item.offset < item.stop
  bounded : ∀ item ∈ items, item.stop < 2 ^ 64

/-! ## Counting the bytes of an interval -/

section

variable {p : ℕ → Prop} [DecidablePred p] {a b c : ℕ}

theorem card_filter_Ico (hab : a ≤ b) (hbc : b ≤ c) : ((Finset.Ico a c).filter p).card =
    ((Finset.Ico a b).filter p).card + ((Finset.Ico b c).filter p).card := by
  simp only [Finset.card_filter]
  exact (Finset.sum_Ico_consecutive _ hab hbc).symm

theorem card_filter_Ico_all (h : ∀ x, a ≤ x → x < b → p x) :
    ((Finset.Ico a b).filter p).card = b - a := by
  rw [Finset.filter_true_of_mem fun x hx => h x (Finset.mem_Ico.mp hx).1 (Finset.mem_Ico.mp hx).2,
    Nat.card_Ico]

theorem card_filter_Ico_none (h : ∀ x, a ≤ x → x < b → ¬ p x) :
    ((Finset.Ico a b).filter p).card = 0 := by
  rw [Finset.filter_false_of_mem fun x hx => h x (Finset.mem_Ico.mp hx).1 (Finset.mem_Ico.mp hx).2,
    Finset.card_empty]

theorem card_filter_Ico_congr {q : ℕ → Prop} [DecidablePred q]
    (h : ∀ x, a ≤ x → x < b → (p x ↔ q x)) :
    ((Finset.Ico a b).filter p).card = ((Finset.Ico a b).filter q).card := by
  rw [Finset.filter_congr fun x hx => h x (Finset.mem_Ico.mp hx).1 (Finset.mem_Ico.mp hx).2]

end

section

variable (items : List CsumItem) (start stop : ℕ)

/-- The bytes of a range that have a checksum. -/
def coveredBytes : ℕ := ((Finset.Ico start stop).filter (Covered items)).card

/-- A byte without a checksum in front of one that has a checksum. -/
def InGap (x : ℕ) : Prop := ¬ Covered items x ∧
  ∃ y ∈ Finset.Ico x stop, Covered items y

instance : DecidablePred (InGap items stop) :=
  fun _ => inferInstanceAs (Decidable (_ ∧ _))

/-- The bytes of a range that lie in a gap in front of a byte of the range with a checksum. -/
def gapBytes : ℕ :=
  ((Finset.Ico start stop).filter (InGap items stop)).card

end

/-! ## The items from the first visited one on -/

section

variable {start stop : ℕ} {items : List CsumItem} {item : CsumItem}

theorem CsumTree.tail (h : CsumTree (item :: items)) :
    CsumTree items :=
  ⟨h.disjoint.of_cons, fun a ha => h.nonempty a (List.mem_cons_of_mem item ha),
    fun a ha => h.bounded a (List.mem_cons_of_mem item ha)⟩

theorem covered_cons {x : ℕ} : Covered (item :: items) x ↔
    (item.offset ≤ x ∧ x < item.stop) ∨
      Covered items x := by
  simp [Covered]

theorem covered_cons_of_le {x : ℕ} (hx : item.stop ≤ x) :
    Covered (item :: items) x ↔ Covered items x := by
  rw [covered_cons, or_iff_right (by omega)]

/-- Nothing is covered in front of the first item. -/
theorem CsumTree.offset_le {x : ℕ} (h : CsumTree (item :: items))
    (hx : Covered (item :: items) x) : item.offset ≤ x := by
  rcases covered_cons.mp hx with hx | ⟨later, hmem, hx⟩
  · exact hx.1
  · have hafter := List.rel_of_pairwise_cons h.disjoint hmem
    have hfirst := h.nonempty item List.mem_cons_self
    omega

theorem coveredBytes_cons (h : item.stop ≤ start) :
    coveredBytes (item :: items) start stop =
      coveredBytes items start stop :=
  card_filter_Ico_congr fun _ hx _ => covered_cons_of_le (h.trans hx)

theorem gapBytes_cons (h : item.stop ≤ start) :
    gapBytes (item :: items) start stop =
      gapBytes items start stop := by
  apply card_filter_Ico_congr
  intro x hx _
  refine and_congr (covered_cons_of_le (h.trans hx)).not (exists_congr fun y => ?_)
  exact and_congr_right fun hy =>
    covered_cons_of_le ((h.trans hx).trans (Finset.mem_Ico.mp hy).1)

/-- An item that begins in the range: the bytes in front of it are a gap, its own are covered. -/
theorem CsumTree.bytes_cons (h : CsumTree (item :: items)) {t u : ℕ}
    (ht : t = max start item.offset) (hu : u ≤ item.stop) (htu : t ≤ u)
    (hstop : u ≤ stop) (hin : item.offset < stop) :
    coveredBytes (item :: items) start stop =
        u - t + coveredBytes (item :: items) u stop ∧
      gapBytes (item :: items) start stop =
        t - start + gapBytes (item :: items) u stop := by
  have hfront : ∀ x, start ≤ x → x < t → ¬ Covered (item :: items) x := by
    intro x hx hlt hcovered
    have hle := h.offset_le hcovered
    omega
  have hown : ∀ x, t ≤ x → x < u → Covered (item :: items) x :=
    fun x hx hlt => covered_cons.mpr (.inl ⟨by omega, by omega⟩)
  have hgap : ∀ x, start ≤ x → x < t → InGap (item :: items) stop x := by
    intro x hx hlt
    have hfirst := h.nonempty item List.mem_cons_self
    exact ⟨hfront x hx hlt, item.offset, Finset.mem_Ico.mpr ⟨by omega, hin⟩,
      covered_cons.mpr (.inl ⟨le_rfl, hfirst⟩)⟩
  constructor
  · rw [coveredBytes, card_filter_Ico (by omega : start ≤ t) (htu.trans hstop),
      card_filter_Ico htu hstop, card_filter_Ico_none hfront, card_filter_Ico_all hown, Nat.zero_add]
    rfl
  · rw [gapBytes, card_filter_Ico (by omega : start ≤ t) (htu.trans hstop),
      card_filter_Ico htu hstop, card_filter_Ico_all hgap,
      card_filter_Ico_none fun x hx hlt hin => hin.1 (hown x hx hlt), Nat.zero_add]
    rfl

end

/-! ## The loop over the items -/

/-- What the loop counts on the csum items that it visits. -/
def countItems : List CsumItem → CsumCount → ℕ
  | [], c => c.found
  | item :: items, c =>
    if c.len = 0 ∨ item.offset ≥ wrap64 (c.start + c.len) then c.found
    else countItems items (c.add item.offset (wrap64 item.stop))

section

variable {s l f stop : ℕ} {items : List CsumItem} {item : CsumItem}

theorem countItems_of_len_zero : countItems items ⟨s, 0, f⟩ = f := by
  cases items with
  | nil => rfl
  | cons item items => rw [countItems, if_pos (.inl rfl)]

theorem found_le_countItems (hfound : f + l < 2 ^ 64) :
    f ≤ countItems items ⟨s, l, f⟩ := by
  induction items generalizing s l f with
  | nil => exact le_rfl
  | cons item items ih =>
    rw [countItems]
    split
    · exact le_rfl
    · simp only [CsumCount.add]
      generalize (if item.offset > s then item.offset else s) = start
      split
      · rw [wrap64_of_lt (by omega : f + min _ l < 2 ^ 64)]
        exact (Nat.le_add_right f _).trans (ih (by omega))
      · exact ih hfound

theorem CsumCount.add_eq (hend : item.stop < 2 ^ 64) (hfound : f + l < 2 ^ 64)
    {t : ℕ} (ht : t = max s item.offset) (hlt : t < item.stop) :
    (⟨s, l, f⟩ : CsumCount).add item.offset (wrap64 item.stop) =
      ⟨t + min (item.stop - t) l,
        l - min (item.stop - t) l,
        f + min (item.stop - t) l⟩ := by
  have hstart : (if item.offset > s then item.offset else s) = t := by
    split <;> omega
  simp only [CsumCount.add, hstart, wrap64_of_lt hend]
  rw [if_pos hlt, wrap64_of_lt (by omega), wrap64_of_lt (by omega)]

/-- The loop never counts too little, and it counts too much exactly where bytes behind the range
have a checksum, as far as the gaps in it have shifted its end. -/
theorem countItems_spec (h : CsumTree items) (hs : s ≤ stop)
    (hstop : stop ≤ s + l) (hbound : s + l + (stop - s) < 2 ^ 64) (hfound : f + l < 2 ^ 64) :
    f + coveredBytes items s stop ≤
        countItems items ⟨s, l, f⟩ ∧
      (countItems items ⟨s, l, f⟩ =
          f + coveredBytes items s stop ↔
        ∀ x, stop ≤ x → x < s + l + gapBytes items s stop →
          ¬ Covered items x) := by
  induction items generalizing s l f with
  | nil =>
    have hnone : ∀ x, ¬ Covered [] x := by simp [Covered]
    rw [coveredBytes, card_filter_Ico_none fun x _ _ => hnone x]
    exact ⟨le_rfl, iff_of_true rfl fun x _ _ => hnone x⟩
  | cons item items ih =>
    have hend := h.bounded item List.mem_cons_self
    have hnonempty := h.nonempty item List.mem_cons_self
    have hfront : ∀ x, x < item.offset → ¬ Covered (item :: items) x :=
      fun x hx hcov => absurd (h.offset_le hcov) (by omega)
    have hlast : wrap64 (s + l) = s + l := wrap64_of_lt (by omega)
    simp only [countItems, hlast]
    by_cases hdone : l = 0 ∨ item.offset ≥ s + l
    · -- nothing from here to the shifted end is covered
      have hnone : ∀ x, s ≤ x → x < s + l → ¬ Covered (item :: items) x :=
        fun x hx hlt => hfront x (by omega)
      have hgap : gapBytes (item :: items) s stop = 0 := by
        apply card_filter_Ico_none
        rintro x hx - ⟨-, y, hy, hcov⟩
        obtain ⟨hle, hlt⟩ := Finset.mem_Ico.mp hy
        exact hnone y (by omega) (by omega) hcov
      rw [if_pos hdone, coveredBytes, card_filter_Ico_none fun x hx hlt => hnone x hx (by omega), hgap]
      exact ⟨le_rfl, iff_of_true rfl fun x hx hlt => hnone x (by omega) (by omega)⟩
    rw [if_neg hdone]
    rw [not_or] at hdone
    by_cases hbehind : stop ≤ item.offset
    · -- an item behind the range is counted
      rw [coveredBytes, card_filter_Ico_none fun x _ hlt => hfront x (by omega),
        CsumCount.add_eq hend hfound (by omega : item.offset = max s item.offset) hnonempty]
      have hge := @found_le_countItems
        (item.offset + min (item.stop - item.offset) l)
        (l - min (item.stop - item.offset) l)
        (f + min (item.stop - item.offset) l) items (by omega)
      refine ⟨by omega, iff_of_false (by omega) fun hall => ?_⟩
      exact hall item.offset hbehind (by omega) (covered_cons.mpr (.inl ⟨le_rfl, hnonempty⟩))
    obtain ⟨t, ht⟩ : ∃ t, t = max s item.offset := ⟨_, rfl⟩
    by_cases hskip : item.stop ≤ t
    · -- an item in front of the range
      have hsame : (⟨s, l, f⟩ : CsumCount).add item.offset (wrap64 item.stop) =
          ⟨s, l, f⟩ := by
        simp only [CsumCount.add, wrap64_of_lt hend]
        rw [if_neg (by omega : ¬ item.offset > s), if_neg (by omega)]
      have hle : item.stop ≤ s := by omega
      rw [hsame, coveredBytes_cons hle, gapBytes_cons hle]
      obtain ⟨hge, hiff⟩ := ih h.tail hs hstop hbound hfound
      refine ⟨hge, hiff.trans (forall₃_congr fun x hx _ => ?_)⟩
      rw [covered_cons_of_le (by omega)]
    rw [CsumCount.add_eq hend hfound ht (by omega)]
    by_cases hinside : item.stop ≤ stop
    · -- an item that ends in the range
      obtain ⟨hcovered, hgaps⟩ := h.bytes_cons ht le_rfl (by omega) hinside (by omega)
      rw [coveredBytes_cons le_rfl] at hcovered
      rw [gapBytes_cons le_rfl] at hgaps
      rw [min_eq_left (by omega : item.stop - t ≤ l),
        Nat.add_sub_cancel' (by omega : t ≤ item.stop), hcovered, hgaps]
      obtain ⟨hge, hiff⟩ := @ih (item.stop)
        (l - (item.stop - t)) (f + (item.stop - t))
        h.tail hinside (by omega) (by omega) (by omega)
      rw [← Nat.add_assoc]
      refine ⟨hge, hiff.trans (forall₂_congr fun x hx => ?_)⟩
      rw [covered_cons_of_le (hinside.trans hx)]
      have hshift : item.stop +
            (l - (item.stop - t)) +
              gapBytes items (item.stop) stop =
          s + l + (t - s + gapBytes items (item.stop) stop) := by
        omega
      rw [hshift]
    · -- the item in which the range ends
      obtain ⟨hcovered, hgaps⟩ := h.bytes_cons ht (by omega) (by omega : t ≤ stop) le_rfl (by omega)
      have hzero : coveredBytes (item :: items) stop stop = 0 ∧
          gapBytes (item :: items) stop stop = 0 := by
        simp [coveredBytes, gapBytes]
      rw [hcovered, hgaps, hzero.1, hzero.2]
      by_cases hexact : t + l = stop
      · have hmin : min (item.stop - t) l = l := by omega
        rw [hmin, Nat.sub_self, countItems_of_len_zero]
        exact ⟨by omega, iff_of_true (by omega) fun x hx hlt => by omega⟩
      · have hge := @found_le_countItems
          (t + min (item.stop - t) l)
          (l - min (item.stop - t) l)
          (f + min (item.stop - t) l) items (by omega)
        refine ⟨by omega, iff_of_false (by omega) fun hall => ?_⟩
        exact hall stop le_rfl (by omega) (covered_cons.mpr (.inl ⟨by omega, by omega⟩))

end

/-! ## The walk over the tree -/

section

variable {info : CsumInfo} {nodesize : ℕ} {blocks : Blocks} {root : ℕ} {path : Path}
  {pre before after post items : List Item} {x : Item}

def csumKey (start : ℕ) : Key := ⟨BTRFS_EXTENT_CSUM_OBJECTID, BTRFS_EXTENT_CSUM_KEY, start⟩

theorem isCsumKey_iff (key : Key) : isCsumKey key = true ↔
    key.objectid = BTRFS_EXTENT_CSUM_OBJECTID ∧ key.type = BTRFS_EXTENT_CSUM_KEY := by
  simp [isCsumKey]

theorem csumItems_append (items rest : List Item) :
    csumItems info (items ++ rest) = csumItems info items ++ csumItems info rest := by
  simp [csumItems]

theorem csumItems_cons (h : isCsumKey x.key = true) (items : List Item) :
    csumItems info (x :: items) = ⟨x.key.offset, info.csumEnd x⟩ :: csumItems info items := by
  simp [csumItems, h]

theorem csumItems_eq_nil (h : ∀ y ∈ items, isCsumKey y.key = false) : csumItems info items = [] := by
  rw [csumItems, List.map_eq_nil_iff, List.filter_eq_nil_iff]
  intro y hy
  rw [h y hy]
  exact Bool.false_ne_true

/-- Behind an item that is no csum item there are none. -/
theorem not_csum_of_lt {key key' : Key} (hfrom : csumKey 0 ≤ key) (hno : isCsumKey key = false)
    (hlt : key < key') : isCsumKey key' = false := by
  rw [Bool.eq_false_iff, ne_eq, isCsumKey_iff] at hno ⊢
  rw [← not_lt, Key.lt_iff] at hfrom
  rw [Key.lt_iff] at hlt
  simp only [csumKey] at hfrom
  omega

/-- In front of an item that is no csum item, and below a csum key, there are none. -/
theorem not_csum_of_gt {key key' : Key} {start : ℕ} (hlow : key < csumKey start)
    (hno : isCsumKey key = false) (hlt : key' < key) : isCsumKey key' = false := by
  rw [Bool.eq_false_iff, ne_eq, isCsumKey_iff] at hno ⊢
  rw [Key.lt_iff] at hlow hlt
  simp only [csumKey] at hlow
  omega

theorem csumKey_zero_le {key : Key} {start : ℕ} (h : csumKey start ≤ key) : csumKey 0 ≤ key := by
  rw [← not_lt, Key.lt_iff] at h ⊢
  simp only [csumKey] at h ⊢
  omega

/-- From a position at or behind the first csum item on the loop counts the csum items. -/
theorem countCsumLoop_eq {n : ℕ} (h : Position nodesize blocks root path pre before after post)
    (hsorted : SortedItems (after ++ post)) (hfrom : ∀ y ∈ after ++ post, csumKey 0 ≤ y.key)
    (hn : (after ++ post).length < n) (c : CsumCount) :
    countCsumLoop info blocks n path c =
      .ok (0, countItems (csumItems info (after ++ post)) c) := by
  induction n generalizing path pre before after post c with
  | zero => omega
  | succ n ih =>
    by_cases hlen : c.len = 0
    · obtain ⟨start, len, found⟩ := c
      obtain rfl : len = 0 := hlen
      rw [countCsumLoop, if_pos rfl, countItems_of_len_zero]
    -- a round that finds the path on an item
    have hround : ∀ {path pre before x rest post},
        Position nodesize blocks root path pre before (x :: rest) post →
        SortedItems (x :: rest ++ post) → (∀ y ∈ x :: rest ++ post, csumKey 0 ≤ y.key) →
        (rest ++ post).length < n →
        visitCsumItem info c (countCsumLoop info blocks n
            { path with slots := Function.update path.slots 0 (path.slots 0 + 1) })
            (path.item blocks) =
          .ok (0, countItems (csumItems info (x :: rest ++ post)) c) := by
      intro path pre before x rest post h hsorted hfrom hn
      have hitem : path.item blocks = some x := h.item_eq
      obtain ⟨hfirst, hrest⟩ := List.pairwise_cons.mp hsorted
      simp only [hitem, visitCsumItem]
      cases hcsum : isCsumKey x.key with
      | false =>
        have hnone : csumItems info (x :: rest ++ post) = [] := by
          apply csumItems_eq_nil
          refine List.forall_mem_cons.mpr ⟨hcsum, fun y hy => ?_⟩
          exact not_csum_of_lt (hfrom x List.mem_cons_self) hcsum (hfirst y hy)
        rw [hnone]
        rfl
      | true =>
        have hmoved := h.setSlot (before ++ [x]) rest (by simp)
        have hslot : (before ++ [x]).length = path.slots 0 + 1 := by
          rw [h.leaf_items.2, List.length_append, List.length_singleton]
        rw [hslot, Path.setSlot] at hmoved
        have hnext := ih hmoved hrest (fun y hy => hfrom y (List.mem_cons_of_mem x hy)) hn
          (c.add x.key.offset (wrap64 (info.csumEnd x)))
        simp only [Bool.not_true, Bool.false_eq_true, if_false, List.cons_append,
          csumItems_cons hcsum, countItems, hlen, false_or, hnext]
        split <;> rfl
    obtain ⟨hnr, hslot⟩ := h.leaf_items
    rw [countCsumLoop, if_neg hlen]
    cases after with
    | nil =>
      have hend : (path.leaf blocks).nritems ≤ path.slots 0 := by rw [hnr, hslot, List.append_nil]
      have hleaf := h.nextLeaf (path.slots 0)
      rw [Path.setSlot_eq_self] at hleaf
      simp only [hend, if_true]
      rcases hleaf with ⟨rfl, hret⟩ | ⟨path', pre', before', after', post', heq, hpos, hne, rfl⟩
      · simp only [hret]
        rfl
      · obtain ⟨x, rest, rfl⟩ := List.exists_cons_of_ne_nil hne
        simp only [heq, lt_irrefl, if_false]
        refine hround hpos hsorted hfrom ?_
        simp only [List.nil_append, List.cons_append, List.length_cons] at hn
        omega
    | cons x rest =>
      have hinside : ¬ (path.leaf blocks).nritems ≤ path.slots 0 := by
        rw [hnr, List.length_append, List.length_cons]
        omega
      simp only [hinside, if_false, lt_irrefl]
      refine hround h hsorted hfrom ?_
      simp only [List.cons_append, List.length_cons] at hn
      omega

/-- The csum items that the call visits: all from the one that begins at or before the range on,
or all of the tree. -/
theorem countCsumRange_visits (h : ValidTree nodesize blocks root items) (start len : ℕ) :
    ∃ skipped rest, items = skipped ++ rest ∧
      (csumItems info skipped = [] ∨
        ∃ first later, csumItems info rest = first :: later ∧ first.offset ≤ start) ∧
      ∀ n > items.length, countCsumRange info nodesize blocks root start len n =
        .ok (0, countItems (csumItems info rest) ⟨start, len, 0⟩) := by
  obtain ⟨ret, path, l, hsearch, hl, habove, hfound⟩ := btrfsSearchSlot_spec h (csumKey start)
  obtain ⟨pre, before, after, post, rfl, hcursor, hlow, hhigh, hfirst, hret⟩ := hfound.cursor
  have hpos : Position nodesize blocks root path pre before after post := ⟨l, hl, habove, hcursor⟩
  have hsorted := h.sorted
  rw [List.append_assoc, SortedItems, List.pairwise_append] at hsorted
  have hcall : ∀ n, countCsumRange info nodesize blocks root start len n =
      countCsumLoop info blocks n
        (if 0 < ret ∧ 0 < path.slots 0 then csumStepBack blocks path else path) ⟨start, len, 0⟩ := by
    intro n
    have hnonneg : ¬ ret < 0 := by
      rw [hret]
      split <;> decide
    have hsearch' : btrfsSearchSlot nodesize blocks root
        ⟨BTRFS_EXTENT_CSUM_OBJECTID, BTRFS_EXTENT_CSUM_KEY, start⟩ = (ret, path) := hsearch
    simp only [countCsumRange, hsearch', hnonneg, if_false]
  -- without a step back the items from the key on are visited
  have hstay : ∀ n > (pre ++ before ++ after ++ post).length,
      countCsumLoop info blocks n path ⟨start, len, 0⟩ =
        .ok (0, countItems (csumItems info (after ++ post)) ⟨start, len, 0⟩) := by
    intro n hn
    refine countCsumLoop_eq hpos hsorted.2.1 (fun y hy => csumKey_zero_le (hhigh y hy)) ?_ _
    rw [List.append_assoc, List.length_append] at hn
    omega
  -- the key itself is a csum item
  have hkey : firstKey (after ++ post) = some (csumKey start) →
      ∃ first later, csumItems info (after ++ post) = first :: later ∧ first.offset ≤ start := by
    intro hkey
    cases hitems : after ++ post with
    | nil =>
      rw [hitems] at hkey
      cases hkey
    | cons x rest =>
      rw [hitems] at hkey
      have hx : x.key = csumKey start := Option.some.inj hkey
      refine ⟨_, _, csumItems_cons ?_ rest, ?_⟩
      · rw [hx]
        exact (isCsumKey_iff _).mpr ⟨rfl, rfl⟩
      · exact (congrArg Key.offset hx).le
  by_cases hback : 0 < ret ∧ 0 < path.slots 0
  · rw [hpos.leaf_items.2] at hback
    obtain ⟨before', x, rfl⟩ : ∃ before' x, before = before' ++ [x] := by
      rcases List.eq_nil_or_concat' before with rfl | hex
      · exact absurd hback.2 (Nat.lt_irrefl 0)
      · exact hex
    have hx := hlow x (by simp)
    have hmoved := hpos.setSlot before' (x :: after) (by simp)
    have hslot : path.slots 0 - 1 = before'.length := by
      rw [hpos.leaf_items.2, List.length_append]
      rfl
    have hitem : ({ path with slots := Function.update path.slots 0 (path.slots 0 - 1) } :
        Path).item blocks = some x := by
      rw [hslot]
      exact hmoved.item_eq
    rw [← hpos.leaf_items.2] at hback
    cases hcsum : isCsumKey x.key with
    | true =>
      refine ⟨pre ++ before', x :: after ++ post, by simp, .inr ⟨_, _, csumItems_cons hcsum _, ?_⟩, ?_⟩
      · obtain ⟨hobj, htype⟩ := (isCsumKey_iff _).mp hcsum
        rw [Key.lt_iff] at hx
        simp only [csumKey] at hx
        change x.key.offset ≤ start
        omega
      · intro n hn
        rw [hcall, if_pos hback, csumStepBack, hitem]
        simp only [hcsum, if_true, hslot]
        refine countCsumLoop_eq hmoved ?_ ?_ ?_ _
        · refine List.pairwise_cons.mpr ⟨fun y hy => ?_, hsorted.2.1⟩
          exact hx.trans_le (hhigh y hy)
        · refine List.forall_mem_cons.mpr ⟨?_, fun y hy => csumKey_zero_le (hhigh y hy)⟩
          obtain ⟨hobj, htype⟩ := (isCsumKey_iff _).mp hcsum
          rw [← not_lt, Key.lt_iff]
          simp only [csumKey]
          omega
        · simp only [List.length_append, List.length_cons, List.length_nil] at hn ⊢
          omega
    | false =>
      refine ⟨pre ++ (before' ++ [x]), after ++ post, by simp, .inl ?_, ?_⟩
      · apply csumItems_eq_nil
        intro y hy
        rw [← List.append_assoc] at hy
        rcases List.mem_append.mp hy with hy | hy
        · have hsplit := hsorted.1
          rw [← List.append_assoc, List.pairwise_append] at hsplit
          exact not_csum_of_gt hx hcsum (hsplit.2.2 y hy x (by simp))
        · rwa [List.mem_singleton.mp hy]
      · intro n hn
        rw [hcall, if_pos hback, csumStepBack, hitem]
        simp only [hcsum]
        exact hstay n hn
  · refine ⟨pre ++ before, after ++ post, by simp, ?_, fun n hn => ?_⟩
    · by_cases hexact : firstKey after = some (csumKey start)
      · exact .inr (hkey (firstKey_append hexact))
      · rw [if_neg hexact] at hret
        have hbefore : before = [] := by
          rw [hret, hpos.leaf_items.2] at hback
          exact List.eq_nil_of_length_eq_zero (by omega)
        rcases hfirst hbefore with rfl | hfirst
        · left
          rw [hbefore]
          rfl
        · exact .inr (hkey hfirst)
    · rw [hcall, if_neg hback]
      exact hstay n hn

end

section

variable {start : ℕ} {skipped rest : List CsumItem}

/-- Where the visited items begin at or before the range, those in front of them end before it. -/
theorem CsumTree.covered_iff (h : CsumTree (skipped ++ rest))
    (hskipped : skipped = [] ∨ ∃ first later, rest = first :: later ∧ first.offset ≤ start) {x : ℕ}
    (hx : start ≤ x) :
    Covered (skipped ++ rest) x ↔ Covered rest x := by
  constructor
  · rintro ⟨item, hmem, hin⟩
    rcases List.mem_append.mp hmem with hfront | hvisited
    · rcases hskipped with rfl | ⟨first, later, rfl, hfirst⟩
      · cases hfront
      · have hends := (List.pairwise_append.mp h.disjoint).2.2 item hfront first List.mem_cons_self
        omega
    · exact ⟨item, hvisited, hin⟩
  · rintro ⟨item, hmem, hin⟩
    exact ⟨item, List.mem_append_right skipped hmem, hin⟩

theorem CsumTree.of_append (h : CsumTree (skipped ++ rest)) :
    CsumTree rest :=
  ⟨(List.pairwise_append.mp h.disjoint).2.1,
    fun item hmem => h.nonempty item (List.mem_append_right skipped hmem),
    fun item hmem => h.bounded item (List.mem_append_right skipped hmem)⟩

end

/-- The call finds the bytes of the range that have a checksum exactly when none of the bytes
behind it has one, as many of them as there are bytes in gaps of the range. -/
theorem countCsumRange_exact_iff {info : CsumInfo} {nodesize : ℕ} {blocks : Blocks} {root : ℕ}
    {items : List Item} (h : ValidTree nodesize blocks root items)
    (htree : CsumTree (csumItems info items)) {start len : ℕ}
    (hrange : start + 2 * len < 2 ^ 64) :
    ∃ found, (∀ n > items.length,
        countCsumRange info nodesize blocks root start len n = .ok (0, found)) ∧
      (found = coveredBytes (csumItems info items) start (start + len) ↔
        ∀ x, start + len ≤ x →
          x < start + len + gapBytes (csumItems info items) start (start + len) →
            ¬ Covered (csumItems info items) x) := by
  obtain ⟨skipped, rest, rfl, hskipped, hcall⟩ :=
    @countCsumRange_visits info _ _ _ _ h start len
  rw [csumItems_append] at htree ⊢
  have hcovered : ∀ x, start ≤ x →
      (Covered (csumItems info skipped ++ csumItems info rest) x ↔
        Covered (csumItems info rest) x) := fun x hx => htree.covered_iff hskipped hx
  have hbytes : coveredBytes (csumItems info skipped ++ csumItems info rest) start
      (start + len) = coveredBytes (csumItems info rest) start (start + len) :=
    card_filter_Ico_congr fun x hx _ => hcovered x hx
  have hgaps : gapBytes (csumItems info skipped ++ csumItems info rest) start
      (start + len) = gapBytes (csumItems info rest) start (start + len) := by
    apply card_filter_Ico_congr
    intro x hx _
    refine and_congr (hcovered x hx).not (exists_congr fun y => and_congr_right fun hy => ?_)
    exact hcovered y (hx.trans (Finset.mem_Ico.mp hy).1)
  refine ⟨_, hcall, ?_⟩
  have hspec := (@countItems_spec start len 0 (start + len) _ htree.of_append
    (by omega) le_rfl (by omega) (by omega)).2
  rw [Nat.zero_add] at hspec
  rw [hbytes, hgaps, hspec]
  refine forall₃_congr fun x hx _ => ?_
  rw [hcovered x (by omega)]

/-! ## Csum trees of two leaves -/

/-- A csum item at an offset with checksums of four bytes. -/
def csumItem (offset count : ℕ) : Item := ⟨csumKey offset, List.replicate (4 * count) 0⟩

/-- A csum tree with the given items in its two leaves. -/
def csumLeaves (left right : List Item) (key key' : Key) : Blocks := fun bytenr =>
  match bytenr with
  | 1 => some ⟨1, 0, [], [⟨key, 2, 0⟩, ⟨key', 3, 0⟩]⟩
  | 2 => some ⟨0, 0, left, []⟩
  | 3 => some ⟨0, 0, right, []⟩
  | _ => none

theorem csumLeaves_valid {left right : List Item} {key key' : Key} (hleft : firstKey left = some key)
    (hright : firstKey right = some key') (hfits : leafSpaceUsed left ≤ leafDataSize 4096)
    (hfits' : leafSpaceUsed right ≤ leafDataSize 4096) (hsorted : SortedItems (left ++ right)) :
    ValidTree 4096 (csumLeaves left right key key') 1 (left ++ right) where
  subtree := by
    refine ⟨1, by decide, _, rfl, rfl, by simp, (by decide : 2 ≤ nodeptrsPerBlock 4096), ?_⟩
    have hl : Subtree 4096 (csumLeaves left right key key') 0 2 left := ⟨_, rfl, rfl, rfl, hfits⟩
    have hr : Subtree 4096 (csumLeaves left right key key') 0 3 right := ⟨_, rfl, rfl, rfl, hfits'⟩
    have hrest : Children (Subtree 4096 (csumLeaves left right key key') 0) [⟨key', 3, 0⟩]
        (right ++ []) := .cons hr hright .nil
    rw [List.append_nil] at hrest
    exact Children.cons (p := ⟨key, 2, 0⟩) hl hleft hrest
  sorted := hsorted

/-- Checksums of the sectors at 0, 8 KiB and 16 KiB, and of one far behind. -/
def fourSectors : List Item := [csumItem 0 1, csumItem 8192 1] ++ [csumItem 16384 1, csumItem 1048576 1]

/-- A range that begins in a gap and ends with an item of the second leaf. -/
theorem countCsumRange_twoLeaves : ∃ found, (∀ n > 4, countCsumRange ⟨4, 4096⟩ 4096
        (csumLeaves [csumItem 0 1, csumItem 8192 1] [csumItem 16384 1, csumItem 1048576 1]
          (csumKey 0) (csumKey 16384)) 1 4096 16384 n = .ok (0, found)) ∧
      found = coveredBytes (csumItems ⟨4, 4096⟩ fourSectors) 4096 20480 := by
  have hvalid : ValidTree 4096 (csumLeaves [csumItem 0 1, csumItem 8192 1]
      [csumItem 16384 1, csumItem 1048576 1] (csumKey 0) (csumKey 16384)) 1 fourSectors :=
    csumLeaves_valid rfl rfl (by decide) (by decide)
      (by simp [SortedItems, csumItem, csumKey, Key.lt_iff])
  have htree : CsumTree (csumItems ⟨4, 4096⟩ fourSectors) := ⟨by decide, by decide, by decide⟩
  obtain ⟨found, hcall, hiff⟩ := countCsumRange_exact_iff hvalid htree
    (by decide : 4096 + 2 * 16384 < 2 ^ 64)
  refine ⟨found, hcall, hiff.mpr ?_⟩
  intro x hx hlt
  have hgaps : gapBytes (csumItems ⟨4, 4096⟩ fourSectors) 4096 (4096 + 16384) ≤ 16384 :=
    (Finset.card_filter_le _ _).trans (Nat.card_Ico _ _).le
  have hitems : csumItems ⟨4, 4096⟩ fourSectors = [⟨0, 4096⟩, ⟨8192, 12288⟩, ⟨16384, 20480⟩, ⟨1048576, 1052672⟩] := by decide
  rw [hitems]
  simp only [Covered, List.mem_cons, List.not_mem_nil, or_false]
  rintro ⟨item, rfl | rfl | rfl | rfl, hin⟩ <;> simp only at hin <;> omega

/-- The first sector has no checksum, and a sector behind the range is counted for it. -/
theorem countCsumRange_gap :
    ValidTree 4096 (csumLeaves [csumItem 4096 2] [csumItem 1048576 1] (csumKey 4096)
        (csumKey 1048576)) 1 ([csumItem 4096 2] ++ [csumItem 1048576 1]) ∧
      CsumTree (csumItems ⟨4, 4096⟩ ([csumItem 4096 2] ++ [csumItem 1048576 1])) ∧
      countCsumRange ⟨4, 4096⟩ 4096 (csumLeaves [csumItem 4096 2] [csumItem 1048576 1] (csumKey 4096)
        (csumKey 1048576)) 1 0 8192 3 = .ok (0, 8192) ∧
      coveredBytes (csumItems ⟨4, 4096⟩ ([csumItem 4096 2] ++ [csumItem 1048576 1])) 0 8192 = 4096 := by
  have hitems : csumItems ⟨4, 4096⟩ ([csumItem 4096 2] ++ [csumItem 1048576 1]) =
      [⟨4096, 12288⟩, ⟨1048576, 1052672⟩] := by decide
  refine ⟨csumLeaves_valid rfl rfl (by decide) (by decide)
      (by simp [SortedItems, csumItem, csumKey, Key.lt_iff]), ⟨by decide, by decide, by decide⟩,
    by decide, ?_⟩
  rw [hitems, coveredBytes, card_filter_Ico (Nat.zero_le 4096) (by decide : 4096 ≤ 8192),
    card_filter_Ico_none, card_filter_Ico_all]
  · intro x hx hlt
    exact ⟨⟨4096, 12288⟩, by simp, hx, hlt.trans (by decide)⟩
  · simp only [Covered, List.mem_cons, List.not_mem_nil, or_false]
    rintro x - hlt ⟨item, rfl | rfl, hin⟩ <;> simp only at hin <;> omega

end Btrfs.Check
