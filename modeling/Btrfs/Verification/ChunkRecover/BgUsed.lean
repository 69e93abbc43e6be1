import Btrfs.Model.ChunkRecover
import Btrfs.Verification.DevExtents.Correctness

/-! # The used bytes of a rebuilt block group

`calculate_bg_used` moves on only from the last slot of a leaf, and it looks for the items of file
extents under the type that they have in a subvolume. -/

namespace Btrfs.ChunkRecover

open Ctree
open DevExtents (oneLeaf oneLeaf_valid)

variable {nodesize : ℕ} {blocks : Blocks} {root : ℕ} {path : Path}
  {pre before after post items : List Item} {behind : ExtentBuffer → Key} {chunk : ChunkRecord}

def ChunkRecord.contains (chunk : ChunkRecord) (item : Item) : Prop :=
  chunk.offset ≤ item.key.objectid ∧ item.key.objectid < chunk.offset + chunk.length

instance (chunk : ChunkRecord) (item : Item) : Decidable (chunk.contains item) :=
  inferInstanceAs (Decidable (_ ∧ _))

/-- The bytes that an item of the extent tree takes in the chunk. -/
def extentBytes (nodesize : ℕ) (chunk : ChunkRecord) (item : Item) : ℕ :=
  if ¬ chunk.contains item then 0
  else if item.key.type = BTRFS_EXTENT_ITEM_KEY then item.key.offset
  else if item.key.type = BTRFS_METADATA_ITEM_KEY then nodesize
  else 0

def usedBytes (nodesize : ℕ) (chunk : ChunkRecord) (items : List Item) : ℕ :=
  (items.map (extentBytes nodesize chunk)).sum

theorem usedBytes_eq_zero (h : ∀ x ∈ items, extentBytes nodesize chunk x = 0) :
    usedBytes nodesize chunk items = 0 := by
  apply List.sum_eq_zero
  intro n hn
  obtain ⟨x, hx, rfl⟩ := List.mem_map.mp hn
  exact h x hx

theorem usedBytes_append (xs ys : List Item) :
    usedBytes nodesize chunk (xs ++ ys) = usedBytes nodesize chunk xs + usedBytes nodesize chunk ys := by
  rw [usedBytes, List.map_append, List.sum_append]
  rfl

/-- The bytes of the extent items of file data in the chunk, which the loop does not count. -/
def dataBytes (chunk : ChunkRecord) (items : List Item) : ℕ :=
  (items.map fun item => if chunk.contains item ∧ item.key.type = BTRFS_EXTENT_ITEM_KEY then
    item.key.offset else 0).sum

/-- The bytes of the tree blocks in the chunk. -/
def treeBytes (nodesize : ℕ) (chunk : ChunkRecord) (items : List Item) : ℕ :=
  (items.map fun item => if chunk.contains item ∧ item.key.type = BTRFS_METADATA_ITEM_KEY then
    nodesize else 0).sum

theorem usedBytes_eq (nodesize : ℕ) (chunk : ChunkRecord) (items : List Item) :
    usedBytes nodesize chunk items = treeBytes nodesize chunk items + dataBytes chunk items := by
  induction items with
  | nil => rfl
  | cons x items ih =>
    simp only [usedBytes, treeBytes, dataBytes, List.map_cons, List.sum_cons] at ih ⊢
    rw [ih, extentBytes]
    have hne : BTRFS_EXTENT_ITEM_KEY ≠ BTRFS_METADATA_ITEM_KEY := by decide
    by_cases hin : chunk.contains x
    · by_cases hdata : x.key.type = BTRFS_EXTENT_ITEM_KEY
      · simp only [hin, hdata, not_true_eq_false, if_false, if_true, true_and, hne]
        omega
      · simp only [hin, hdata, not_true_eq_false, if_false, true_and]
        omega
    · simp only [hin, not_false_eq_true, if_true, false_and, if_false]
      omega

/-- From one leaf to the next while the loop is on an item below the end of the chunk. -/
def Follows (blocks : Blocks) (chunk : ChunkRecord) (p q : Path) : Prop :=
  (∃ x, p.item blocks = some x ∧ x.key.objectid < chunk.offset + chunk.length) ∧
    btrfsNextLeaf blocks p = (0, q)

/-- In the leaves that are met from the path on, an item below the end of the chunk is met only in
the last slot. -/
def LastSlots (blocks : Blocks) (chunk : ChunkRecord) (path : Path) : Prop :=
  ∀ q, Relation.ReflTransGen (Follows blocks chunk) path q →
    ∀ x, q.item blocks = some x → x.key.objectid < chunk.offset + chunk.length →
      (q.leaf blocks).nritems ≤ q.slots 0 + 1

theorem lastSlots_of_end {x : Item} (hitem : path.item blocks = some x)
    (hend : chunk.offset + chunk.length ≤ x.key.objectid) : LastSlots blocks chunk path := by
  intro q hq y hy hlt
  rcases hq.cases_head with rfl | ⟨p, ⟨⟨z, hz, hzlt⟩, -⟩, -⟩
  · obtain rfl := Option.some.inj (hitem.symm.trans hy)
    omega
  · obtain rfl := Option.some.inj (hitem.symm.trans hz)
    omega

theorem lastSlots_next {x : Item} {path' : Path} (hitem : path.item blocks = some x)
    (hlt : x.key.objectid < chunk.offset + chunk.length)
    (hlast : (path.leaf blocks).nritems ≤ path.slots 0 + 1)
    (hnext : btrfsNextLeaf blocks path = (0, path')) :
    LastSlots blocks chunk path ↔ LastSlots blocks chunk path' := by
  constructor
  · intro h q hq
    exact h q (hq.head ⟨⟨x, hitem, hlt⟩, hnext⟩)
  · intro h q hq y hy hylt
    rcases hq.cases_head with rfl | ⟨p, ⟨-, hp⟩, hq⟩
    · exact hlast
    · obtain rfl := (Prod.mk.inj (hnext.symm.trans hp)).2
      exact h q hq y hy hylt

theorem lastSlots_of_no_next {ret : ℤ} {path' : Path} (hret : ret ≠ 0)
    (hlast : (path.leaf blocks).nritems ≤ path.slots 0 + 1)
    (hnext : btrfsNextLeaf blocks path = (ret, path')) : LastSlots blocks chunk path := by
  intro q hq y hy hylt
  rcases hq.cases_head with rfl | ⟨p, ⟨-, hp⟩, -⟩
  · exact hlast
  · exact absurd (Prod.mk.inj (hnext.symm.trans hp)).1 hret

theorem calculateBgUsed_stuck {x : Item} (hi : path.item blocks = some x)
    (hinside : x.key.objectid < wrap64 (chunk.offset + chunk.length))
    (hm : path.slots 0 + 1 < (path.leaf blocks).nritems) (n used : ℕ) :
    calculateBgUsed nodesize blocks behind chunk n path used = .error .outOfRounds := by
  induction n generalizing used with
  | zero => rfl
  | succ n ih =>
    simp only [calculateBgUsed, hi, Option.map_some, Option.getD_some, not_le.mpr hinside,
      if_false, hm, if_true, ih]

theorem treeBytes_eq_zero (h : ∀ x ∈ items, chunk.offset + chunk.length ≤ x.key.objectid) :
    treeBytes nodesize chunk items = 0 := by
  apply List.sum_eq_zero
  intro n hn
  obtain ⟨x, hx, rfl⟩ := List.mem_map.mp hn
  have hle := h x hx
  rw [if_neg]
  rintro ⟨⟨-, hlt⟩, -⟩
  omega

/-- From an item on the loop counts the tree blocks, or it never ends. -/
theorem calculateBgUsed_loop {x : Item} {rest : List Item}
    (h : Position nodesize blocks root path pre before (x :: rest) post)
    (hend : chunk.offset + chunk.length < 2 ^ 64) (hsorted : SortedItems (x :: rest ++ post))
    (hitems : ∀ y ∈ x :: rest ++ post,
      chunk.offset ≤ y.key.objectid ∧ y.key.type ≠ BTRFS_EXTENT_DATA_KEY) :
    (LastSlots blocks chunk path → ∀ used n, post.length < n →
      calculateBgUsed nodesize blocks behind chunk n path (wrap64 used) =
        .ok (0, some (wrap64 (used + treeBytes nodesize chunk (x :: rest ++ post))))) ∧
    (¬ LastSlots blocks chunk path → ∀ used n,
      calculateBgUsed nodesize blocks behind chunk n path used = .error .outOfRounds) := by
  induction hsize : post.length using Nat.strong_induction_on generalizing path pre before x rest post
    with
  | _ size ih =>
  have hitem : path.item blocks = some x := h.item_eq
  obtain ⟨hfirst, -⟩ := List.pairwise_cons.mp hsorted
  obtain ⟨hlow, htype⟩ := hitems x (by simp)
  rcases Nat.lt_or_ge x.key.objectid (chunk.offset + chunk.length) with hlt | hge
  swap
  · -- the items behind a key are not below it
    refine ⟨fun _ used n hn => ?_, fun hnot => absurd (lastSlots_of_end hitem hge) hnot⟩
    obtain ⟨n, rfl⟩ := Nat.exists_eq_add_one_of_ne_zero (show n ≠ 0 by omega)
    simp only [calculateBgUsed, hitem, Option.map_some, Option.getD_some]
    rw [wrap64_of_lt hend, if_pos hge, treeBytes_eq_zero, Nat.add_zero]
    intro y hy
    rcases List.mem_cons.mp hy with rfl | hy
    · exact hge
    · have hkey := (Key.lt_iff _ _).mp (hfirst y hy)
      omega
  rcases Nat.lt_or_ge (path.slots 0 + 1) (path.leaf blocks).nritems with hmore | hlast
  · refine ⟨fun hslots => absurd (hslots path .refl x hitem hlt) (by omega), fun _ used n => ?_⟩
    exact calculateBgUsed_stuck hitem (by rwa [wrap64_of_lt hend]) hmore n used
  have hrest : rest = [] := by
    obtain ⟨hnr, hs⟩ := h.leaf_items
    rw [hnr, List.length_append, List.length_cons] at hlast
    exact List.length_eq_zero_iff.mp (by omega)
  subst hrest
  have hcontains : chunk.contains x := ⟨hlow, hlt⟩
  have hadd : ∀ used, (if x.key.type = BTRFS_METADATA_ITEM_KEY then wrap64 (wrap64 used + nodesize)
      else if x.key.type = BTRFS_EXTENT_DATA_KEY then wrap64 (wrap64 used + x.key.offset)
      else wrap64 used) = wrap64 (used + if chunk.contains x ∧
        x.key.type = BTRFS_METADATA_ITEM_KEY then nodesize else 0) := by
    intro used
    simp only [hcontains, true_and, htype, if_false]
    split <;> simp [wrap64]
  have hnext := h.nextLeaf (path.slots 0)
  rw [Path.setSlot_eq_self] at hnext
  rcases hnext with ⟨rfl, hret⟩ | ⟨path', _, _, after', post', heq, hpos, hafter, rfl⟩
  · obtain ⟨path', hnone⟩ : ∃ path', btrfsNextLeaf blocks path = (1, path') :=
      ⟨_, Prod.ext hret rfl⟩
    refine ⟨fun _ used n hn => ?_, fun hnot =>
      absurd (lastSlots_of_no_next (by decide) hlast hnone) hnot⟩
    obtain ⟨n, rfl⟩ := Nat.exists_eq_add_one_of_ne_zero (show n ≠ 0 by omega)
    simp only [calculateBgUsed, hitem, Option.map_some, Option.getD_some]
    rw [wrap64_of_lt hend, if_neg (not_le.mpr hlt), if_neg (not_lt.mpr hlast), hadd, hnone]
    simp [treeBytes]
  · obtain ⟨y, rest', rfl⟩ := List.exists_cons_of_ne_nil hafter
    obtain ⟨hcounts, hloops⟩ := ih post'.length (by simp at hsize; omega) hpos
      (List.pairwise_cons.mp hsorted).2 (List.forall_mem_cons.mp hitems).2 rfl
    rw [lastSlots_next hitem hlt hlast heq]
    refine ⟨fun hslots used n hn => ?_, fun hnot used n => ?_⟩
    · obtain ⟨n, rfl⟩ := Nat.exists_eq_add_one_of_ne_zero (show n ≠ 0 by omega)
      simp only [calculateBgUsed, hitem, Option.map_some, Option.getD_some]
      rw [wrap64_of_lt hend, if_neg (not_le.mpr hlt), if_neg (not_lt.mpr hlast), hadd, heq]
      refine (hcounts hslots _ n (by simp at hsize; omega)).trans ?_
      simp only [List.singleton_append, treeBytes, List.map_cons, List.sum_cons, Nat.add_assoc]
    · cases n with
      | zero => rfl
      | succ n =>
        simp only [calculateBgUsed, hitem, Option.map_some, Option.getD_some]
        rw [wrap64_of_lt hend, if_neg (not_le.mpr hlt), if_neg (not_lt.mpr hlast), heq]
        exact hloops hnot _ n

/-! ## The call -/

/-- What the loop adds for the key that it reads in a slot behind the last item. -/
def strayBytes (nodesize : ℕ) (key : Key) : ℕ :=
  if key.type = BTRFS_METADATA_ITEM_KEY then nodesize
  else if key.type = BTRFS_EXTENT_DATA_KEY then key.offset
  else 0

/-- When the count is right: from an item on only last slots are met and the chunk holds no file data;
from a slot behind the items of a leaf, what is read there has to make up for the rest. -/
def CountsRight (nodesize : ℕ) (blocks : Blocks) (behind : ExtentBuffer → Key) (chunk : ChunkRecord)
    (items : List Item) (path : Path) : Prop :=
  match path.item blocks with
  | some _ => LastSlots blocks chunk path ∧ dataBytes chunk items ≡ 0 [MOD 2 ^ 64]
  | none =>
    if chunk.offset + chunk.length ≤ (behind (path.leaf blocks)).objectid then
      usedBytes nodesize chunk items ≡ 0 [MOD 2 ^ 64]
    else (∀ path', btrfsNextLeaf blocks path = (0, path') → LastSlots blocks chunk path') ∧
      dataBytes chunk items ≡ strayBytes nodesize (behind (path.leaf blocks)) [MOD 2 ^ 64]

theorem returns_iff {p : Prop} {run : ℕ → Call (ℤ × Option ℕ)} {bound used tree data : ℕ}
    (hok : p → ∀ n, bound < n → run n = .ok (0, some (wrap64 (used + tree))))
    (hloops : ¬ p → ∀ n, run n = .error .outOfRounds) :
    (∃ rounds, ∀ n ≥ rounds, run n = .ok (0, some (wrap64 (tree + data)))) ↔
      p ∧ data ≡ used [MOD 2 ^ 64] := by
  by_cases hp : p
  · simp only [hp, true_and]
    constructor
    · rintro ⟨rounds, hrun⟩
      have heq := (hok hp (max rounds (bound + 1)) (by omega)).symm.trans (hrun _ (le_max_left _ _))
      have hwrap : wrap64 (used + tree) = wrap64 (tree + data) :=
        Option.some.inj (Prod.mk.inj (Except.ok.inj heq)).2
      unfold wrap64 at hwrap
      unfold Nat.ModEq
      omega
    · intro hmod
      refine ⟨bound + 1, fun n hn => (hok hp n hn).trans ?_⟩
      have hwrap : wrap64 (used + tree) = wrap64 (tree + data) := by
        unfold wrap64
        unfold Nat.ModEq at hmod
        omega
      rw [hwrap]
  · refine iff_of_false ?_ fun h => hp h.1
    rintro ⟨rounds, hrun⟩
    exact absurd ((hloops hp rounds).symm.trans (hrun rounds le_rfl)) (by simp)

/-- From a slot behind the items of its leaf. -/
theorem calculateBgUsed_behind (h : Position nodesize blocks root path pre before [] post)
    (hend : chunk.offset + chunk.length < 2 ^ 64) (hsorted : SortedItems post)
    (hitems : ∀ y ∈ post, chunk.offset ≤ y.key.objectid ∧ y.key.type ≠ BTRFS_EXTENT_DATA_KEY)
    (hlow : (behind (path.leaf blocks)).objectid < chunk.offset + chunk.length) :
    ((∀ path', btrfsNextLeaf blocks path = (0, path') → LastSlots blocks chunk path') →
      ∀ n, post.length + 1 < n → calculateBgUsed nodesize blocks behind chunk n path 0 =
        .ok (0, some (wrap64 (strayBytes nodesize (behind (path.leaf blocks)) +
          treeBytes nodesize chunk post)))) ∧
    ((¬ ∀ path', btrfsNextLeaf blocks path = (0, path') → LastSlots blocks chunk path') →
      ∀ n, calculateBgUsed nodesize blocks behind chunk n path 0 = .error .outOfRounds) := by
  have hitem : path.item blocks = none := h.item_eq
  obtain ⟨hnr, hslot⟩ := h.leaf_items
  have hlast : ¬ path.slots 0 + 1 < (path.leaf blocks).nritems := by
    rw [hnr, List.append_nil]
    omega
  have hstray : (if (behind (path.leaf blocks)).type = BTRFS_METADATA_ITEM_KEY then
      wrap64 (0 + nodesize) else if (behind (path.leaf blocks)).type = BTRFS_EXTENT_DATA_KEY then
      wrap64 (0 + (behind (path.leaf blocks)).offset) else 0) =
        wrap64 (strayBytes nodesize (behind (path.leaf blocks))) := by
    rw [strayBytes]
    split_ifs <;> simp [wrap64]
  have hstep : ∀ n, calculateBgUsed nodesize blocks behind chunk (n + 1) path 0 =
      if 0 < (btrfsNextLeaf blocks path).1 then
        .ok (0, some (wrap64 (strayBytes nodesize (behind (path.leaf blocks)))))
      else if (btrfsNextLeaf blocks path).1 < 0 then .ok ((btrfsNextLeaf blocks path).1, none)
      else calculateBgUsed nodesize blocks behind chunk n (btrfsNextLeaf blocks path).2
        (wrap64 (strayBytes nodesize (behind (path.leaf blocks)))) := by
    intro n
    simp only [calculateBgUsed, hitem, Option.map_none, Option.getD_none]
    rw [wrap64_of_lt hend, if_neg (not_le.mpr hlow), if_neg hlast, hstray]
  have hnext := h.nextLeaf (path.slots 0)
  rw [Path.setSlot_eq_self] at hnext
  rcases hnext with ⟨rfl, hret⟩ | ⟨path', _, _, after', post', heq, hpos, hafter, rfl⟩
  · refine ⟨fun _ n hn => ?_, fun hnot => absurd (fun path' hp => ?_) hnot⟩
    · obtain ⟨n, rfl⟩ := Nat.exists_eq_add_one_of_ne_zero (show n ≠ 0 by omega)
      rw [hstep, hret]
      simp [treeBytes]
    · rw [hp] at hret
      exact absurd hret.symm Int.one_ne_zero
  · obtain ⟨y, rest', rfl⟩ := List.exists_cons_of_ne_nil hafter
    obtain ⟨hcounts, hloops⟩ := @calculateBgUsed_loop nodesize blocks root path' _ _ post' behind chunk
      y rest' hpos hend hsorted hitems
    have honly : (∀ q, btrfsNextLeaf blocks path = (0, q) → LastSlots blocks chunk q) ↔
        LastSlots blocks chunk path' := by
      constructor
      · exact fun hall => hall path' heq
      · intro hslots q hq
        rwa [← (Prod.mk.inj (heq.symm.trans hq)).2]
    rw [honly]
    refine ⟨fun hslots n hn => ?_, fun hnot n => ?_⟩
    · obtain ⟨n, rfl⟩ := Nat.exists_eq_add_one_of_ne_zero (show n ≠ 0 by omega)
      rw [hstep, heq]
      exact hcounts hslots _ n (by simp at hn; omega)
    · cases n with
      | zero => rfl
      | succ n =>
        rw [hstep, heq]
        exact hloops hnot _ n

/-- `calculate_bg_used` ends with what is stored in the chunk exactly when the loop only meets tree
blocks in last slots and what it reads behind the items makes no difference. -/
theorem calculateBgUsed_exact_iff (h : ValidTree nodesize blocks root items)
    (hextents : ∀ x ∈ items, x.key.type ≠ BTRFS_EXTENT_DATA_KEY) (behind : ExtentBuffer → Key)
    (hend : chunk.offset + chunk.length < 2 ^ 64) :
    (∃ rounds, ∀ n ≥ rounds, calculateBgUsed nodesize blocks behind chunk n
        (btrfsSearchSlot nodesize blocks root ⟨chunk.offset, BTRFS_EXTENT_ITEM_KEY, 0⟩).2 0 =
      .ok (0, some (wrap64 (usedBytes nodesize chunk items)))) ↔
    CountsRight nodesize blocks behind chunk items
      (btrfsSearchSlot nodesize blocks root ⟨chunk.offset, BTRFS_EXTENT_ITEM_KEY, 0⟩).2 := by
  obtain ⟨ret, path, l, hsearch, hl, habove, hfound⟩ :=
    btrfsSearchSlot_spec h ⟨chunk.offset, BTRFS_EXTENT_ITEM_KEY, 0⟩
  obtain ⟨pre, before, after, post, rfl, hcursor, hlow, hhigh, -⟩ := hfound.cursor
  rw [hsearch]
  have hpos : Position nodesize blocks root path pre before after post := ⟨l, hl, habove, hcursor⟩
  rw [List.append_assoc] at h hextents ⊢
  -- nothing in front of the position is counted
  have hskipped : usedBytes nodesize chunk (pre ++ before) = 0 := by
    apply usedBytes_eq_zero
    intro y hy
    have hkey := (Key.lt_iff _ _).mp (hlow y hy)
    simp only [BTRFS_EXTENT_ITEM_KEY] at hkey
    unfold extentBytes ChunkRecord.contains BTRFS_EXTENT_ITEM_KEY BTRFS_METADATA_ITEM_KEY
    split_ifs <;> omega
  have hdata : dataBytes chunk (pre ++ before ++ (after ++ post)) = dataBytes chunk (after ++ post) := by
    rw [usedBytes_eq] at hskipped
    rw [dataBytes, List.map_append, List.sum_append]
    simp only [dataBytes] at hskipped ⊢
    omega
  have hused : usedBytes nodesize chunk (pre ++ before ++ (after ++ post)) =
      treeBytes nodesize chunk (after ++ post) + dataBytes chunk (after ++ post) := by
    rw [usedBytes_append, hskipped, usedBytes_eq, Nat.zero_add]
  have hsorted := (List.pairwise_append.mp h.sorted).2.1
  have hitems : ∀ y ∈ after ++ post,
      chunk.offset ≤ y.key.objectid ∧ y.key.type ≠ BTRFS_EXTENT_DATA_KEY := by
    intro y hy
    have hkey : ¬ y.key.objectid < chunk.offset := fun hlt =>
      not_lt.mpr (hhigh y hy) ((Key.lt_iff _ _).mpr (.inl hlt))
    exact ⟨not_lt.mp hkey, hextents y (List.mem_append_right _ hy)⟩
  rw [CountsRight, hpos.item_eq, hdata, hused]
  cases after with
  | cons x rest =>
    obtain ⟨hcounts, hloops⟩ := @calculateBgUsed_loop nodesize blocks root path pre before post behind
      chunk x rest hpos hend hsorted hitems
    exact returns_iff (fun hslots n hn => hcounts hslots 0 n hn) fun hnot n => hloops hnot 0 n
  | nil =>
    simp only [List.head?_nil]
    split_ifs with hbehind
    · have hcall : ∀ n, 0 < n → calculateBgUsed nodesize blocks behind chunk n path 0 =
          .ok (0, some (wrap64 (0 + 0))) := by
        intro n hn
        obtain ⟨n, rfl⟩ := Nat.exists_eq_add_one_of_ne_zero (show n ≠ 0 by omega)
        simp only [calculateBgUsed, show path.item blocks = none from hpos.item_eq, Option.map_none,
          Option.getD_none]
        rw [wrap64_of_lt hend, if_pos hbehind]
        rfl
      have hiff := @returns_iff True _ 0 0 0 (treeBytes nodesize chunk ([] ++ post) +
        dataBytes chunk ([] ++ post)) (fun _ n hn => hcall n hn) (by simp)
      simpa using hiff
    · obtain ⟨hcounts, hloops⟩ := @calculateBgUsed_behind nodesize blocks root path pre before post
        behind chunk hpos hend hsorted hitems (not_le.mp hbehind)
      exact returns_iff hcounts hloops

/-! ## Tree blocks in one leaf -/

def treeBlockItem (bytenr : ℕ) : Item := ⟨⟨bytenr, BTRFS_METADATA_ITEM_KEY, 0⟩, []⟩

/-- The chunk from 1 MiB to 9 MiB. -/
def metadataChunk : ChunkRecord := ⟨1048576, 8388608, 0, 65536, 2, 0⟩

def oneTreeBlock : List Item := [treeBlockItem 1048576]

theorem calculateBgUsed_oneTreeBlock :
    ∃ rounds, ∀ n ≥ rounds, calculateBgUsed 4096 (oneLeaf oneTreeBlock) (fun _ => ⟨0, 0, 0⟩)
        metadataChunk n (btrfsSearchSlot 4096 (oneLeaf oneTreeBlock) 1
          ⟨1048576, BTRFS_EXTENT_ITEM_KEY, 0⟩).2 0 = .ok (0, some 4096) := by
  have hvalid : ValidTree 4096 (oneLeaf oneTreeBlock) 1 oneTreeBlock :=
    oneLeaf_valid (by decide) (List.pairwise_singleton _ _)
  refine (@calculateBgUsed_exact_iff _ _ _ _ metadataChunk hvalid (by decide) _ (by decide)).mpr
    ⟨?_, by decide⟩
  intro q hq x hx _
  rcases hq.cases_head with rfl | ⟨p, ⟨-, hs⟩, -⟩
  · decide
  · have hl : (btrfsNextLeaf (oneLeaf oneTreeBlock) (btrfsSearchSlot 4096
        (oneLeaf oneTreeBlock) 1 ⟨1048576, BTRFS_EXTENT_ITEM_KEY, 0⟩).2).1 = 1 := by decide
    exact absurd (hl.symm.trans (congrArg Prod.fst hs)) Int.one_ne_zero

def twoTreeBlocks : List Item := [treeBlockItem 1048576, treeBlockItem 1052672]

/-- With a second tree block in the leaf the loop stays on the first one. -/
theorem calculateBgUsed_twoTreeBlocks :
    ValidTree 4096 (oneLeaf twoTreeBlocks) 1 twoTreeBlocks ∧
      ∀ behind n, calculateBgUsed 4096 (oneLeaf twoTreeBlocks) behind metadataChunk n
        (btrfsSearchSlot 4096 (oneLeaf twoTreeBlocks) 1
          ⟨1048576, BTRFS_EXTENT_ITEM_KEY, 0⟩).2 0 = .error .outOfRounds := by
  refine ⟨oneLeaf_valid (by decide) ?_, ?_⟩
  · simp [SortedItems, twoTreeBlocks, treeBlockItem, Key.lt_iff]
  · intro behind n
    exact calculateBgUsed_stuck (x := treeBlockItem 1048576) (by decide) (by decide) (by decide) n 0

end Btrfs.ChunkRecover
