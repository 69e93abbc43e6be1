import Btrfs.Verification.Ctree.Search

/-! # Iteration over a tree -/

namespace Btrfs.Ctree

variable {nodesize : ℕ} {blocks : Blocks} {l b : ℕ} {items pre before after post : List Item}
  {path : Path}

def Path.setSlot (path : Path) (level slot : ℕ) : Path :=
  { path with slots := Function.update path.slots level slot }

@[simp] theorem Path.setSlot_nodes (path : Path) (level slot : ℕ) :
    (path.setSlot level slot).nodes = path.nodes := rfl

@[simp] theorem Path.setSlot_self (path : Path) (level slot : ℕ) :
    (path.setSlot level slot).slots level = slot := by
  simp [Path.setSlot]

theorem Path.setSlot_eq_self (path : Path) (level : ℕ) :
    path.setSlot level (path.slots level) = path := by
  simp [Path.setSlot]

theorem Path.setSlot_of_ne (path : Path) {level level' : ℕ} (slot : ℕ) (h : level' ≠ level) :
    (path.setSlot level slot).slots level' = path.slots level' := by
  simp [Path.setSlot, h]

theorem sameAbove_setSlot (path : Path) {l' : ℕ} (slot : ℕ) (h : l' ≤ l) :
    SameAbove l path (path.setSlot l' slot) := by
  intro level hlevel
  have hne : level ≠ l' := by omega
  exact ⟨rfl, path.setSlot_of_ne slot hne⟩

theorem nritems_of_node {eb : ExtentBuffer} (h : eb.level = l + 1) :
    eb.nritems = eb.ptrs.length := by
  rw [ExtentBuffer.nritems, keys_of_node h, List.length_map]

theorem firstKey_ne_nil {key : Key} (h : firstKey items = some key) : items ≠ [] := by
  rintro rfl
  cases h

theorem Cursor.toSubtree (h : Cursor nodesize blocks path l b pre before after post) :
    Subtree nodesize blocks l b (pre ++ before ++ after ++ post) := by
  induction h with
  | leaf _ _ hsub => simpa using hsub
  | node _ hblock hlevel hp hf _ hl _ hkey hright ih =>
    refine ⟨_, hblock, hlevel, ?_, hf, ?_⟩
    · rw [hp]
      simp
    · rw [hp]
      have hchildren := hl.append (.cons ih hkey hright)
      simpa using hchildren

/-! ## The first leaf below a block -/

theorem nextLeafDown_spec (l : ℕ) (h : Subtree nodesize blocks l b items) (hne : items ≠ [])
    (path : Path) :
    ∃ path' after post, nextLeafDown blocks (l + 1) b path = (0, path') ∧
      SameAbove l path path' ∧ Cursor nodesize blocks path' l b [] [] after post ∧
      after ≠ [] ∧ after ++ post = items := by
  induction l generalizing b items path with
  | zero =>
    exact ⟨path.set 0 b 0, items, [], rfl, sameAbove_set path _ _ le_rfl,
      .leaf (by simp) (by simp) h, hne, by simp⟩
  | succ l ih =>
    obtain ⟨eb, hblock, hlevel, -, hf, hchildren⟩ := h
    cases hp : eb.ptrs with
    | nil =>
      rw [hp] at hchildren
      exact absurd (hchildren.eq_nil_iff.mpr rfl) hne
    | cons p ps =>
      rw [hp] at hchildren
      cases hchildren with
      | @cons _ _ mid right hch hkey hright =>
        obtain ⟨path', after, post, hd, habove, hcursor, hafter, rfl⟩ :=
          ih hch (firstKey_ne_nil hkey) (path.set (l + 1) b 0)
        have hp' : eb.ptrs = [] ++ p :: ps := hp
        have hr := readNodeSlot_eq hblock hlevel hp' hch
        have hs := habove (l + 1) (Nat.lt_succ_self l)
        refine ⟨path', after, post ++ right, ?_,
          (sameAbove_set path _ _ le_rfl).trans (habove.mono (Nat.le_succ l)), ?_, hafter,
          by simp⟩
        · rw [nextLeafDown]
          simp only [List.length_nil] at hr
          simp [hr, hd]
        · have hn := Cursor.node (by simpa using hs.1) hblock hlevel hp' hf
            (by simpa using hs.2) .nil hcursor hkey hright
          exact hn

/-! ## The next leaf -/

theorem Cursor.nextLeafUp_none (h : Cursor nodesize blocks path l b pre before after post)
    (hpost : post = []) (n : ℕ) :
    nextLeafUp blocks path (n + l) 1 = nextLeafUp blocks path n (l + 1) := by
  induction h generalizing n with
  | leaf => rfl
  | @node l b eb ps qs p left pre before after post right hno hblock hlevel hp _ hsl _ _ _
      hright ih =>
      obtain ⟨hch, hn⟩ := List.append_eq_nil_iff.mp hpost
      have hqs : qs = [] := hright.eq_nil_iff.mp hn
      have hl : (blocks.buffer b).nritems ≤ path.slots (l + 1) + 1 := by
        rw [buffer_eq hblock, nritems_of_node hlevel, hp, hsl, hqs]
        simp
      have hs := ih hch (n + 1)
      rw [Nat.add_right_comm, Nat.add_assoc] at hs
      rw [hs, nextLeafUp]
      simp [hno, hl]

theorem Cursor.nextLeaf_some (h : Cursor nodesize blocks path l b pre before after post)
    (hpost : post ≠ []) {n : ℕ} (hn : l ≤ n) :
    ∃ level slot next path' after' post', nextLeafUp blocks path n 1 = .ok (level, slot, next) ∧
      nextLeafDown blocks level next (path.setSlot level slot) = (0, path') ∧
      SameAbove l path path' ∧
      Cursor nodesize blocks path' l b (pre ++ before ++ after) [] after' post' ∧
      after' ≠ [] ∧ after' ++ post' = post := by
  induction h generalizing n with
  | leaf => exact absurd rfl hpost
  | @node l b eb ps qs p left pre before after post right hno hblock hlevel hp hf hsl
      hl hch hkey hright ih =>
      by_cases hinner : post = []
      · -- the child is finished: the next pointer of this node leads to the next leaf
        subst hinner
        cases qs with
        | nil => exact absurd (hright.eq_nil_iff.mpr rfl) (by simpa using hpost)
        | cons q qs =>
          cases hright with
          | @cons _ _ mid rest hq hqkey hre =>
            have hp' : eb.ptrs = (ps ++ [p]) ++ q :: qs := by simp [hp]
            have hr := readNodeSlot_eq hblock hlevel hp' hq
            have hlen : (ps ++ [p]).length = path.slots (l + 1) + 1 := by simp [hsl]
            rw [hlen] at hr
            have hm : ¬ (blocks.buffer b).nritems ≤ path.slots (l + 1) + 1 := by
              rw [buffer_eq hblock, nritems_of_node hlevel, hp', ← hlen]
              simp
            obtain ⟨path', after', post', hd, habove, hcursor, hafter, rfl⟩ :=
              nextLeafDown_spec l hq (firstKey_ne_nil hqkey)
                (path.setSlot (l + 1) (path.slots (l + 1) + 1))
            have hs := habove (l + 1) (Nat.lt_succ_self l)
            refine ⟨l + 1, path.slots (l + 1) + 1, q.blockptr, path', after', post' ++ rest,
              ?_, hd, (sameAbove_setSlot path _ le_rfl).trans (habove.mono (Nat.le_succ l)),
              ?_, hafter, by simp⟩
            · obtain ⟨m, rfl⟩ : ∃ m, n = m + 1 + l := ⟨n - (l + 1), by omega⟩
              rw [hch.nextLeafUp_none rfl, nextLeafUp]
              simp [hno, hm, hr]
            · have hn' := Cursor.node (hs.1.trans hno) hblock hlevel hp' hf
                (hs.2.trans ((Function.update_self _ _ _).trans hlen.symm))
                (hl.append (.cons hch.toSubtree hkey .nil)) hcursor hqkey hre
              simpa using hn'
      · obtain ⟨level, slot, next, path', after', post', hup, hd, habove, hcursor, hafter,
          rfl⟩ := ih hinner (Nat.le_of_succ_le hn)
        have hs := habove (l + 1) (Nat.lt_succ_self l)
        refine ⟨level, slot, next, path', after', post' ++ right, hup, hd,
          habove.mono (Nat.le_succ l), ?_, hafter, by simp⟩
        have hn' := Cursor.node (hs.1.trans hno) hblock hlevel hp hf
          (hs.2.trans hsl) hl hcursor (by simpa using hkey) hright
        simpa using hn'

/-! ## The previous leaf -/

theorem prevLeafDown_spec (l : ℕ) (h : Subtree nodesize blocks l b items) (hne : items ≠ [])
    (path : Path) :
    ∃ path' pre before x, prevLeafDown blocks (l + 1) b path = (0, path') ∧
      SameAbove l path path' ∧ Cursor nodesize blocks path' l b pre before [x] [] ∧
      pre ++ before ++ [x] = items := by
  induction l generalizing b items path with
  | zero =>
    obtain ⟨before, x, rfl⟩ := (List.eq_nil_or_concat' items).resolve_left hne
    obtain ⟨eb, hblock, hlevel, hitems, -⟩ := id h
    have hs : (blocks.buffer b).nritems - 1 = before.length := by
      rw [buffer_eq hblock, ExtentBuffer.nritems, keys_of_leaf hlevel, hitems]
      simp
    refine ⟨path.set 0 b before.length, [], before, x, ?_, sameAbove_set path _ _ le_rfl,
      .leaf (by simp) (by simp) h, by simp⟩
    simp [prevLeafDown, hs]
  | succ l ih =>
    obtain ⟨eb, hblock, hlevel, hptrsNe, hf, hchildren⟩ := h
    obtain ⟨ps, p, hp⟩ := (List.eq_nil_or_concat' eb.ptrs).resolve_left hptrsNe
    rw [hp] at hchildren
    obtain ⟨left, rest, rfl, hl, hr⟩ := hchildren.split
    cases hr with
    | @cons _ _ mid right hch hkey hright =>
      have hs : (blocks.buffer b).nritems - 1 = ps.length := by
        rw [buffer_eq hblock, nritems_of_node hlevel, hp]
        simp
      obtain ⟨path', pre, before, x, hd, habove, hcursor, rfl⟩ :=
        ih hch (firstKey_ne_nil hkey) (path.set (l + 1) b ps.length)
      have hre := readNodeSlot_eq hblock hlevel hp hch
      have hse := habove (l + 1) (Nat.lt_succ_self l)
      have hn : right = [] := hright.eq_nil_iff.mpr rfl
      refine ⟨path', left ++ pre, before, x, ?_,
        (sameAbove_set path _ _ le_rfl).trans (habove.mono (Nat.le_succ l)), ?_, ?_⟩
      · rw [prevLeafDown]
        simp [hs, hre, hd]
      · have hno := Cursor.node (by simpa using hse.1) hblock hlevel hp hf
          (by simpa using hse.2) hl hcursor (by simpa using hkey) hright
        simpa [hn] using hno
      · simp [hn]

theorem Cursor.prevLeafUp_none (h : Cursor nodesize blocks path l b pre before after post)
    (hpre : pre = []) (n : ℕ) :
    prevLeafUp blocks path (n + l) 1 = prevLeafUp blocks path n (l + 1) := by
  induction h generalizing n with
  | leaf => rfl
  | @node l b eb ps qs p left pre before after post right hno hblock hlevel hp _ hsl hl
      _ _ _ ih =>
      obtain ⟨hn, hch⟩ := List.append_eq_nil_iff.mp hpre
      have hfirst : path.slots (l + 1) = 0 := by
        rw [hsl, hl.eq_nil_iff.mp hn]
        rfl
      have hs := ih hch (n + 1)
      rw [Nat.add_right_comm, Nat.add_assoc] at hs
      rw [hs, prevLeafUp]
      simp [hno, hfirst]

theorem Cursor.prevLeaf_some (h : Cursor nodesize blocks path l b pre before after post)
    (hpre : pre ≠ []) {n : ℕ} (hn : l ≤ n) :
    ∃ level slot next path' pre' before' x, prevLeafUp blocks path n 1 = .ok (level, slot, next) ∧
      prevLeafDown blocks level next (path.setSlot level slot) = (0, path') ∧
      SameAbove l path path' ∧
      Cursor nodesize blocks path' l b pre' before' [x] (before ++ after ++ post) ∧
      pre' ++ before' ++ [x] = pre := by
  induction h generalizing n with
  | leaf => exact absurd rfl hpre
  | @node l b eb ps qs p left pre before after post right hno hblock hlevel hp hf hsl
      hl hch hkey hright ih =>
      by_cases hinner : pre = []
      · -- the child has nothing before: the previous pointer of this node leads to the leaf
        subst hinner
        rw [List.append_nil] at hpre
        have hps : ps ≠ [] := fun hnil => hpre (hl.eq_nil_iff.mpr hnil)
        obtain ⟨ps, q, rfl⟩ := (List.eq_nil_or_concat' ps).resolve_left hps
        obtain ⟨left, rest, rfl, hl', hre⟩ := hl.split
        cases hre with
        | @cons _ _ mid nothing hq hqkey hnil =>
          have hnothing : nothing = [] := hnil.eq_nil_iff.mpr rfl
          subst hnothing
          have hp' : eb.ptrs = ps ++ q :: (p :: qs) := by simp [hp]
          have hr := readNodeSlot_eq hblock hlevel hp' hq
          have hlen : path.slots (l + 1) = ps.length + 1 := by simp [hsl]
          have hm : ¬ path.slots (l + 1) = 0 := by omega
          have hsub : path.slots (l + 1) - 1 = ps.length := by omega
          obtain ⟨path', pre', before', x, hd, habove, hcursor, rfl⟩ :=
            prevLeafDown_spec l hq (firstKey_ne_nil hqkey) (path.setSlot (l + 1) ps.length)
          have hs := habove (l + 1) (Nat.lt_succ_self l)
          refine ⟨l + 1, ps.length, q.blockptr, path', left ++ pre', before', x, ?_, hd,
            (sameAbove_setSlot path _ le_rfl).trans (habove.mono (Nat.le_succ l)), ?_, by simp⟩
          · obtain ⟨m, rfl⟩ : ∃ m, n = m + 1 + l := ⟨n - (l + 1), by omega⟩
            rw [hch.prevLeafUp_none rfl, prevLeafUp]
            simp [hno, hm, hsub, hr]
          · have hn' := Cursor.node (hs.1.trans hno) hblock hlevel hp' hf
              (hs.2.trans (Function.update_self _ _ _)) hl' hcursor
              (by simpa using hqkey) (.cons hch.toSubtree hkey hright)
            simpa using hn'
      · obtain ⟨level, slot, next, path', pre', before', x, hup, hd, habove, hcursor, rfl⟩ :=
          ih hinner (Nat.le_of_succ_le hn)
        have hs := habove (l + 1) (Nat.lt_succ_self l)
        refine ⟨level, slot, next, path', left ++ pre', before', x, hup, hd,
          habove.mono (Nat.le_succ l), ?_, by simp⟩
        have hn' := Cursor.node (hs.1.trans hno) hblock hlevel hp hf
          (hs.2.trans hsl) hl hcursor (by simpa using hkey) hright
        simpa using hn'

/-! ## Positions in a tree -/

variable {nodesize : ℕ} {blocks : Blocks} {root : ℕ} {path : Path}
  {pre before after post : List Item}

def Position (nodesize : ℕ) (blocks : Blocks) (root : ℕ) (path : Path)
    (pre before after post : List Item) : Prop :=
  ∃ l < BTRFS_MAX_LEVEL, (∀ level, l < level → path.nodes level = none) ∧
    Cursor nodesize blocks path l root pre before after post

/-! ## Next leaf and next item -/

variable {l b n : ℕ}

theorem maxLevel_split (h : l < BTRFS_MAX_LEVEL) :
    BTRFS_MAX_LEVEL - 1 = BTRFS_MAX_LEVEL - 1 - l + l := by
  omega

theorem Position.nextLeafUp_none (h : Position nodesize blocks root path pre before after []) :
    nextLeafUp blocks path (BTRFS_MAX_LEVEL - 1) 1 = .error 1 := by
  obtain ⟨l, hl, habove, hcursor⟩ := h
  rw [maxLevel_split hl, hcursor.nextLeafUp_none rfl]
  cases BTRFS_MAX_LEVEL - 1 - l with
  | zero => rfl
  | succ n => simp only [nextLeafUp, habove (l + 1) (Nat.lt_succ_self l)]

theorem Cursor.leaf_items (h : Cursor nodesize blocks path l b pre before after post) :
    (path.leaf blocks).items = before ++ after ∧
      (path.leaf blocks).nritems = (before ++ after).length ∧ path.slots 0 = before.length := by
  induction h with
  | leaf hn hs hsub =>
    obtain ⟨eb, hblock, hlevel, hitems, -⟩ := hsub
    have hl : path.leaf blocks = eb := by simp only [Path.leaf, hn, buffer_eq hblock]
    refine ⟨hl ▸ hitems, ?_, hs⟩
    rw [hl, ExtentBuffer.nritems, keys_of_leaf hlevel, List.length_map, hitems]
  | node _ _ _ _ _ _ _ _ _ _ ih => exact ih

theorem Cursor.item_eq (h : Cursor nodesize blocks path l b pre before after post) :
    path.item blocks = after.head? := by
  obtain ⟨hits, -, hs⟩ := h.leaf_items
  rw [Path.item, hits, hs, List.getElem?_append_right le_rfl, Nat.sub_self, List.head?_eq_getElem?]

theorem Cursor.setSlot (h : Cursor nodesize blocks path l b pre before after post)
    (before' after' : List Item) (hs : before' ++ after' = before ++ after) :
    Cursor nodesize blocks (path.setSlot 0 before'.length) l b pre before' after' post := by
  induction h with
  | leaf hn hsl hsub =>
    rw [← hs] at hsub
    exact .leaf hn (path.setSlot_self 0 _) hsub
  | @node l b eb ps qs p left pre before after post right hn hblock hlevel hp hf hsl
      hl hch hkey hright ih =>
      refine .node hn hblock hlevel hp hf ?_ hl (ih hs) ?_ hright
      · rw [← hsl]
        exact path.setSlot_of_ne _ (Nat.succ_ne_zero l)
      · rw [List.append_assoc pre, hs, ← List.append_assoc pre]
        exact hkey

theorem Position.setSlot (h : Position nodesize blocks root path pre before after post)
    (before' after' : List Item) (hs : before' ++ after' = before ++ after) :
    Position nodesize blocks root (path.setSlot 0 before'.length) pre before' after' post := by
  obtain ⟨l, hl, habove, hcursor⟩ := h
  exact ⟨l, hl, habove, hcursor.setSlot before' after' hs⟩

/-! ## One step forward -/

theorem nextLeafUp_setSlot (path : Path) (slot n l : ℕ) :
    nextLeafUp blocks (path.setSlot 0 slot) n (l + 1) = nextLeafUp blocks path n (l + 1) := by
  induction n generalizing l with
  | zero => rfl
  | succ n ih =>
    have hslots := path.setSlot_of_ne slot (Nat.succ_ne_zero l)
    simp only [nextLeafUp, hslots, Path.setSlot_nodes, ih]

theorem nextLeafDown_setSlot (slot l next : ℕ) {path path' : Path}
    (h : nextLeafDown blocks (l + 1) next path = (0, path')) :
    nextLeafDown blocks (l + 1) next (path.setSlot 0 slot) = (0, path') := by
  induction l generalizing path next with
  | zero =>
    rw [← h]
    simp [nextLeafDown, Path.setSlot, Path.set]
  | succ l ih =>
    have hcomm : (path.setSlot 0 slot).set (l + 1) next 0 =
        (path.set (l + 1) next 0).setSlot 0 slot := by
      simp only [Path.setSlot, Path.set]
      rw [Function.update_comm (Nat.succ_ne_zero l)]
    rw [nextLeafDown] at h ⊢
    simp only [hcomm] at h ⊢
    cases hr : readNodeSlot blocks next 0 with
    | none =>
      rw [hr] at h
      have heio : -eio = 0 := congrArg Prod.fst h
      exact absurd heio (by decide)
    | some child =>
      rw [hr] at h
      exact ih child h

theorem nextLeafUp_level {path : Path} {level slot next : ℕ}
    (h : nextLeafUp blocks path n l = .ok (level, slot, next)) : l ≤ level := by
  induction n generalizing l with
  | zero => cases h
  | succ n ih =>
    simp only [nextLeafUp] at h
    split at h
    · cases h
    · split at h
      · exact (Nat.le_succ l).trans (ih h)
      · split at h
        · cases h
        · cases h
          exact le_rfl

/-- The result of a step forward over a position with `items` behind it: 1 at the end of the
tree, and otherwise a path on the first of them. -/
def Stepped (nodesize : ℕ) (blocks : Blocks) (root : ℕ) (items : List Item) (result : ℤ × Path) :
    Prop :=
  (items = [] ∧ result.1 = 1) ∨ ∃ path pre before after post, result = (0, path) ∧
      Position nodesize blocks root path pre before after post ∧
      after ≠ [] ∧ after ++ post = items

section

variable (h : Position nodesize blocks root path pre before after post)

include h

/-- `btrfs_next_leaf` goes to the items behind the leaf, from any slot of it. -/
theorem Position.nextLeaf (slot : ℕ) :
    Stepped nodesize blocks root post (btrfsNextLeaf blocks (path.setSlot 0 slot)) := by
  by_cases hpost : post = []
  · subst hpost
    refine .inl ⟨rfl, ?_⟩
    rw [btrfsNextLeaf, nextLeafUp_setSlot path slot _ 0, h.nextLeafUp_none]
  · obtain ⟨l, hl, habove, hcursor⟩ := h
    obtain ⟨level, slot', next, path', after', post', hup, hd, hs, hcursor', hafter, happ⟩ :=
      hcursor.nextLeaf_some hpost (n := BTRFS_MAX_LEVEL - 1) (Nat.le_sub_one_of_lt hl)
    refine .inr ⟨path', _, _, after', post', ?_, ⟨l, hl, ?_, hcursor'⟩, hafter, happ⟩
    · have hpos := nextLeafUp_level hup
      obtain ⟨m, rfl⟩ : ∃ m, level = m + 1 := ⟨level - 1, by omega⟩
      have hcomm : (path.setSlot 0 slot).setSlot (m + 1) slot' =
          (path.setSlot (m + 1) slot').setSlot 0 slot := by
        simp only [Path.setSlot]
        rw [Function.update_comm (Nat.succ_ne_zero m)]
      rw [btrfsNextLeaf, nextLeafUp_setSlot path slot _ 0, hup,
        ← nextLeafDown_setSlot slot m next hd]
      exact congrArg (nextLeafDown blocks (m + 1) next) hcomm
    · intro lvl hlevel
      rw [(hs lvl hlevel).1, habove lvl hlevel]

theorem Position.leaf_items :
    (path.leaf blocks).nritems = (before ++ after).length ∧ path.slots 0 = before.length := by
  obtain ⟨l, -, -, hcursor⟩ := h
  exact hcursor.leaf_items.2

theorem Position.item_eq : path.item blocks = after.head? := by
  obtain ⟨l, -, -, hcursor⟩ := h
  exact hcursor.item_eq

theorem Position.nextItem :
    Stepped nodesize blocks root (after.tail ++ post) (btrfsNextItem blocks path) := by
  obtain ⟨hnr, hs⟩ := h.leaf_items
  have hmoved : btrfsNextItem blocks path =
      if (before ++ after).length ≤ before.length + 1 then
        btrfsNextLeaf blocks (path.setSlot 0 (before.length + 1))
      else (0, path.setSlot 0 (before.length + 1)) := by
    rw [← hnr, ← hs]
    rfl
  by_cases ht : after.tail = []
  · -- no further item in this leaf
    have hend : (before ++ after).length ≤ before.length + 1 := by
      have hlen : after.length - 1 = 0 := by rw [← List.length_tail, ht, List.length_nil]
      rw [List.length_append]
      omega
    rw [hmoved, if_pos hend, ht]
    exact h.nextLeaf _
  · cases after with
    | nil => exact absurd rfl ht
    | cons x rest =>
      have hm : ¬ (before ++ x :: rest).length ≤ before.length + 1 := by
        have hr : 0 < rest.length := List.length_pos_iff.mpr ht
        rw [List.length_append, List.length_cons]
        omega
      have hn := h.setSlot (before ++ [x]) rest (by simp)
      rw [List.length_append] at hn
      rw [hmoved, if_neg hm]
      exact .inr ⟨_, pre, before ++ [x], rest, post, rfl, hn, ht, rfl⟩

end

/-! ## Walking to the end of the tree -/

/-- The loop of a caller that visits the items from a path on. A round that finds the path on an
item visits it and steps over it, by `btrfs_next_item` or by `path->slots[0]++`; one that finds
the path one past the end of its leaf goes on by `btrfs_next_item` or by `btrfs_next_leaf`.
`choice` says which. The result has the visited items and the value that ended the loop. -/
def walkItems (blocks : Blocks) (choice : ℕ → Bool) : ℕ → Path → Call (List Item × ℤ)
  | 0, _ => .error .outOfRounds
  | n + 1, path =>
    match path.item blocks with
    | some x =>
      let (ret, path) := if choice n then btrfsNextItem blocks path
        else (0, path.setSlot 0 (path.slots 0 + 1))
      if ret ≠ 0 then .ok ([x], ret)
      else do
        let (items, ret) ← walkItems blocks choice n path
        return (x :: items, ret)
    | none =>
      let (ret, path) := if choice n then btrfsNextItem blocks path
        else btrfsNextLeaf blocks path
      if ret ≠ 0 then .ok ([], ret) else walkItems blocks choice n path

/-- The rounds a walk needs: one for each item and at most one for each end of a leaf. -/
def walkRounds (after post : List Item) : ℕ :=
  2 * (after ++ post).length + if after = [] then 2 else 1

theorem walkRounds_of_ne_nil {after post : List Item} (h : after ≠ []) :
    walkRounds after post = 2 * (after ++ post).length + 1 := by
  rw [walkRounds, if_neg h]

theorem walkRounds_le (after post : List Item) :
    walkRounds after post ≤ 2 * (after ++ post).length + 2 := by
  unfold walkRounds
  split <;> omega

theorem Position.walkItems_eq (choice : ℕ → Bool) {n : ℕ}
    (h : Position nodesize blocks root path pre before after post)
    (hn : walkRounds after post ≤ n) :
    walkItems blocks choice n path = .ok (after ++ post, 1) := by
  induction n generalizing path pre before after post with
  | zero =>
    unfold walkRounds at hn
    split at hn <;> omega
  | succ n ih =>
    cases after with
    | nil =>
      -- one past the end of the leaf: both functions go to the next leaf
      have hs : Stepped nodesize blocks root post
          (if choice n then btrfsNextItem blocks path else btrfsNextLeaf blocks path) := by
        split
        · exact h.nextItem
        · have hl := h.nextLeaf (path.slots 0)
          rwa [Path.setSlot_eq_self] at hl
      have hi : path.item blocks = none := h.item_eq
      simp only [walkItems, hi, List.nil_append]
      rcases hs with ⟨rfl, hret⟩ | ⟨path', _, _, after', post', heq, hpos, hafter, rfl⟩
      · simp only [hret]
        rfl
      · simp only [heq, ne_eq]
        refine ih hpos ?_
        rw [walkRounds_of_ne_nil hafter]
        simp only [walkRounds, List.nil_append, if_true] at hn
        omega
    | cons x rest =>
      have hi : path.item blocks = some x := h.item_eq
      rw [walkRounds_of_ne_nil (List.cons_ne_nil x rest), List.cons_append, List.length_cons] at hn
      simp only [walkItems, hi]
      cases choice n with
      | true =>
        simp only [if_true]
        rcases h.nextItem with ⟨hnil, hret⟩ | ⟨path', _, _, after', post', heq, hpos, hafter, happ⟩
        · simp only [List.tail_cons] at hnil
          simp only [hret, List.cons_append, hnil]
          rfl
        · simp only [List.tail_cons] at happ
          have hr := ih hpos (by rw [walkRounds_of_ne_nil hafter, happ]; omega)
          simp only [heq, ne_eq, not_true_eq_false, hr, happ]
          rfl
      | false =>
        have hmoved := h.setSlot (before ++ [x]) rest (by simp)
        have hlen : (before ++ [x]).length = path.slots 0 + 1 := by
          rw [h.leaf_items.2, List.length_append, List.length_singleton]
        rw [hlen] at hmoved
        have hbound := walkRounds_le rest post
        have hr := ih hmoved (by omega)
        simp only [Bool.false_eq_true, if_false, hr]
        rfl

/-! # Stepping back over a tree -/

/-! ## One step back -/

theorem Position.prevLeaf_none (h : Position nodesize blocks root path [] before after post) :
    btrfsPrevLeaf blocks path = (1, path) := by
  obtain ⟨l, hl, habove, hcursor⟩ := h
  have hup : prevLeafUp blocks path (BTRFS_MAX_LEVEL - 1) 1 = .error 1 := by
    rw [maxLevel_split hl, hcursor.prevLeafUp_none rfl]
    cases BTRFS_MAX_LEVEL - 1 - l with
    | zero => rfl
    | succ n => simp [prevLeafUp, habove (l + 1) (Nat.lt_succ_self l)]
  rw [btrfsPrevLeaf, hup]

theorem Position.prevLeaf_some (h : Position nodesize blocks root path pre before after post)
    (hpre : pre ≠ []) :
    ∃ path' pre' before' x, btrfsPrevLeaf blocks path = (0, path') ∧
      Position nodesize blocks root path' pre' before' [x] (before ++ after ++ post) ∧
      pre' ++ before' ++ [x] = pre := by
  obtain ⟨l, hl, habove, hcursor⟩ := h
  obtain ⟨level, slot, next, path', pre', before', x, hup, hd, hs, hcursor', happ⟩ :=
    hcursor.prevLeaf_some hpre (n := BTRFS_MAX_LEVEL - 1) (Nat.le_sub_one_of_lt hl)
  refine ⟨path', pre', before', x, ?_, ⟨l, hl, ?_, hcursor'⟩, happ⟩
  · rw [btrfsPrevLeaf, hup]
    exact hd
  · intro lvl hlevel
    rw [(hs lvl hlevel).1, habove lvl hlevel]

/-- The first lines of a round of `btrfs_previous_item`. -/
def stepBack (blocks : Blocks) (path : Path) : ℤ × Path :=
  if path.slots 0 = 0 then btrfsPrevLeaf blocks path
  else (0, path.setSlot 0 (path.slots 0 - 1))

theorem Position.stepBack_none (h : Position nodesize blocks root path pre before after post)
    (hfirst : pre ++ before = []) : stepBack blocks path = (1, path) := by
  obtain ⟨rfl, rfl⟩ := List.append_eq_nil_iff.mp hfirst
  simp [stepBack, h.leaf_items.2, h.prevLeaf_none]

theorem Position.stepBack_some {items : List Item} {x : Item}
    (h : Position nodesize blocks root path pre before after post)
    (hitems : pre ++ before = items ++ [x]) :
    ∃ path' pre' before' after' post', stepBack blocks path = (0, path') ∧
      Position nodesize blocks root path' pre' before' (x :: after') post' ∧
      pre' ++ before' = items ∧ after' ++ post' = after ++ post := by
  rcases List.eq_nil_or_concat' before with rfl | ⟨before', y, rfl⟩
  · -- the path is on the first slot of its leaf
    rw [List.append_nil] at hitems
    obtain ⟨path', pre', before', y, hp, hpos, happ⟩ := h.prevLeaf_some (by rw [hitems]; simp)
    obtain ⟨hitems', rfl⟩ := List.append_inj' (happ.trans hitems) rfl |>.imp_right
      (fun hyx => (List.cons.inj hyx).1)
    refine ⟨path', pre', before', [], _, ?_, hpos, hitems', rfl⟩
    simp [stepBack, h.leaf_items.2, hp]
  · rw [← List.append_assoc] at hitems
    obtain ⟨hitems', hyx⟩ := List.append_inj' hitems rfl
    obtain rfl : y = x := (List.cons.inj hyx).1
    have hs : path.slots 0 = before'.length + 1 := by simp [h.leaf_items.2]
    refine ⟨_, pre, before', after, post, ?_, h.setSlot before' (y :: after) (by simp), hitems',
      rfl⟩
    simp [stepBack, hs]

/-! ## The rounds of `btrfs_previous_item` -/

section

variable (minObjectid : ℕ) (type : ℤ)

theorem Position.previousItem_none (h : Position nodesize blocks root path pre before after post)
    (hfirst : pre ++ before = []) (n : ℕ) :
    btrfsPreviousItem blocks minObjectid type (n + 1) path = .ok (1, path) := by
  have hs : (if path.slots 0 = 0 then btrfsPrevLeaf blocks path
      else (0, path.setSlot 0 (path.slots 0 - 1))) = (1, path) := h.stepBack_none hfirst
  simp only [Path.setSlot] at hs
  simp only [btrfsPreviousItem, hs]
  rfl

theorem Position.previousItem_some {items : List Item} {x : Item}
    (h : Position nodesize blocks root path pre before after post)
    (hitems : pre ++ before = items ++ [x]) :
    ∃ path' pre' before' after' post',
      Position nodesize blocks root path' pre' before' (x :: after') post' ∧
      pre' ++ before' = items ∧ after' ++ post' = after ++ post ∧
      ∀ n, btrfsPreviousItem blocks minObjectid type (n + 1) path =
        if x.key.objectid < minObjectid then .ok (1, path')
        else if (x.key.type : ℤ) = type then .ok (0, path')
        else if x.key.objectid = minObjectid ∧ (x.key.type : ℤ) < type then .ok (1, path')
        else btrfsPreviousItem blocks minObjectid type n path' := by
  obtain ⟨path', pre', before', after', post', hs, hpos, happ, hbehind⟩ := h.stepBack_some hitems
  refine ⟨path', pre', before', after', post', hpos, happ, hbehind, ?_⟩
  obtain ⟨hnr, hsl⟩ := hpos.leaf_items
  have hi : path'.item blocks = some x := hpos.item_eq
  have hne : ¬ (path'.leaf blocks).nritems = 0 := by
    rw [hnr, List.length_append, List.length_cons]
    omega
  have hinside : ¬ path'.slots 0 = (path'.leaf blocks).nritems := by
    rw [hnr, List.length_append, List.length_cons]
    omega
  simp only [stepBack, Path.setSlot] at hs
  intro n
  simp [btrfsPreviousItem, hs, ne_eq, hne, hinside, hi]

/-- The items that `btrfs_previous_item` looks for. -/
def Wanted (x : Item) : Prop := (x.key.type : ℤ) = type ∧ minObjectid ≤ x.key.objectid

/-- The outcome of `btrfs_previous_item` over the items before its path. -/
def PreviousFound (blocks : Blocks) (items : List Item) (result : Call (ℤ × Path)) : Prop :=
  (∃ path x, result = .ok (0, path) ∧ path.item blocks = some x ∧ x ∈ items ∧
    Wanted minObjectid type x ∧ ∀ y ∈ items, Wanted minObjectid type y → y.key ≤ x.key) ∨
  (∃ path, result = .ok (1, path)) ∧ ∀ y ∈ items, ¬ Wanted minObjectid type y

variable {minObjectid : ℕ} {type : ℤ}

theorem not_wanted_of_stop {x y : Item} (hle : y.key ≤ x.key) (hs : x.key.objectid < minObjectid ∨
      x.key.objectid = minObjectid ∧ (x.key.type : ℤ) < type) :
    ¬ Wanted minObjectid type y := by
  rintro ⟨ht, hmin⟩
  rw [← not_lt, Key.lt_iff] at hle
  omega

theorem Position.previousItem_spec {items : List Item} {n : ℕ}
    (h : Position nodesize blocks root path pre before after post)
    (hitems : pre ++ before = items) (hsorted : SortedItems items) (hn : items.length < n) :
    PreviousFound minObjectid type blocks items
      (btrfsPreviousItem blocks minObjectid type n path) := by
  induction n generalizing path pre before after post items with
  | zero => omega
  | succ n ih =>
    rcases List.eq_nil_or_concat' items with rfl | ⟨items, x, rfl⟩
    · exact .inr ⟨⟨path, h.previousItem_none minObjectid type hitems n⟩, by simp⟩
    · obtain ⟨path', pre', before', after', post', hpos, happ, -, hround⟩ :=
        h.previousItem_some minObjectid type hitems
      obtain ⟨hsorted', -, hl⟩ := List.pairwise_append.mp hsorted
      have hle : ∀ y ∈ items ++ [x], y.key ≤ x.key := by
        intro y hy
        rcases List.mem_append.mp hy with hy | hy
        · exact (hl y hy x (by simp)).le
        · rw [List.mem_singleton.mp hy]
      rw [hround]
      split_ifs with hmin ht hboth
      · exact .inr ⟨⟨path', rfl⟩, fun y hy => not_wanted_of_stop (hle y hy) (.inl hmin)⟩
      · exact .inl ⟨path', x, rfl, hpos.item_eq, by simp, ⟨ht, not_lt.mp hmin⟩,
          fun y hy _ => hle y hy⟩
      · exact .inr ⟨⟨path', rfl⟩, fun y hy => not_wanted_of_stop (hle y hy) (.inr hboth)⟩
      · -- the item has another type: the answer is among the items before it
        have hskip : ¬ Wanted minObjectid type x := fun hwanted => ht hwanted.1
        rw [List.length_append, List.length_singleton] at hn
        rcases ih hpos happ hsorted' (by omega) with
          ⟨path'', z, hret, hi, hz, hwanted, hgreatest⟩ | ⟨hret, hno⟩
        · refine .inl ⟨path'', z, hret, hi, by simp [hz], hwanted, ?_⟩
          intro y hy hy'
          rcases List.mem_append.mp hy with hy | hy
          · exact hgreatest y hy hy'
          · exact absurd (List.mem_singleton.mp hy ▸ hy') hskip
        · refine .inr ⟨hret, ?_⟩
          refine List.forall_mem_append.mpr ⟨hno, fun y hy => ?_⟩
          rwa [List.mem_singleton.mp hy]

end

/-! # Iteration over a valid tree is complete and ordered -/

/-! ## The two sides of a key -/

theorem filter_sides {key : Key} {low high : List Item} (hlow : ∀ x ∈ low, x.key < key)
    (hhigh : ∀ x ∈ high, key ≤ x.key) :
    (low ++ high).filter (fun x => key ≤ x.key) = high ∧
      (low ++ high).filter (fun x => x.key < key) = low := by
  have hn : low.filter (fun x => key ≤ x.key) = [] := by
    rw [List.filter_eq_nil_iff]
    intro x hx
    simpa using hlow x hx
  have hn' : high.filter (fun x => x.key < key) = [] := by
    rw [List.filter_eq_nil_iff]
    intro x hx
    simpa using hhigh x hx
  have hall : high.filter (fun x => key ≤ x.key) = high := by
    rw [List.filter_eq_self]
    intro x hx
    simpa using hhigh x hx
  have hall' : low.filter (fun x => x.key < key) = low := by
    rw [List.filter_eq_self]
    intro x hx
    simpa using hlow x hx
  rw [List.filter_append, List.filter_append, hn, hn', hall, hall']
  exact ⟨List.nil_append high, List.append_nil low⟩

/-! ## Search, then walk -/

/-- After a search the walk visits the items from the key on in their order, each once, and ends
with 1; `btrfs_previous_item` finds the greatest wanted item below the key, or returns 1 when
there is none. -/
theorem searchSlot_iterates {nodesize root : ℕ} {blocks : Blocks} {items : List Item}
    (h : ValidTree nodesize blocks root items) (key : Key) (choice : ℕ → Bool) (minObjectid : ℕ)
    (type : ℤ) :
    ∃ ret path, btrfsSearchSlot nodesize blocks root key = (ret, path) ∧ (ret = 0 ∨ ret = 1) ∧
      (∃ rounds, ∀ n ≥ rounds, walkItems blocks choice n path =
        .ok (items.filter fun x => key ≤ x.key, 1)) ∧
      SortedItems (items.filter fun x => key ≤ x.key) ∧
      ∃ rounds, ∀ n ≥ rounds, PreviousFound minObjectid type blocks
        (items.filter fun x => x.key < key) (btrfsPreviousItem blocks minObjectid type n path) := by
  obtain ⟨ret, path, l, hsearch, hl, habove, hfound⟩ := btrfsSearchSlot_spec h key
  obtain ⟨pre, before, after, post, hitems, hcursor, hlow, hhigh, -, hret⟩ := hfound.cursor
  have hpos : Position nodesize blocks root path pre before after post := ⟨l, hl, habove, hcursor⟩
  rw [List.append_assoc] at hitems
  obtain ⟨hfrom, hbelow⟩ := filter_sides hlow hhigh
  rw [← hitems] at hfrom hbelow
  have hsorted := h.sorted
  refine ⟨ret, path, hsearch, ?_, ⟨walkRounds after post, ?_⟩, hsorted.filter _,
    (pre ++ before).length + 1, ?_⟩
  · rw [hret]
    split
    · exact .inl rfl
    · exact .inr rfl
  · intro n hn
    rw [hfrom]
    exact hpos.walkItems_eq choice hn
  · intro n hn
    rw [hitems] at hsorted
    rw [hbelow]
    exact hpos.previousItem_spec rfl (List.pairwise_append.mp hsorted).1 hn

def twoLeaves : Blocks := fun bytenr =>
  match bytenr with
  | 1 => some ⟨1, 0, [], [⟨⟨1, 1, 0⟩, 2, 0⟩, ⟨⟨5, 1, 0⟩, 3, 0⟩]⟩
  | 2 => some ⟨0, 0, [⟨⟨1, 1, 0⟩, []⟩, ⟨⟨3, 2, 0⟩, [7]⟩], []⟩
  | 3 => some ⟨0, 0, [⟨⟨5, 1, 0⟩, []⟩], []⟩
  | _ => none

def twoLeavesItems : List Item := [⟨⟨1, 1, 0⟩, []⟩, ⟨⟨3, 2, 0⟩, [7]⟩, ⟨⟨5, 1, 0⟩, []⟩]

theorem twoLeaves_valid : ValidTree 4096 twoLeaves 1 twoLeavesItems where
  subtree := by
    refine ⟨1, by decide, _, rfl, rfl, by decide, by decide, ?_⟩
    have hl : Subtree 4096 twoLeaves 0 2 (twoLeavesItems.take 2) := ⟨_, rfl, rfl, rfl, by decide⟩
    have hrgt : Subtree 4096 twoLeaves 0 3 (twoLeavesItems.drop 2) := ⟨_, rfl, rfl, rfl, by decide⟩
    have hr : Children (Subtree 4096 twoLeaves 0) [⟨⟨5, 1, 0⟩, 3, 0⟩]
        (twoLeavesItems.drop 2 ++ []) := .cons hrgt rfl .nil
    exact Children.cons (p := ⟨⟨1, 1, 0⟩, 2, 0⟩) hl rfl hr
  sorted := by simp [SortedItems, twoLeavesItems, Key.lt_iff]

theorem searchSlot_iterates_twoLeaves :
    ∃ ret path, btrfsSearchSlot 4096 twoLeaves 1 ⟨4, 0, 0⟩ = (ret, path) ∧ (ret = 0 ∨ ret = 1) ∧
      (∃ rounds, ∀ n ≥ rounds, walkItems twoLeaves (fun _ => true) n path =
        .ok (twoLeavesItems.filter fun x => ⟨4, 0, 0⟩ ≤ x.key, 1)) ∧
      SortedItems (twoLeavesItems.filter fun x => ⟨4, 0, 0⟩ ≤ x.key) ∧
      ∃ rounds, ∀ n ≥ rounds, PreviousFound 1 1 twoLeaves
        (twoLeavesItems.filter fun x => x.key < ⟨4, 0, 0⟩)
        (btrfsPreviousItem twoLeaves 1 1 n path) :=
  searchSlot_iterates twoLeaves_valid ⟨4, 0, 0⟩ (fun _ => true) 1 1

end Btrfs.Ctree
