import Btrfs.Model.QgroupVerify
import Btrfs.Verification.RbTree.Search
import Btrfs.Verification.Shared.Calls

/-! # What the walk for implied references reaches -/

namespace Btrfs.QgroupVerify

open RbTree

/-! ## The ref tree -/

/-- The order of the ref tree. -/
def Ref.key (ref : Ref) : ℕ ×ₗ ℕ ×ₗ ℕ := toLex (ref.bytenr, toLex (ref.parent, ref.root))

/-- There is a shared ref of a block or an extent. -/
def HasRef (refs : RbNode Ref) (parent bytenr : ℕ) : Prop :=
  ∃ ref ∈ inorder refs, ref.bytenr = bytenr ∧ ref.parent = parent ∧ ref.root = 0

theorem compares_compareRef (bytenr root parent : ℕ) :
    Compares Ref.key (toLex (bytenr, toLex (parent, root)))
      fun orig => compareRef orig bytenr root parent := by
  constructor
  · intro orig
    simp only [compareRef, Ref.key, Prod.Lex.toLex_lt_toLex]
    split_ifs <;> omega
  · intro orig
    simp only [compareRef, Ref.key, Prod.Lex.toLex_lt_toLex]
    split_ifs <;> omega

variable {refs : RbNode Ref} {nodesize parent : ℕ}

/-- A call that adds refs to the tree, all of those asked for among them. -/
structure Adds (refs : RbNode Ref) (wanted : ℕ → Prop) (parent : ℕ) (refs' : RbNode Ref) :
    Prop where
  keyed : KeyedTree Ref.key refs'
  keeps : ∀ ref ∈ inorder refs, ref ∈ inorder refs'
  wanted : ∀ bytenr, wanted bytenr → HasRef refs' parent bytenr

variable {refs' : RbNode Ref} {wanted wanted' : ℕ → Prop}

theorem HasRef.mono {bytenr : ℕ} (h : HasRef refs parent bytenr)
    (hkeeps : ∀ ref ∈ inorder refs, ref ∈ inorder refs') : HasRef refs' parent bytenr := by
  obtain ⟨ref, href, heq⟩ := h
  exact ⟨ref, hkeeps ref href, heq⟩

theorem Adds.refl (hr : KeyedTree Ref.key refs) : Adds refs (fun _ => False) parent refs :=
  ⟨hr, fun _ h => h, by simp⟩

theorem Adds.trans {refs'' : RbNode Ref} (h : Adds refs wanted parent refs')
    (h' : Adds refs' wanted' parent refs'') :
    Adds refs (fun bytenr => wanted bytenr ∨ wanted' bytenr) parent refs'' := by
  refine ⟨h'.keyed, fun ref href => h'.keeps ref (h.keeps ref href), ?_⟩
  rintro bytenr (hbytenr | hbytenr)
  · exact (h.wanted bytenr hbytenr).mono h'.keeps
  · exact h'.wanted bytenr hbytenr

theorem Adds.imp (h : Adds refs wanted parent refs')
    (himp : ∀ bytenr, wanted' bytenr → wanted bytenr) :
    Adds refs wanted' parent refs' :=
  ⟨h.keyed, h.keeps, fun bytenr hbytenr => h.wanted bytenr (himp bytenr hbytenr)⟩

theorem allocRef_spec (hr : KeyedTree Ref.key refs) (bytenr numBytes : ℕ) :
    ∃ refs', allocRef refs bytenr 0 parent numBytes = .ok refs' ∧
      Adds refs (· = bytenr) parent refs' := by
  have hcmp := compares_compareRef bytenr 0 parent
  cases hf : findRef refs bytenr 0 parent with
  | some ref =>
    obtain ⟨hmem, hz⟩ := treeSearch_sound hf
    have hkey := (hcmp.eq_zero_iff ref).mp hz
    simp only [Ref.key, toLex_inj, Prod.mk.injEq] at hkey
    refine ⟨refs, by simp [allocRef, hf], hr, fun _ h => h, ?_⟩
    rintro _ rfl
    exact ⟨ref, hmem, hkey⟩
  | none =>
    have hnew := (hr.treeSearch_eq_none_iff hcmp).mp hf
    obtain ⟨refs', hinside, hkeyed, hp⟩ := hr.rbInsert ⟨bytenr, numBytes, parent, 0⟩ hcmp hnew
    refine ⟨refs', ?_, hkeyed, fun ref href => ?_, ?_⟩
    · simp [allocRef, hf, insertRef, hinside, Except.map]
    · exact hp.mem_iff.mpr (List.mem_cons_of_mem _ href)
    · rintro _ rfl
      exact ⟨_, hp.mem_iff.mpr List.mem_cons_self, rfl, rfl, rfl⟩

theorem addRefForBlock_spec (hr : KeyedTree Ref.key refs) (bytenr numBytes : ℕ) :
    ∃ refs', addRefForBlock bytenr numBytes parent refs = .ok refs' ∧
      Adds refs (fun b => b ≠ parent ∧ b = bytenr) parent refs' := by
  by_cases heq : bytenr = parent
  · refine ⟨refs, by simp [addRefForBlock, heq], (Adds.refl hr).imp ?_⟩
    rintro b ⟨hne, rfl⟩
    exact hne heq
  · obtain ⟨refs', halloc, ha⟩ := @allocRef_spec refs parent hr bytenr numBytes
    exact ⟨refs', by simp [addRefForBlock, heq, halloc], ha.imp fun b h => h.2⟩

/-! ## The blocks of a tree -/

/-- An extent on disk that is not a hole. -/
def FileItem.IsExtent (item : FileItem) : Prop :=
  item.keyType = BTRFS_EXTENT_DATA_KEY ∧ item.extentType ≠ BTRFS_FILE_EXTENT_INLINE ∧
    item.diskBytenr ≠ 0

theorem addRefsForLeafItems_spec (items : List FileItem) (hre : KeyedTree Ref.key refs) :
    ∃ refs', addRefsForLeafItems parent items refs = .ok refs' ∧
      Adds refs (fun b => ∃ item ∈ items, item.IsExtent ∧ item.diskBytenr = b) parent refs' := by
  induction items generalizing refs with
  | nil => exact ⟨refs, rfl, (Adds.refl hre).imp (by simp)⟩
  | cons item items ih =>
    by_cases hi : item.IsExtent
    · obtain ⟨refs₁, halloc, ha⟩ :=
        @allocRef_spec refs parent hre item.diskBytenr item.diskNumBytes
      obtain ⟨refs₂, hr, ha'⟩ := ih ha.keyed
      refine ⟨refs₂, ?_, (ha.trans ha').imp fun b hb => ?_⟩
      · simp [addRefsForLeafItems, hi.1, hi.2.1, hi.2.2, halloc, hr, bind, Except.bind]
      · obtain ⟨item', hmem, hextent, rfl⟩ := hb
        rcases List.mem_cons.mp hmem with rfl | hmem
        · exact .inl rfl
        · exact .inr ⟨item', hmem, hextent, rfl⟩
    · obtain ⟨refs', hr, ha⟩ := ih hre
      refine ⟨refs', ?_, ha.imp fun b hb => ?_⟩
      · rw [addRefsForLeafItems]
        split_ifs with ht hinline hh
        · exact hr
        · exact hr
        · exact hr
        · exact absurd ⟨not_not.mp ht, hinline, hh⟩ hi
      · obtain ⟨item', hmem, hextent, rfl⟩ := hb
        rcases List.mem_cons.mp hmem with rfl | hmem
        · exact absurd hextent hi
        · exact ⟨item', hmem, hextent, rfl⟩

def TreeBlock.bytenr : TreeBlock → ℕ
  | .unreadable bytenr => bytenr
  | .leaf bytenr _ => bytenr
  | .node bytenr _ => bytenr

mutual

/-- The blocks strictly below a block and the extents in the leaves below it. -/
def TreeBlock.Below (b : ℕ) : TreeBlock → Prop
  | .unreadable _ => False
  | .leaf _ items => ∃ item ∈ items, item.IsExtent ∧ item.diskBytenr = b
  | .node _ children => BelowAny b children

def BelowAny (b : ℕ) : List TreeBlock → Prop
  | [] => False
  | child :: children => b = child.bytenr ∨ child.Below b ∨ BelowAny b children

end

mutual

/-- All blocks of a tree can be read. -/
def TreeBlock.Readable : TreeBlock → Prop
  | .unreadable _ => False
  | .leaf _ _ => True
  | .node _ children => ReadableAll children

def ReadableAll : List TreeBlock → Prop
  | [] => True
  | child :: children => child.Readable ∧ ReadableAll children

end

mutual

/-- The way down over the last pointers ends at a block that cannot be read. -/
def TreeBlock.EndsUnreadable : TreeBlock → Prop
  | .unreadable _ => True
  | .leaf _ _ => False
  | .node _ children => LastUnreadable children

def LastUnreadable : List TreeBlock → Prop
  | [] => False
  | child :: children => children = [] ∧ child.EndsUnreadable ∨ LastUnreadable children

end

/-! ## The walk -/

/-- The result of a walk: only the last block that is come to decides about the value. -/
def Travelled (refs : RbNode Ref) (parent : ℕ) (ends readable : Prop) (wanted : ℕ → Prop)
    (result : Call (ℤ × RbNode Ref)) : Prop :=
  ∃ ret refs', result = .ok (ret, refs') ∧ (ret ≠ 0 ↔ ends) ∧
    Adds refs (fun b => readable ∧ b ≠ parent ∧ wanted b) parent refs'

mutual

theorem travelTree_spec (block : TreeBlock) {refs : RbNode Ref} (hr : KeyedTree Ref.key refs)
    (numBytes : ℕ) :
    Travelled refs parent block.EndsUnreadable block.Readable
      (fun b => b = block.bytenr ∨ block.Below b)
      (travelTree nodesize parent block numBytes refs) := by
  match block with
  | .unreadable bytenr =>
    exact ⟨-eio, refs, rfl, by simp [TreeBlock.EndsUnreadable, eio],
      (Adds.refl hr).imp (by simp [TreeBlock.Readable])⟩
  | .leaf bytenr items =>
    obtain ⟨refs₁, hblock, ha⟩ := @addRefForBlock_spec refs parent hr bytenr numBytes
    obtain ⟨refs₂, hitems, ha'⟩ := @addRefsForLeafItems_spec refs₁ parent items ha.keyed
    refine ⟨0, refs₂, ?_, by simp [TreeBlock.EndsUnreadable], (ha.trans ha').imp ?_⟩
    · simp [travelTree, hblock, hitems, bind, Except.bind, pure, Except.pure]
    · rintro b ⟨-, hne, rfl | hb⟩
      · exact .inl ⟨hne, rfl⟩
      · exact .inr hb
  | .node bytenr children =>
    obtain ⟨refs₁, hblock, ha⟩ := @addRefForBlock_spec refs parent hr bytenr numBytes
    obtain ⟨ret, refs₂, hchildren, hret, ha'⟩ := travelChildren_spec children ha.keyed 0
    refine ⟨ret, refs₂, ?_, by simpa [TreeBlock.EndsUnreadable] using hret, (ha.trans ha').imp ?_⟩
    · simp [travelTree, hblock, hchildren, bind, Except.bind]
    · rintro b ⟨hre, hne, rfl | hb⟩
      · exact .inl ⟨hne, rfl⟩
      · exact .inr ⟨hre, hne, hb⟩

theorem travelChildren_spec (children : List TreeBlock) {refs : RbNode Ref}
    (hr : KeyedTree Ref.key refs) (ret : ℤ) :
    Travelled refs parent (children = [] ∧ ret ≠ 0 ∨ LastUnreadable children)
      (ReadableAll children) (fun b => BelowAny b children)
      (travelChildren nodesize parent children ret refs) := by
  match children with
  | [] => exact ⟨ret, refs, rfl, by simp [LastUnreadable], (Adds.refl hr).imp (by simp [BelowAny])⟩
  | child :: children =>
    obtain ⟨ret₁, refs₁, hch, hret₁, ha⟩ := travelTree_spec child hr nodesize
    obtain ⟨ret₂, refs₂, hrest, hret₂, ha'⟩ := travelChildren_spec children ha.keyed ret₁
    refine ⟨ret₂, refs₂, ?_, ?_, (ha.trans ha').imp ?_⟩
    · simp [travelChildren, hch, hrest, bind, Except.bind]
    · simp [hret₂, hret₁, LastUnreadable]
    · rintro b ⟨⟨hre, hrd⟩, hne, hb⟩
      rcases hb with hb | hb | hb
      · exact .inl ⟨hre, hne, .inl hb⟩
      · exact .inl ⟨hre, hne, .inr hb⟩
      · exact .inr ⟨hrd, hne, hb⟩

end

/-- The walk from a block returns 0 with all shared refs in the tree, and not if a block cannot be
read. A block below has another address than the one above it. -/
def CompleteOrFails (nodesize : ℕ) (refs : RbNode Ref) (block : TreeBlock) (numBytes : ℕ) : Prop :=
  ∃ ret refs', travelTree nodesize block.bytenr block numBytes refs = .ok (ret, refs') ∧
    (ret = 0 → ∀ b, block.Below b → b ≠ block.bytenr → HasRef refs' block.bytenr b) ∧
    (¬ block.Readable → ret ≠ 0)

/-- The loop over the pointers of a node keeps the value of the last one only, so that a block that
cannot be read is noticed at the right edge of the tree. -/
theorem travelTree_completeOrFails_iff (hrefs : KeyedTree Ref.key refs) (block : TreeBlock)
    (numBytes : ℕ) :
    CompleteOrFails nodesize refs block numBytes ↔ block.Readable ∨ block.EndsUnreadable := by
  obtain ⟨ret, refs', hrun, hret, ha⟩ :=
    @travelTree_spec nodesize block.bytenr block refs hrefs numBytes
  constructor
  · rintro ⟨ret₁, refs₁, hrun₁, -, hfails⟩
    cases hrun.symm.trans hrun₁
    by_cases hr : block.Readable
    · exact .inl hr
    · exact .inr (hret.mp (hfails hr))
  · intro h
    refine ⟨ret, refs', hrun, fun hz b hb hne => ha.wanted b ⟨?_, hne, .inr hb⟩, ?_⟩
    · exact h.resolve_right fun he => hret.mpr he hz
    · exact fun hr => hret.mpr (h.resolve_left hr)

/-- A node over two leaves, the first of which is as given. -/
def twoLeaves (first : TreeBlock) : TreeBlock :=
  .node 4096 [first, .leaf 12288 [⟨108, 1, 65536, 4096⟩]]

theorem twoLeaves_complete : CompleteOrFails 4096 .nil (twoLeaves (.leaf 8192 [])) 4096 :=
  (travelTree_completeOrFails_iff KeyedTree.nil _ _).mpr (.inl ⟨trivial, trivial, trivial⟩)

/-- The leaf that cannot be read is forgotten at the next one. -/
theorem twoLeaves_unreadable : ¬ CompleteOrFails 4096 .nil (twoLeaves (.unreadable 8192)) 4096 := by
  rintro ⟨ret, refs', hrun, -, hfails⟩
  have hz : travelTree 4096 4096 (twoLeaves (.unreadable 8192)) 4096 .nil =
      .ok (0, .node .black .nil ⟨12288, 4096, 4096, 0⟩
        (.node .red .nil ⟨65536, 4096, 4096, 0⟩ .nil)) := by
    rfl
  cases hz.symm.trans hrun
  exact hfails (fun h => h.1) rfl

end Btrfs.QgroupVerify
