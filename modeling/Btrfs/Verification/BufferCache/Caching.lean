import Btrfs.Model.BufferCache
import Btrfs.Verification.CacheTree.Ranges
import Btrfs.Verification.ExtentIo.ClearBits
import Btrfs.Verification.Shared.Calls

/-! # The buffer cache and its invariant -/

namespace Btrfs.BufferCache

open CacheTree ExtentCache ExtentIo RbTree

/-! ## Sizes of disjoint ranges -/

theorem sum_size_le {xs : List CacheExtent} {lo hi : ℕ} (hle : lo ≤ hi)
    (hdisjoint : xs.Pairwise fun a b => a.start + a.size ≤ b.start)
    (hlo : ∀ e ∈ xs, lo ≤ e.start) (hhi : ∀ e ∈ xs, e.start + e.size ≤ hi) :
    lo + (xs.map CacheExtent.size).sum ≤ hi := by
  induction xs generalizing lo with
  | nil => simpa using hle
  | cons y ys ih =>
    obtain ⟨hy, hys⟩ := List.pairwise_cons.mp hdisjoint
    have hfirst := hlo y (by simp)
    have hr := ih (hhi y (by simp)) hys hy
      fun e he => hhi e (List.mem_cons_of_mem y he)
    simp only [List.map_cons, List.sum_cons]
    omega

theorem sum_size_lt {xs : List CacheExtent} (h : Ranges xs) :
    (xs.map CacheExtent.size).sum < 2 ^ 64 := by
  have hle := sum_size_le (Nat.zero_le (2 ^ 64 - 1)) h.disjoint (fun e _ => Nat.zero_le e.start)
    fun e he => Nat.le_sub_one_of_lt (h.end_lt e he)
  omega

/-! ## The invariant -/

def Buffer.node (b : Buffer) (eb : Ptr) : CacheNode := ⟨⟨b.start, b.len⟩, eb⟩

/-- The reference that a dirty buffer has on itself. -/
def Buffer.dirtyRef (b : Buffer) : ℕ := if b.dirty then 1 else 0

structure Placed (s : Cache) (eb : Ptr) (b : Buffer) : Prop where
  inTree : b.inTree = !b.dummy
  clean : b.dummy = true → b.dirty = false
  node : b.dummy = false → b.node eb ∈ inorder s.cache

structure Inv (s : Cache) (held : Ptr → ℕ) : Prop where
  valid : Valid s.cache
  ranges : Ranges ((inorder s.cache).map CacheNode.ce)
  nodup : ((inorder s.cache).map CacheNode.eb).Nodup
  nodes : ∀ n ∈ inorder s.cache, ∃ b, s.buffers n.eb = some b ∧ n = b.node n.eb ∧ b.dummy = false
  placed : ∀ eb b, s.buffers eb = some b → Placed s eb b
  refs : ∀ eb b, s.buffers eb = some b → b.refs = held eb + b.dirtyRef
  unknown : ∀ eb, s.buffers eb = none → held eb = 0
  lru : s.lru.Perm ((inorder s.cache).map CacheNode.eb)
  size : s.cacheSize = (((inorder s.cache).map CacheNode.ce).map CacheExtent.size).sum
  state : Ordered s.state
  fresh : ∀ eb, s.fresh ≤ eb → s.buffers eb = none

theorem inv_init (maxCacheSize : ℕ) : Inv (.init maxCacheSize) fun _ => 0 where
  valid := valid_nil
  ranges := ranges_nil
  nodup := List.nodup_nil
  nodes := List.forall_mem_nil _
  placed := nofun
  refs := nofun
  unknown := fun _ _ => rfl
  lru := .nil
  size := rfl
  state := ordered_nil
  fresh := fun _ _ => rfl

section

variable {s : Cache} {held : Ptr → ℕ} {eb : Ptr} {b : Buffer} {n m : CacheNode}

theorem deref_eq (h : s.buffers eb = some b) : s.deref eb = .ok b := by rw [Cache.deref, h]

theorem Inv.exists_of_held (h : Inv s held) (hh : 0 < held eb) : ∃ b, s.buffers eb = some b := by
  cases hb : s.buffers eb with
  | none => exact absurd (h.unknown eb hb) (by omega)
  | some b => exact ⟨b, rfl⟩

theorem Inv.node_unique (h : Inv s held) (hn : n ∈ inorder s.cache) (hm : m ∈ inorder s.cache)
    (heb : n.eb = m.eb) : n = m :=
  List.inj_on_of_nodup_map h.nodup hn hm heb

def Apart (n m : CacheNode) : Prop :=
  n.ce.start + n.ce.size ≤ m.ce.start ∨ m.ce.start + m.ce.size ≤ n.ce.start

instance : Std.Symm Apart := ⟨fun _ _ h => h.symm⟩

theorem Inv.apart (h : Inv s held) : (inorder s.cache).Pairwise Apart :=
  (List.pairwise_map.mp h.ranges.disjoint).imp Or.inl

theorem Inv.eq_of_overlaps (h : Inv s held) (hn : n ∈ inorder s.cache) (hm : m ∈ inorder s.cache)
    (ho : Overlaps n.ce m.ce.start m.ce.size) : n = m := by
  by_contra hne
  have hapart : Apart n m := h.apart.forall hn hm hne
  rw [Apart] at hapart
  obtain ⟨hlow, hhigh⟩ := ho
  omega

theorem Inv.store (h : Inv s held) {held' : Ptr → ℕ} (b' : Buffer) (hb : s.buffers eb = some b)
    (hno : b'.node eb = b.node eb) (hdum : b'.dummy = b.dummy) (hin : b'.inTree = b.inTree)
    (hclean : b'.dummy = true → b'.dirty = false) (hr : b'.refs = held' eb + b'.dirtyRef)
    (hothers : ∀ p, p ≠ eb → held' p = held p) {lru : List Ptr} (hlru : lru.Perm s.lru)
    {state : StateTree} (hstate : Ordered state) :
    Inv { s.store eb b' with lru := lru, state := state } held' := by
  have hplace := h.placed eb b hb
  refine ⟨h.valid, h.ranges, h.nodup, ?_, ?_, ?_, ?_, hlru.trans h.lru, h.size, hstate, ?_⟩
  · intro n hn
    obtain ⟨c, hc, hcnode, hcdummy⟩ := h.nodes n hn
    by_cases heq : n.eb = eb
    · refine ⟨b', ?_, ?_, ?_⟩
      · exact (congrArg _ heq).trans (Function.update_self ..)
      · rw [heq, hb] at hc
        obtain rfl := Option.some.inj hc
        rw [heq, hno, ← heq]
        exact hcnode
      · rw [heq, hb] at hc
        obtain rfl := Option.some.inj hc
        exact hdum.trans hcdummy
    · exact ⟨c, (Function.update_of_ne heq ..).trans hc, hcnode, hcdummy⟩
  · intro p c hc
    by_cases heq : p = eb
    · subst heq
      have hs := (Function.update_self ..).symm.trans hc
      obtain rfl := Option.some.inj hs
      refine ⟨?_, hclean, ?_⟩
      · rw [hin, hdum]
        exact hplace.inTree
      · intro hnot
        rw [hno]
        exact hplace.node (hdum.symm.trans hnot)
    · have hp := h.placed p c ((Function.update_of_ne heq ..).symm.trans hc)
      exact ⟨hp.inTree, hp.clean, hp.node⟩
  · intro p c hc
    by_cases heq : p = eb
    · subst heq
      have hs := (Function.update_self ..).symm.trans hc
      obtain rfl := Option.some.inj hs
      exact hr
    · rw [hothers p heq]
      exact h.refs p c ((Function.update_of_ne heq ..).symm.trans hc)
  · intro p hp
    by_cases heq : p = eb
    · subst heq
      exact absurd ((Function.update_self ..).symm.trans hp) nofun
    · rw [hothers p heq]
      exact h.unknown p ((Function.update_of_ne heq ..).symm.trans hp)
  · intro p hp
    have hne : p ≠ eb := by
      rintro rfl
      rw [h.fresh p hp] at hb
      cases hb
    exact (Function.update_of_ne hne ..).trans (h.fresh p hp)

end

/-! ## Taking and dropping references -/

variable {eb : Ptr} {b : Buffer}

def Buffer.got (b : Buffer) : Buffer := { b with refs := b.refs + 1 }

def Buffer.put (b : Buffer) : Buffer := { b with refs := b.refs - 1 }

section

variable {s : Cache} {held : Ptr → ℕ}

/-! ## Taking a reference -/

theorem extentBufferGet_eq (hb : s.buffers eb = some b) : extentBufferGet s eb =
      if b.refs = intMax then .error .bug else .ok (s.store eb b.got) := by
  simp only [extentBufferGet, deref_eq hb, bind, Except.bind]
  by_cases hmax : b.refs = intMax
  · simp [hmax]
  · simp only [hmax]
    rfl

theorem take_self (eb : Ptr) : take held eb eb = held eb + 1 := Function.update_self ..

theorem take_of_ne {p : Ptr} (h : p ≠ eb) : take held eb p = held p := Function.update_of_ne h ..

theorem drop_self (eb : Ptr) : drop held eb eb = held eb - 1 := Function.update_self ..

theorem drop_of_ne {p : Ptr} (h : p ≠ eb) : drop held eb p = held p := Function.update_of_ne h ..

theorem Inv.get (h : Inv s held) (hb : s.buffers eb = some b) {lru : List Ptr}
    (hlru : lru.Perm s.lru) :
    Inv { s.store eb b.got with lru := lru } (take held eb) := by
  refine h.store b.got hb rfl rfl rfl (h.placed eb b hb).clean ?_ (fun p => take_of_ne) hlru h.state
  have hr := h.refs eb b hb
  have hdirty : b.got.dirtyRef = b.dirtyRef := rfl
  rw [take_self]
  change b.refs + 1 = _
  omega

theorem Inv.touch (h : Inv s held) {n : CacheNode} (hn : n ∈ inorder s.cache)
    (hb : s.buffers n.eb = some b) (hmax : b.refs ≠ intMax) :
    ∃ s', touchBuffer s n.eb = .ok s' ∧ Inv s' (take held n.eb) := by
  have hmem : n.eb ∈ s.lru := h.lru.mem_iff.mpr (List.mem_map_of_mem hn)
  have hp : (s.lru.erase n.eb ++ [n.eb]).Perm s.lru :=
    (List.perm_append_singleton _ _).trans (List.perm_cons_erase hmem).symm
  refine ⟨_, ?_, h.get hb hp⟩
  have hb' : ({ s with lru := s.lru.erase n.eb ++ [n.eb] } : Cache).buffers n.eb = some b := hb
  rw [touchBuffer, extentBufferGet_eq hb', if_neg hmax]
  rfl

/-! ## Freeing a buffer -/

theorem locate_spec (eb : Ptr) (t : RbNode CacheNode) (up : List (Frame CacheNode)) :
    match locate eb t up with
    | none => ∀ n ∈ inorder t, n.eb ≠ eb
    | some node => node.root = unzip up t ∧ node.entry.eb = eb := by
  induction t generalizing up with
  | nil => exact List.forall_mem_nil _
  | node c l e r ihl ihr =>
    rw [locate]
    have hl := ihl (⟨.left, c, e, r⟩ :: up)
    cases hle : locate eb l (⟨.left, c, e, r⟩ :: up) with
    | some node =>
      rw [hle] at hl
      exact hl
    | none =>
      rw [hle] at hl
      by_cases he : e.eb = eb
      · simp only [he, if_true]
        exact ⟨rfl, trivial⟩
      · simp only [he]
        have hr := ihr (⟨.right, c, e, l⟩ :: up)
        cases hright : locate eb r (⟨.right, c, e, l⟩ :: up) with
        | some node =>
          rw [hright] at hr
          exact hr
        | none =>
          rw [hright] at hr
          intro n hn
          simp only [inorder, List.mem_append, List.mem_cons] at hn
          rcases hn with hn | rfl | hn
          · exact hl n hn
          · exact he
          · exact hr n hn

theorem Inv.around (h : Inv s held) (hb : s.buffers eb = some b) (hdum : b.dummy = false) :
    ∃ node, locate eb s.cache [] = some node ∧ node.root = s.cache ∧
      inorder s.cache = node.before ++ b.node eb :: node.after := by
  have hs := locate_spec eb s.cache []
  have hmem := (h.placed eb b hb).node hdum
  cases hn : locate eb s.cache [] with
  | none =>
    rw [hn] at hs
    exact absurd rfl (hs _ hmem)
  | some node =>
    rw [hn] at hs
    have hr : node.root = s.cache := hs.1
    have horder := Loc.inorder_root node
    rw [hr] at horder
    have hent : node.entry = b.node eb := by
      refine h.node_unique ?_ hmem hs.2
      rw [horder]
      exact by simp
    rw [hent] at horder
    exact ⟨node, rfl, hr, horder⟩

theorem Inv.freeFinal (h : Inv s held) (hb : s.buffers eb = some b) (hdum : b.dummy = false)
    (hr : b.refs = 0) :
    ∃ s', freeExtentBufferFinal s eb = .ok s' ∧ Inv s' held ∧
      s'.buffers = Function.update s.buffers eb none ∧ s'.lru = s.lru.erase eb := by
  obtain ⟨node, hloc, hro, horder⟩ := h.around hb hdum
  obtain ⟨cache, herase, hval, horder'⟩ := rbErase_spec (hro ▸ h.valid)
  have hsub : (inorder cache).Sublist (inorder s.cache) := by
    rw [horder, horder']
    exact (List.Sublist.refl _).append (List.sublist_cons_self _ _)
  have heb : (b.node eb).eb = eb := rfl
  have hnd := h.nodup
  rw [horder, List.map_append, List.map_cons, heb] at hnd
  have hne : ∀ n ∈ inorder cache, n.eb ≠ eb := by
    intro n hn heq
    rw [horder'] at hn
    have hmem : n.eb ∈ node.before.map CacheNode.eb ++ node.after.map CacheNode.eb := by
      rw [← List.map_append]
      exact List.mem_map_of_mem hn
    exact (List.nodup_middle.mp hnd).notMem (heq ▸ hmem)
  have hs : s.cacheSize = (((inorder cache).map CacheNode.ce).map CacheExtent.size).sum + b.len := by
    rw [h.size, horder, horder']
    simp only [List.map_append, List.map_cons, List.sum_append, List.sum_cons, Buffer.node]
    omega
  have hbound := sum_size_lt h.ranges
  rw [← h.size] at hbound
  have hz := h.refs eb b hb
  have hh : held eb = 0 := by omega
  refine ⟨{ s with
      lru := s.lru.erase eb
      cache := cache
      cacheSize := sub64 s.cacheSize b.len
      buffers := Function.update s.buffers eb none }, ?_, ?_, rfl, rfl⟩
  · simp only [freeExtentBufferFinal, deref_eq hb, hr, (h.placed eb b hb).inTree, hdum, uncache,
      hloc, herase, bind, Except.bind, pure,
      decide_eq_false (show ¬ s.cacheSize < b.len by omega)]
    rfl
  · refine ⟨hval, h.ranges.sublist (hsub.map _), h.nodup.sublist (hsub.map _), ?_, ?_, ?_, ?_, ?_,
      ?_, h.state, ?_⟩
    · intro n hn
      obtain ⟨c, hc, hcnode⟩ := h.nodes n (hsub.subset hn)
      exact ⟨c, (Function.update_of_ne (hne n hn) ..).trans hc, hcnode⟩
    · intro p c hc
      have hp : p ≠ eb := by
        rintro rfl
        exact absurd ((Function.update_self ..).symm.trans hc) nofun
      have hplace := h.placed p c ((Function.update_of_ne hp ..).symm.trans hc)
      refine ⟨hplace.inTree, hplace.clean, ?_⟩
      intro hcdummy
      have hmem := hplace.node hcdummy
      rw [horder, List.mem_append, List.mem_cons] at hmem
      rw [horder', List.mem_append]
      rcases hmem with hmem | hmem | hmem
      · exact .inl hmem
      · exact absurd (congrArg CacheNode.eb hmem) hp
      · exact .inr hmem
    · intro p c hc
      have hp : p ≠ eb := by
        rintro rfl
        exact absurd ((Function.update_self ..).symm.trans hc) nofun
      exact h.refs p c ((Function.update_of_ne hp ..).symm.trans hc)
    · intro p hp
      by_cases heq : p = eb
      · rw [heq]
        exact hh
      · exact h.unknown p ((Function.update_of_ne heq ..).symm.trans hp)
    · have hpe := h.lru.erase eb
      rw [horder, List.map_append, List.map_cons, heb] at hpe
      refine hpe.trans ?_
      rw [horder', List.map_append]
      have hnot := (List.nodup_middle.mp hnd).notMem
      rw [List.mem_append, not_or] at hnot
      simp [List.erase_append_right _ hnot.1]
    · rw [sub64_of_le (by omega) hbound, hs, Nat.add_sub_cancel]
    · intro p hp
      by_cases heq : p = eb
      · rw [heq]
        exact Function.update_self ..
      · exact (Function.update_of_ne heq ..).trans (h.fresh p hp)

/-! ## Dropping a reference -/

theorem freeExtentBufferInternal_eq (hb : s.buffers eb = some b) (freeNow : Bool) :
    freeExtentBufferInternal s eb freeNow =
      if b.refs < 1 then .error .bug
      else if b.refs = 1 then
        if b.dirty then .error .bug
        else if b.dummy || freeNow then
          freeExtentBufferFinal (s.store eb b.put) eb
        else .ok (s.store eb b.put)
      else .ok (s.store eb b.put) := by
  have hput : b.put.refs = b.refs - 1 := rfl
  have hunfold : freeExtentBufferInternal s eb freeNow = (do
      let b ← s.deref eb
      bugOn (b.put.refs < 0)
      if b.put.refs = 0 then
        bugOn b.dirty
        if b.dummy || freeNow then freeExtentBufferFinal (s.store eb b.put) eb
        else return s.store eb b.put
      else return s.store eb b.put) := rfl
  simp only [hunfold, deref_eq hb, bind, Except.bind]
  by_cases hneg : b.refs < 1
  · simp [show b.put.refs < 0 by omega, hneg]
  · simp only [show ¬ b.put.refs < 0 by omega, hneg]
    by_cases hone : b.refs = 1
    · simp only [show b.put.refs = 0 by omega, hone]
      cases b.dirty with
      | true => rfl
      | false => rfl
    · simp only [show ¬ b.put.refs = 0 by omega, hone]
      rfl

theorem drop_take (held : Ptr → ℕ) (eb : Ptr) : drop (take held eb) eb = held := by
  funext p
  by_cases hp : p = eb
  · rw [hp, drop_self, take_self, Nat.add_sub_cancel]
  · rw [drop_of_ne hp, take_of_ne hp]

theorem take_drop (h : 0 < held eb) : take (drop held eb) eb = held := by
  funext p
  by_cases hp : p = eb
  · rw [hp, take_self, drop_self, Nat.sub_add_cancel h]
  · rw [take_of_ne hp, drop_of_ne hp]

section

variable (h : Inv s held) (hb : s.buffers eb = some b)

include h hb

theorem Inv.put (hh : 0 < held eb) : Inv (s.store eb b.put) (drop held eb) := by
  refine h.store b.put hb rfl rfl rfl (h.placed eb b hb).clean ?_
    (fun p => drop_of_ne) (List.Perm.refl s.lru) h.state
  have hr := h.refs eb b hb
  have hdirty : b.put.dirtyRef = b.dirtyRef := rfl
  rw [drop_self]
  change b.refs - 1 = _
  omega

theorem Inv.free (hh : 0 < held eb) (hl : b.dummy = true → 1 < held eb) (freeNow : Bool) :
    ∃ s', freeExtentBufferInternal s eb freeNow = .ok s' ∧ Inv s' (drop held eb) := by
  have hr := h.refs eb b hb
  have hput := h.put hb hh
  rw [freeExtentBufferInternal_eq hb, if_neg (by omega)]
  by_cases hone : b.refs = 1
  · have hz : b.dirtyRef = 0 := by omega
    have hclean : b.dirty = false := by
      cases hdirty : b.dirty with
      | false => rfl
      | true => simp [Buffer.dirtyRef, hdirty] at hz
    have hdum : b.dummy = false := by
      cases hdum : b.dummy with
      | false => rfl
      | true =>
        have := hl hdum
        omega
    simp only [hone, hclean, hdum]
    cases freeNow with
    | false => exact ⟨_, rfl, hput⟩
    | true =>
      have hz : b.put.refs = 0 := by
        change b.refs - 1 = 0
        omega
      obtain ⟨s', hf, hinv, -⟩ := hput.freeFinal (Function.update_self ..) hdum hz
      exact ⟨s', hf, hinv⟩
  · rw [if_neg hone]
    exact ⟨_, rfl, hput⟩

/-- The last reference of a clone cannot be dropped: its `tree` is NULL. -/
theorem Inv.free_clone (hdum : b.dummy = true) (hh : held eb = 1) (freeNow : Bool) :
    freeExtentBufferInternal s eb freeNow = .error .bug := by
  have hclean := (h.placed eb b hb).clean hdum
  have hin := (h.placed eb b hb).inTree
  have hr := h.refs eb b hb
  have hone : b.refs = 1 := by
    rw [hr, hh, Buffer.dirtyRef, hclean]
    rfl
  rw [freeExtentBufferInternal_eq hb, if_pos hone, hdum]
  have hb' : (s.store eb b.put).buffers eb = some b.put := Function.update_self ..
  rw [freeExtentBufferFinal, deref_eq hb']
  have hz : b.put.refs = 0 := by
    change b.refs - 1 = 0
    omega
  have hnull : b.put.inTree = false := by
    change b.inTree = false
    rw [hin, hdum]
    rfl
  simp [bind, Except.bind, hz, hnull]

end

end

/-! ## Finding and making buffers -/

variable {bytenr blocksize : ℕ}

section

variable {s : Cache} {held : Ptr → ℕ}

/-! ## Searching -/

section

variable (h : Inv s held)

include h

theorem Inv.consistent (bytenr blocksize : ℕ) :
    Consistent (fun n : CacheNode => cacheTreeCompRange n.ce bytenr blocksize) (inorder s.cache) :=
  List.pairwise_map.mp (h.ranges.consistent bytenr blocksize)

variable {n : CacheNode} {b : Buffer}

theorem Inv.lookup_mem (hfnd : lookupBuffer s bytenr blocksize = some n) : n ∈ inorder s.cache := by
  rw [lookupBuffer] at hfnd
  obtain ⟨node, hc, hr, -⟩ | ⟨below, above, next, -, hc, -⟩ :=
    rbSearch_spec (h.consistent bytenr blocksize)
  · rw [hc] at hfnd
    obtain rfl := Option.some.inj hfnd
    exact hr ▸ Loc.entry_mem _
  · rw [hc] at hfnd
    cases hfnd

theorem Inv.lookup (hlt : bytenr + blocksize < 2 ^ 64) :
    match lookupBuffer s bytenr blocksize with
    | none => ∀ n ∈ inorder s.cache, ¬ Overlaps n.ce bytenr blocksize
    | some n => n ∈ inorder s.cache ∧ Overlaps n.ce bytenr blocksize := by
  have hz : ∀ n ∈ inorder s.cache, cacheTreeCompRange n.ce bytenr blocksize = 0 ↔
      Overlaps n.ce bytenr blocksize :=
    fun n hn => h.ranges.comp_zero_iff (List.mem_map_of_mem hn) hlt
  obtain ⟨node, hc, -, heq⟩ | ⟨below, above, next, hcut, hc, -⟩ :=
    rbSearch_spec (h.consistent bytenr blocksize)
  · have hfound : lookupBuffer s bytenr blocksize = some node.entry := by
      rw [lookupBuffer, hc]
      rfl
    have hmem := h.lookup_mem hfound
    rw [hfound]
    exact ⟨hmem, (hz _ hmem).mp heq⟩
  · rw [lookupBuffer, hc]
    intro n hn ho
    exact hcut.ne_zero n hn ((hz n hn).mpr ho)

theorem Inv.lookup_exact (hlt : bytenr + blocksize < 2 ^ 64) (hpos : 0 < blocksize)
    (hn : n ∈ inorder s.cache) (hce : n.ce = ⟨bytenr, blocksize⟩) :
    lookupBuffer s bytenr blocksize = some n := by
  have ho : Overlaps n.ce bytenr blocksize := by
    rw [hce]
    exact ⟨Nat.lt_add_of_pos_right hpos, Nat.lt_add_of_pos_right hpos⟩
  have hlookup := h.lookup hlt
  cases hfound : lookupBuffer s bytenr blocksize with
  | none =>
    rw [hfound] at hlookup
    exact absurd ho (hlookup n hn)
  | some m =>
    rw [hfound] at hlookup
    obtain ⟨hm, hmover⟩ := hlookup
    rw [h.eq_of_overlaps hm hn (by rw [hce]; exact hmover)]

/-! ## Trimming -/

theorem Inv.freeUnused {eb : Ptr} (hb : s.buffers eb = some b) (hdum : b.dummy = false) :
    ∃ s', freeUnused s eb = .ok s' ∧ Inv s' held ∧ ∀ p, p ≠ eb → s'.buffers p = s.buffers p := by
  rw [BufferCache.freeUnused, deref_eq hb]
  by_cases hr : b.refs = 0
  · obtain ⟨s', hf, hinv, hbufs, -⟩ := h.freeFinal hb hdum hr
    refine ⟨s', ?_, hinv, ?_⟩
    · simp [bind, Except.bind, hr, hf]
    · intro p hp
      rw [hbufs]
      exact Function.update_of_ne hp ..
  · refine ⟨s, ?_, h, fun p _ => rfl⟩
    simp [bind, Except.bind, hr, pure, Except.pure]

theorem Inv.trimLoop (lru : List Ptr) (hnd : lru.Nodup)
    (hbufs : ∀ eb ∈ lru, ∃ b, s.buffers eb = some b ∧ b.dummy = false) :
    ∃ s', trimLoop lru s = .ok s' ∧ Inv s' held := by
  induction lru generalizing s with
  | nil => exact ⟨s, rfl, h⟩
  | cons eb rest ih =>
    obtain ⟨hnot, hr⟩ := List.nodup_cons.mp hnd
    obtain ⟨b, hb, hdum⟩ := hbufs eb (by simp)
    obtain ⟨s', hf, hinv, hothers⟩ := h.freeUnused hb hdum
    simp only [BufferCache.trimLoop, hf, bind, Except.bind]
    split
    · exact ⟨s', rfl, hinv⟩
    · apply ih hinv hr
      intro p hp
      rw [hothers p fun heq => hnot (heq ▸ hp)]
      exact hbufs p (List.mem_cons_of_mem eb hp)

theorem Inv.trimIfFull : ∃ s', trimIfFull s = .ok s' ∧ Inv s' held := by
  rw [BufferCache.trimIfFull]
  split
  · refine h.trimLoop s.lru (h.lru.nodup_iff.mpr h.nodup) ?_
    intro eb heb
    obtain ⟨n, hn, rfl⟩ := List.mem_map.mp (h.lru.mem_iff.mp heb)
    obtain ⟨b, hb, -, hdum⟩ := h.nodes n hn
    exact ⟨b, hb, hdum⟩
  · exact ⟨s, rfl, h⟩

/-! ## A new buffer -/

theorem Inv.alloc (b : Buffer) (hr : b.refs = 1) (hclean : b.dirty = false)
    (hin : b.inTree = !b.dummy) {cache : RbNode CacheNode} (hval : Valid cache)
    (hranges : Ranges ((inorder cache).map CacheNode.ce))
    (hnd : ((inorder cache).map CacheNode.eb).Nodup)
    (hold : ∀ n ∈ inorder s.cache, n ∈ inorder cache)
    (hnew : ∀ n ∈ inorder cache, n ∈ inorder s.cache ∨ n = b.node s.fresh ∧ b.dummy = false)
    (hnode : b.dummy = false → b.node s.fresh ∈ inorder cache)
    {lru : List Ptr} (hlru : lru.Perm ((inorder cache).map CacheNode.eb)) {cacheSize : ℕ}
    (hsi : cacheSize = (((inorder cache).map CacheNode.ce).map CacheExtent.size).sum) :
    Inv { s.store s.fresh b with
      fresh := s.fresh + 1
      cache := cache
      lru := lru
      cacheSize := cacheSize } (take held s.fresh) := by
  have hno := h.fresh s.fresh le_rfl
  have hs : (s.store s.fresh b).buffers s.fresh = some b := Function.update_self ..
  have hothers : ∀ p, p ≠ s.fresh → (s.store s.fresh b).buffers p = s.buffers p :=
    fun p hp => Function.update_of_ne hp ..
  refine ⟨hval, hranges, hnd, ?_, ?_, ?_, ?_, hlru, hsi, h.state, ?_⟩
  · intro n hn
    rcases hnew n hn with hmem | ⟨rfl, hdum⟩
    · obtain ⟨c, hc, hcnode⟩ := h.nodes n hmem
      have hne : n.eb ≠ s.fresh := by
        intro heq
        rw [heq, hno] at hc
        cases hc
      exact ⟨c, (hothers _ hne).trans hc, hcnode⟩
    · exact ⟨b, hs, rfl, hdum⟩
  · intro p c hc
    by_cases heq : p = s.fresh
    · subst heq
      obtain rfl := Option.some.inj (hs.symm.trans hc)
      exact ⟨hin, fun _ => hclean, hnode⟩
    · have hp := h.placed p c ((hothers p heq).symm.trans hc)
      exact ⟨hp.inTree, hp.clean, fun hdum => hold _ (hp.node hdum)⟩
  · intro p c hc
    by_cases heq : p = s.fresh
    · subst heq
      obtain rfl := Option.some.inj (hs.symm.trans hc)
      rw [take_self, h.unknown _ hno, hr, Buffer.dirtyRef, hclean]
      rfl
    · rw [take_of_ne heq]
      exact h.refs p c ((hothers p heq).symm.trans hc)
  · intro p hp
    by_cases heq : p = s.fresh
    · subst heq
      exact absurd (hs.symm.trans hp) (Option.some_ne_none b)
    · rw [take_of_ne heq]
      exact h.unknown p ((hothers p heq).symm.trans hp)
  · intro p hp
    have hlt : s.fresh < p := Nat.lt_of_succ_le hp
    exact (hothers p hlt.ne').trans (h.fresh p hlt.le)

theorem Inv.clone {src : Ptr} (hb : s.buffers src = some b) :
    ∃ s', btrfsCloneExtentBuffer s src = .ok (s.fresh, s') ∧ Inv s' (take held s.fresh) := by
  have hc : btrfsCloneExtentBuffer s src = .ok (s.fresh, { s.store s.fresh
      ⟨b.start, b.len, 1, false, true, false, fun k => if k < b.len then b.data k else 0⟩ with
      fresh := s.fresh + 1 }) := by
    simp [btrfsCloneExtentBuffer, bind, Except.bind, allocBuffer, Cache.deref, hb, Cache.store, Function.update_self, Function.update_idem, pure, Except.pure]
  exact ⟨_, hc, h.alloc _ rfl rfl rfl h.valid h.ranges h.nodup (fun n hn => hn)
    (fun n hn => .inl hn) (fun hdum => Bool.noConfusion hdum) h.lru h.size⟩

end

def newBuffer (bytenr blocksize : ℕ) : Buffer :=
  ⟨bytenr, blocksize, 1, false, false, true, fun _ => 0⟩

theorem Inv.insert (h : Inv s held) (hpos : 0 < blocksize) (hlt : bytenr + blocksize < 2 ^ 64)
    (hf : ∀ n ∈ inorder s.cache, ¬ Overlaps n.ce bytenr blocksize) :
    ∃ s', insertBuffer s bytenr blocksize = .ok (some s.fresh, s') ∧
      Inv s' (take held s.fresh) := by
  have hz : ∀ n ∈ inorder s.cache, cacheTreeCompRange n.ce bytenr blocksize ≠ 0 :=
    fun n hn heq => hf n hn ((h.ranges.comp_zero_iff (List.mem_map_of_mem hn) hlt).mp heq)
  obtain ⟨⟨n, hn, heq⟩, -⟩ | ⟨cache, below, above, hcut, hinside, hval, horder⟩ :=
    rbInsert_spec ((newBuffer bytenr blocksize).node s.fresh) h.valid (h.consistent bytenr blocksize)
  · exact absurd heq (hz n hn)
  have hp : (inorder cache).Perm ((newBuffer bytenr blocksize).node s.fresh :: inorder s.cache) := by
    rw [horder, hcut.append]
    exact List.perm_middle
  have hranges : Ranges ((inorder cache).map CacheNode.ce) := by
    have hmem : ∀ n, n ∈ below ∨ n ∈ above → n.ce ∈ (inorder s.cache).map CacheNode.ce := by
      intro n hn
      rw [hcut.append]
      exact List.mem_map_of_mem (List.mem_append.mpr hn)
    rw [horder, List.map_append]
    refine ranges_insert _ ?_ hpos hlt ?_ ?_
    · rw [← List.map_append, ← hcut.append]
      exact h.ranges
    · rw [List.forall_mem_map]
      intro n hn
      exact (h.ranges.comp_pos_iff (hmem n (.inl hn)) _ _).mp (hcut.below n hn)
    · rw [List.forall_mem_map]
      intro n hn
      exact (h.ranges.comp_neg_iff (hmem n (.inr hn)) hlt hpos).mp (hcut.above n hn)
  have hnd : ((inorder cache).map CacheNode.eb).Nodup := by
    rw [(hp.map CacheNode.eb).nodup_iff, List.map_cons, List.nodup_cons]
    refine ⟨?_, h.nodup⟩
    intro hmem
    obtain ⟨n, hn, heb⟩ := List.mem_map.mp hmem
    obtain ⟨b, hb, -⟩ := h.nodes n hn
    have hfresh : n.eb = s.fresh := heb
    rw [hfresh, h.fresh s.fresh le_rfl] at hb
    cases hb
  have hsum : (((inorder cache).map CacheNode.ce).map CacheExtent.size).sum =
      s.cacheSize + blocksize := by
    rw [horder, h.size, hcut.append]
    simp only [List.map_append, List.map_cons, List.sum_append, List.sum_cons, newBuffer,
      Buffer.node]
    omega
  have hs : wrap64 (s.cacheSize + blocksize) =
      (((inorder cache).map CacheNode.ce).map CacheExtent.size).sum := by
    rw [← hsum]
    exact wrap64_of_lt (sum_size_lt hranges)
  have hlru : (s.lru ++ [s.fresh]).Perm ((inorder cache).map CacheNode.eb) :=
    (List.perm_append_singleton _ _).trans ((h.lru.cons s.fresh).trans (hp.map CacheNode.eb).symm)
  have hinv := h.alloc (newBuffer bytenr blocksize) rfl rfl rfl hval hranges hnd
    (fun n hn => hp.mem_iff.mpr (by simp [hn]))
    (fun n hn => (List.mem_cons.mp (hp.mem_iff.mp hn)).symm.imp id fun heq => ⟨heq, rfl⟩)
    (fun _ => hp.mem_iff.mpr (by simp)) hlru hs
  obtain ⟨s', htrim, hinv'⟩ := hinv.trimIfFull
  refine ⟨s', ?_, hinv'⟩
  have hc : rbInsert s.cache ⟨⟨bytenr, blocksize⟩, s.fresh⟩
      (fun n => cacheTreeCompRange n.ce bytenr blocksize) = .ok (0, cache) := hinside
  simp only [newBuffer, Cache.store] at htrim
  simp only [insertBuffer, allocBuffer, Cache.store, hc, bind, Except.bind, ne_eq,
    not_true_eq_false, if_false, htrim, pure, Except.pure]

end

end Btrfs.BufferCache
