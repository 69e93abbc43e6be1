import Btrfs.Verification.BufferCache.Caching
import Btrfs.Verification.ExtentIo.SetBits

/-! # Runs of the buffer cache -/

namespace Btrfs.BufferCache

open CacheTree ExtentCache ExtentIo RbTree

variable {bytenr blocksize : ℕ} {u' : Users} {s : Cache} {held : Ptr → ℕ} {eb : Ptr} {b : Buffer}
  {state : StateTree} {u : Users}

/-! ## What is kept -/

/-- The references are counted, the cached buffers are disjoint and the size of the cache is the
sum of their lengths. -/
structure Counted (u : Users) : Prop where
  refs : ∀ eb b, u.cache.buffers eb = some b → b.refs = u.held eb + b.dirtyRef
  nodes : ∀ n ∈ inorder u.cache.cache, ∃ b, u.cache.buffers n.eb = some b ∧ n = b.node n.eb
  disjoint : (inorder u.cache.cache).Pairwise Apart
  size : u.cache.cacheSize = (((inorder u.cache.cache).map CacheNode.ce).map CacheExtent.size).sum

theorem Inv.counted (h : Inv u.cache u.held) : Counted u where
  refs := h.refs
  nodes n hn := by
    obtain ⟨b, hb, hno, -⟩ := h.nodes n hn
    exact ⟨b, hb, hno⟩
  disjoint := h.apart
  size := h.size

/-- A call on a buffer is made by a holder of a reference. -/
def Allowed (u : Users) : Op → Prop
  | .alloc _ _ => True
  | .find _ _ => True
  | .get eb => 0 < u.held eb
  | .free eb => 0 < u.held eb
  | .freeNocache eb => 0 < u.held eb
  | .setDirty eb => 0 < u.held eb
  | .clearDirty eb => 0 < u.held eb
  | .clone eb => 0 < u.held eb

def Op.Proper : Op → Prop
  | .alloc bytenr blocksize => 0 < blocksize ∧ bytenr + blocksize < 2 ^ 64
  | _ => True

/-- One more reference does not overflow the count. -/
def CanTake (s : Cache) (eb : Ptr) : Prop := ∀ b, s.buffers eb = some b → b.refs ≠ intMax

/-- A reference can be dropped: it is not the last one of a clone. -/
def CanDrop (u : Users) (eb : Ptr) : Prop :=
  ∀ b, u.cache.buffers eb = some b → b.dummy = true → 1 < u.held eb

/-- What a call needs: a new buffer overlaps no cached buffer of another range, clones are not
made dirty and keep a reference, and no count overflows. -/
def Safe (u : Users) : Op → Prop
  | .alloc bytenr blocksize => ∀ n ∈ inorder u.cache.cache, Overlaps n.ce bytenr blocksize →
      n.ce = ⟨bytenr, blocksize⟩ ∧ CanTake u.cache n.eb
  | .find bytenr blocksize => ∀ n ∈ inorder u.cache.cache, n.ce = ⟨bytenr, blocksize⟩ →
      CanTake u.cache n.eb
  | .get eb => CanTake u.cache eb
  | .free eb => CanDrop u eb
  | .freeNocache eb => CanDrop u eb
  | .setDirty eb => ∀ b, u.cache.buffers eb = some b → b.dirty = false →
      b.dummy = false ∧ b.refs ≠ intMax
  | .clearDirty _ => True
  | .clone _ => True

/-! ## Dirty buffers -/

def Buffer.mark (b : Buffer) (dirty : Bool) : Buffer := { b with dirty := dirty }

section

variable (h : Inv s held) (hb : s.buffers eb = some b) (hstate : Ordered state)

include h hb hstate

theorem Inv.markDirty (hh : 0 < held eb) (hdirty : b.dirty = false) (hdum : b.dummy = false) :
    Inv { s.store eb (b.mark true) with state := state } (drop held eb) := by
  refine h.store (b.mark true) hb rfl rfl rfl (fun hd => absurd (hdum.symm.trans hd) nofun)
    ?_ (fun p => drop_of_ne) (List.Perm.refl _) hstate
  have hr := h.refs eb b hb
  have hz : b.dirtyRef = 0 := by rw [Buffer.dirtyRef, hdirty]; rfl
  have hone : (b.mark true).dirtyRef = 1 := rfl
  have hs : (b.mark true).refs = b.refs := rfl
  rw [drop_self]
  omega

theorem Inv.markClean (hdirty : b.dirty = true) :
    Inv { s.store eb (b.mark false) with state := state } (take held eb) := by
  refine h.store (b.mark false) hb rfl rfl rfl (fun _ => rfl) ?_ (fun p => take_of_ne)
    (List.Perm.refl _) hstate
  have hr := h.refs eb b hb
  have hone : b.dirtyRef = 1 := by rw [Buffer.dirtyRef, hdirty]; rfl
  have hz : (b.mark false).dirtyRef = 0 := rfl
  have hs : (b.mark false).refs = b.refs := rfl
  rw [take_self]
  omega

end

theorem setExtentBufferDirty_eq (hb : s.buffers eb = some b) (hdirty : b.dirty = false) :
    setExtentBufferDirty s eb = (do
      bugOn (!b.inTree)
      let state ← setExtentDirty s.state b.start b.last
      extentBufferGet { s.store eb (b.mark true) with state := state } eb) := by
  rw [setExtentBufferDirty, deref_eq hb]
  change (if b.dirty then _ else _) = _
  rw [if_neg (by simp [hdirty])]
  rfl

theorem clearExtentBufferDirty_eq (hb : s.buffers eb = some b) (hdirty : b.dirty = true) :
    clearExtentBufferDirty s eb = (do
      bugOn (!b.inTree)
      let state ← clearExtentDirty s.state b.start b.last
      freeExtentBuffer { s.store eb (b.mark false) with state := state } eb) := by
  rw [clearExtentBufferDirty, deref_eq hb]
  change (if b.dirty then _ else _) = _
  rw [if_pos hdirty]
  rfl

/-! ## Steps -/

theorem extentBufferGet_harmful (hharm : ¬ CanTake s eb) : extentBufferGet s eb = .error .bug := by
  simp only [CanTake, not_forall, not_not] at hharm
  obtain ⟨b, hb, hmax⟩ := hharm
  rw [extentBufferGet_eq hb, if_pos hmax]

theorem touchBuffer_harmful (hharm : ¬ CanTake s eb) : touchBuffer s eb = .error .bug :=
  extentBufferGet_harmful hharm

section

variable (h : Inv u.cache u.held)

include h

theorem Inv.touch_safe {n : CacheNode} (hn : n ∈ inorder u.cache.cache)
    (hs : CanTake u.cache n.eb) :
    ∃ s', touchBuffer u.cache n.eb = .ok s' ∧ Inv s' (take u.held n.eb) := by
  obtain ⟨b, hb, -⟩ := h.nodes n hn
  exact h.touch hn hb (hs b hb)

theorem Inv.alloc_safe (hpos : 0 < blocksize) (hlt : bytenr + blocksize < 2 ^ 64)
    (hs : Safe u (.alloc bytenr blocksize)) :
    ∃ u', step u (.alloc bytenr blocksize) = .ok u' ∧ Inv u'.cache u'.held := by
  have hlookup := h.lookup hlt
  cases hfound : lookupBuffer u.cache bytenr blocksize with
  | none =>
    rw [hfound] at hlookup
    obtain ⟨s', hinside, hinv⟩ := h.insert hpos hlt hlookup
    refine ⟨⟨s', take u.held u.cache.fresh⟩, ?_, hinv⟩
    simp only [step, allocExtentBuffer, hfound, hinside]
    rfl
  | some n =>
    rw [hfound] at hlookup
    obtain ⟨hn, ho⟩ := hlookup
    obtain ⟨hce, ht⟩ := hs n hn ho
    obtain ⟨s', htouch, hinv⟩ := h.touch_safe hn ht
    refine ⟨⟨s', take u.held n.eb⟩, ?_, hinv⟩
    simp only [step, allocExtentBuffer, hfound, hce, htouch]
    rfl

/-- After an overlap the callers hold one reference more than is counted. -/
theorem Inv.alloc_harmful (hlt : bytenr + blocksize < 2 ^ 64)
    (hharm : ¬ Safe u (.alloc bytenr blocksize)) (hs : step u (.alloc bytenr blocksize) = .ok u') :
    ¬ Counted u' := by
  have hlookup := h.lookup hlt
  simp only [Safe, not_forall] at hharm
  obtain ⟨m, hm, hmover, hmharm⟩ := hharm
  cases hfound : lookupBuffer u.cache bytenr blocksize with
  | none =>
    rw [hfound] at hlookup
    exact absurd hmover (hlookup m hm)
  | some n =>
    rw [hfound] at hlookup
    obtain ⟨hn, ho⟩ := hlookup
    by_cases hce : n.ce.start = bytenr ∧ n.ce.size = blocksize
    · -- the only overlapping buffer, with as many references as fit
      obtain ⟨rfl, rfl⟩ := hce
      obtain rfl := h.eq_of_overlaps hm hn hmover
      have ht : ¬ CanTake u.cache m.eb := fun ht => hmharm ⟨rfl, ht⟩
      simp only [step, allocExtentBuffer, hfound, touchBuffer_harmful ht] at hs
      cases hs
    · obtain ⟨b, hb, hno, hdum⟩ := h.nodes n hn
      simp only [step, allocExtentBuffer, hfound, hce] at hs
      obtain ⟨⟨eb, s⟩, hc, hu'⟩ := bind_eq_ok.mp hs
      obtain ⟨s1, hf, hinsert⟩ := bind_eq_ok.mp hc
      have hs1 : s1 = u.cache.store n.eb b.put := by
        rw [freeExtentBuffer, freeExtentBufferInternal_eq hb, hdum] at hf
        simp only [Bool.or_self, Bool.false_eq_true, if_false] at hf
        split_ifs at hf
        all_goals exact (Except.ok.inj hf).symm
      subst hs1
      have hexists : rbInsert u.cache.cache ⟨⟨bytenr, blocksize⟩, u.cache.fresh⟩
          (fun n => cacheTreeCompRange n.ce bytenr blocksize) = .ok (-EEXIST, u.cache.cache) := by
        have hz := (h.ranges.comp_zero_iff (List.mem_map_of_mem hn) hlt).mpr ho
        obtain ⟨-, hinside⟩ | ⟨-, below, above, hcut, -⟩ := rbInsert_spec
          ⟨⟨bytenr, blocksize⟩, u.cache.fresh⟩ h.valid (h.consistent bytenr blocksize)
        · exact hinside
        · exact absurd hz (hcut.ne_zero n hn)
      have hne : n.eb ≠ u.cache.fresh := by
        intro heq
        rw [heq, h.fresh u.cache.fresh le_rfl] at hb
        cases hb
      simp only [insertBuffer, allocBuffer, Cache.store, hexists] at hinsert
      obtain ⟨rfl, rfl⟩ := Prod.mk.inj (Except.ok.inj hinsert)
      obtain rfl := Except.ok.inj hu'
      intro hcount
      have hbuf : (Function.update (Function.update (Function.update u.cache.buffers n.eb
          (some b.put)) u.cache.fresh (some (newBuffer bytenr blocksize))) u.cache.fresh none) n.eb =
          some b.put := by
        rw [Function.update_of_ne hne, Function.update_of_ne hne, Function.update_self]
      have hput := hcount.refs n.eb b.put hbuf
      have hr := h.refs n.eb b hb
      have hone : b.refs - 1 = u.held n.eb + b.dirtyRef := hput
      omega

theorem Inv.find_safe (hs : Safe u (.find bytenr blocksize)) :
    ∃ u', step u (.find bytenr blocksize) = .ok u' ∧ Inv u'.cache u'.held := by
  cases hfound : lookupBuffer u.cache bytenr blocksize with
  | none =>
    refine ⟨u, ?_, h⟩
    simp only [step, findExtentBuffer, hfound]
    rfl
  | some n =>
    by_cases hce : n.ce.start = bytenr ∧ n.ce.size = blocksize
    · have hn := h.lookup_mem hfound
      obtain ⟨s', htouch, hinv⟩ := h.touch_safe hn (hs n hn (by rw [← hce.1, ← hce.2]))
      refine ⟨⟨s', take u.held n.eb⟩, ?_, hinv⟩
      simp only [step, findExtentBuffer, hfound, hce, htouch]
      rfl
    · refine ⟨u, ?_, h⟩
      simp only [step, findExtentBuffer, hfound, hce]
      rfl

theorem Inv.find_harmful (hharm : ¬ Safe u (.find bytenr blocksize)) :
    step u (.find bytenr blocksize) = .error .bug := by
  simp only [Safe, not_forall] at hharm
  obtain ⟨n, hn, hce, ht⟩ := hharm
  have hmem : n.ce ∈ (inorder u.cache.cache).map CacheNode.ce := List.mem_map_of_mem hn
  rw [hce] at hmem
  have hfound := h.lookup_exact (h.ranges.end_lt _ hmem) (h.ranges.size_pos _ hmem) hn hce
  simp [step, findExtentBuffer, hfound, hce, touchBuffer_harmful ht, bind, Except.bind]

theorem Inv.drop_safe (hh : 0 < u.held eb) (hs : CanDrop u eb) (freeNow : Bool) :
    ∃ s', freeExtentBufferInternal u.cache eb freeNow = .ok s' ∧ Inv s' (drop u.held eb) := by
  obtain ⟨b, hb⟩ := h.exists_of_held hh
  exact h.free hb hh (hs b hb) freeNow

theorem Inv.drop_harmful (hh : 0 < u.held eb) (hharm : ¬ CanDrop u eb) (freeNow : Bool) :
    freeExtentBufferInternal u.cache eb freeNow = .error .bug := by
  simp only [CanDrop, not_forall] at hharm
  obtain ⟨b, hb, hdum, hl⟩ := hharm
  exact h.free_clone hb hdum (by omega) freeNow

theorem Inv.last_eq (hb : u.cache.buffers eb = some b) (hdum : b.dummy = false) :
    b.start ≤ b.last ∧ b.last < u64Max := by
  have hmem : (b.node eb).ce ∈ (inorder u.cache.cache).map CacheNode.ce :=
    List.mem_map_of_mem ((h.placed eb b hb).node hdum)
  have hpos : 0 < b.len := h.ranges.size_pos _ hmem
  have hlt : b.start + b.len < 2 ^ 64 := h.ranges.end_lt _ hmem
  rw [Buffer.last, wrap64_of_lt hlt, sub64_of_le (by omega) hlt, u64Max]
  omega

theorem Inv.setDirty_safe (hh : 0 < u.held eb) (hsa : Safe u (.setDirty eb)) :
    ∃ u', step u (.setDirty eb) = .ok u' ∧ Inv u'.cache u'.held := by
  obtain ⟨b, hb⟩ := h.exists_of_held hh
  cases hdirty : b.dirty with
  | true =>
    refine ⟨u, bind_eq_ok.mpr ⟨u.cache, ?_, rfl⟩, h⟩
    rw [setExtentBufferDirty, deref_eq hb]
    exact if_pos hdirty
  | false =>
    obtain ⟨hdum, hmax⟩ := hsa b hb hdirty
    obtain ⟨hle, hl⟩ := h.last_eq hb hdum
    obtain ⟨state, hset, hresult⟩ := setExtentBits_spec EXTENT_DIRTY h.state hle hl
    have hin : b.inTree = true := by
      rw [(h.placed eb b hb).inTree, hdum]
      rfl
    have hmarked := h.markDirty hb hresult.ordered hh hdirty hdum
    have hs : ({ u.cache.store eb (b.mark true) with state := state } : Cache).buffers eb =
        some (b.mark true) := Function.update_self ..
    have hinv := hmarked.get hs (List.Perm.refl _)
    rw [take_drop hh] at hinv
    have hget := (extentBufferGet_eq hs).trans (if_neg hmax)
    refine ⟨⟨_, u.held⟩, bind_eq_ok.mpr ⟨_, ?_, rfl⟩, hinv⟩
    rw [setExtentBufferDirty_eq hb hdirty, hin]
    exact bind_eq_ok.mpr ⟨(), rfl, bind_eq_ok.mpr ⟨state, hset, hget⟩⟩

theorem Inv.setDirty_harmful (hharm : ¬ Safe u (.setDirty eb)) :
    step u (.setDirty eb) ≠ .ok u' := by
  simp only [Safe, not_forall] at hharm
  obtain ⟨b, hb, hdirty, hnot⟩ := hharm
  intro hs
  simp only [step, setExtentBufferDirty_eq hb hdirty] at hs
  obtain ⟨s, hc, -⟩ := bind_eq_ok.mp hs
  obtain ⟨⟨⟩, hbug, hc⟩ := bind_eq_ok.mp hc
  obtain ⟨state, hset, hget⟩ := bind_eq_ok.mp hc
  cases hdum : b.dummy with
  | true =>
    rw [(h.placed eb b hb).inTree, hdum] at hbug
    cases hbug
  | false =>
    have hmax : b.refs = intMax := by
      by_contra hne
      exact hnot ⟨hdum, hne⟩
    have hse : ({ u.cache.store eb (b.mark true) with state := state } : Cache).buffers eb =
        some (b.mark true) := Function.update_self ..
    cases hget.symm.trans ((extentBufferGet_eq hse).trans (if_pos hmax))

theorem Inv.clearDirty_safe (hh : 0 < u.held eb) :
    ∃ u', step u (.clearDirty eb) = .ok u' ∧ Inv u'.cache u'.held := by
  obtain ⟨b, hb⟩ := h.exists_of_held hh
  cases hdirty : b.dirty with
  | false =>
    refine ⟨u, bind_eq_ok.mpr ⟨u.cache, ?_, rfl⟩, h⟩
    rw [clearExtentBufferDirty, deref_eq hb]
    exact if_neg (Bool.eq_false_iff.mp hdirty)
  | true =>
    have hdum : b.dummy = false := by
      cases hdum : b.dummy with
      | false => rfl
      | true => exact absurd (hdirty.symm.trans ((h.placed eb b hb).clean hdum)) nofun
    have hin : b.inTree = true := by
      rw [(h.placed eb b hb).inTree, hdum]
      rfl
    obtain ⟨ret, state, hclear, hres, -⟩ := clearExtentBits_spec h.state b.start b.last EXTENT_DIRTY
    have hmarked := h.markClean hb hres.ordered hdirty
    have hs : ({ u.cache.store eb (b.mark false) with state := state } : Cache).buffers eb =
        some (b.mark false) := Function.update_self ..
    obtain ⟨s', hf, hinv⟩ := hmarked.free hs (by rw [take_self]; omega)
      (fun hd => absurd (hdum.symm.trans hd) nofun) false
    rw [drop_take] at hinv
    have hc : clearExtentDirty u.cache.state b.start b.last = .ok state :=
      bind_eq_ok.mpr ⟨(ret, state), hclear, rfl⟩
    refine ⟨⟨s', u.held⟩, bind_eq_ok.mpr ⟨s', ?_, rfl⟩, hinv⟩
    rw [clearExtentBufferDirty_eq hb hdirty, hin]
    exact bind_eq_ok.mpr ⟨(), rfl, bind_eq_ok.mpr ⟨state, hc, hf⟩⟩

theorem step_safe {op : Op} (hproper : op.Proper) (hallowed : Allowed u op) (hs : Safe u op) :
    ∃ u', step u op = .ok u' ∧ Inv u'.cache u'.held := by
  cases op with
  | alloc bytenr blocksize => exact h.alloc_safe hproper.1 hproper.2 hs
  | find bytenr blocksize => exact h.find_safe hs
  | get eb =>
    obtain ⟨b, hb⟩ := h.exists_of_held hallowed
    refine ⟨⟨u.cache.store eb b.got, take u.held eb⟩, ?_, h.get hb (List.Perm.refl _)⟩
    simp only [step, extentBufferGet_eq hb, if_neg (hs b hb)]
    rfl
  | free eb =>
    obtain ⟨s', hf, hinv⟩ := h.drop_safe hallowed hs false
    refine ⟨⟨s', drop u.held eb⟩, ?_, hinv⟩
    simp only [step, freeExtentBuffer, hf]
    rfl
  | freeNocache eb =>
    obtain ⟨s', hf, hinv⟩ := h.drop_safe hallowed hs true
    refine ⟨⟨s', drop u.held eb⟩, ?_, hinv⟩
    simp only [step, freeExtentBufferNocache, hf]
    rfl
  | setDirty eb => exact h.setDirty_safe hallowed hs
  | clearDirty eb => exact h.clearDirty_safe hallowed
  | clone eb =>
    obtain ⟨b, hb⟩ := h.exists_of_held hallowed
    obtain ⟨s', hclone, hinv⟩ := h.clone hb
    refine ⟨⟨s', take u.held u.cache.fresh⟩, ?_, hinv⟩
    simp only [step, hclone]
    rfl

theorem step_harmful {op : Op} (hproper : op.Proper) (hallowed : Allowed u op) (hharm : ¬ Safe u op)
    (hs : step u op = .ok u') : ¬ Counted u' := by
  cases op with
  | alloc bytenr blocksize => exact h.alloc_harmful hproper.2 hharm hs
  | find bytenr blocksize =>
    rw [h.find_harmful hharm] at hs
    cases hs
  | get eb =>
    simp only [step, extentBufferGet_harmful hharm] at hs
    cases hs
  | free eb =>
    simp only [step, freeExtentBuffer, h.drop_harmful hallowed hharm] at hs
    cases hs
  | freeNocache eb =>
    simp only [step, freeExtentBufferNocache, h.drop_harmful hallowed hharm] at hs
    cases hs
  | setDirty eb => exact absurd hs (h.setDirty_harmful hharm)
  | clearDirty eb => exact absurd trivial hharm
  | clone eb => exact absurd trivial hharm

end

/-! ## Runs -/

/-- Everything is counted after every call of a run by holders, and no call fails. -/
def Keeps (u : Users) : List Op → Prop
  | [] => Counted u
  | op :: ops => Counted u ∧ (Allowed u op → ∃ u', step u op = .ok u' ∧ Keeps u' ops)

/-- Every call of a run is safe in the state in which it is made. -/
def SafeRun (u : Users) : List Op → Prop
  | [] => True
  | op :: ops => Allowed u op → Safe u op ∧ ∀ u', step u op = .ok u' → SafeRun u' ops

theorem keeps_iff_safeRun (h : Inv u.cache u.held) (ops : List Op) (hprp : ∀ op ∈ ops, op.Proper) :
    Keeps u ops ↔ SafeRun u ops := by
  induction ops generalizing u with
  | nil => exact iff_of_true h.counted trivial
  | cons op ops ih =>
    obtain ⟨hop, hops⟩ := List.forall_mem_cons.mp hprp
    simp only [Keeps, h.counted, true_and]
    refine forall_congr' fun hallowed => ?_
    by_cases hs : Safe u op
    · obtain ⟨u', hst, hinv⟩ := step_safe h hop hallowed hs
      simp only [hst, hs, true_and, Except.ok.injEq, exists_eq_left', forall_eq']
      exact ih hinv hops
    · refine iff_of_false ?_ fun hrun => hs hrun.1
      rintro ⟨u', hst, hkeeps⟩
      refine step_harmful h hop hallowed hs hst ?_
      cases ops with
      | nil => exact hkeeps
      | cons _ _ => exact hkeeps.1

/-- The buffers of a new tree stay counted exactly if every call of the run is safe. -/
theorem bufferCache_keeps_iff (maxCacheSize : ℕ) (ops : List Op) (hproper : ∀ op ∈ ops, op.Proper) :
    Keeps ⟨.init maxCacheSize, fun _ => 0⟩ ops ↔ SafeRun ⟨.init maxCacheSize, fun _ => 0⟩ ops :=
  keeps_iff_safeRun (inv_init maxCacheSize) ops hproper

/-- A tree with one buffer of 4096 bytes, held once. -/
def oneBuffer : Users where
  cache :=
    { Cache.init 65536 with
      cache := .node .black .nil ⟨⟨0, 4096⟩, 0⟩ .nil
      lru := [0]
      cacheSize := 4096
      buffers := Function.update (fun _ => none) 0 (some (newBuffer 0 4096))
      fresh := 1 }
  held := take (fun _ => 0) 0

/-- Neighbouring blocks. -/
theorem bufferCache_keeps_neighbours :
    Keeps ⟨.init 65536, fun _ => 0⟩ [.alloc 0 4096, .alloc 4096 4096] := by
  apply (bufferCache_keeps_iff 65536 [.alloc 0 4096, .alloc 4096 4096] ?_).mpr
  · intro _
    refine ⟨List.forall_mem_nil _, ?_⟩
    intro u hs
    obtain rfl := Except.ok.inj hs
    intro _
    refine ⟨?_, fun _ _ => trivial⟩
    intro n hn ho
    obtain rfl := List.mem_singleton.mp hn
    exact absurd ho.2 (by decide)
  · intro op hop
    rcases List.mem_pair.mp hop with rfl | rfl
    · exact ⟨by decide, by decide⟩
    · exact ⟨by decide, by decide⟩

/-- A block of another size at the same address takes away the reference of the cached one: its
holder cannot drop it any more. Nor can a clone be freed. -/
theorem bufferCache_loses_reference : ∃ u, step oneBuffer (.alloc 0 8192) = .ok u ∧ u.held 0 = 1 ∧
      (u.cache.buffers 0).map Buffer.refs = some 0 ∧ step u (.free 0) = .error .bug ∧
      ¬ Keeps ⟨.init 65536, fun _ => 0⟩ [.alloc 0 4096, .alloc 0 8192] ∧
      ∃ u', step oneBuffer (.clone 0) = .ok u' ∧ u'.held 1 = 1 ∧ step u' (.free 1) = .error .bug := by
  refine ⟨_, rfl, rfl, rfl, rfl, ?_, _, rfl, rfl, rfl⟩
  rintro ⟨-, hkeeps⟩
  obtain ⟨u, hs, -, hkeeps⟩ := hkeeps trivial
  obtain rfl := Except.ok.inj hs
  obtain ⟨u, hs, hcount⟩ := hkeeps trivial
  obtain rfl := Except.ok.inj hs
  have hr := hcount.refs 0 _ rfl
  exact absurd hr (by decide)

end Btrfs.BufferCache
