import Btrfs.Model.Image.Chunks
import Btrfs.Verification.Shared.Calls
import Btrfs.Verification.Shared.Slices
import Btrfs.Verification.Volumes.SysArray

/-! # The system chunks of a restored superblock -/

namespace Btrfs.Image

open RbTree Volumes SysChunk

variable {offset len dst newSize : ℕ} {final : List (BitVec 8)} {restored : SysChunk}

/-! ## What becomes of one entry -/

variable {dev : DevItem} {tree : RbNode FsChunk}

theorem length_stripeBytes (dev : DevItem) (offset : ℕ) : (stripeBytes dev offset).length = 32 := by
  simp [stripeBytes, length_leBytes, length_leBytes, dev.length_uuid]

theorem chunkField_take {chunk : List (BitVec 8)} {n : ℕ} (h : offset + len ≤ n) :
    chunkField (chunk.take n) offset len = chunkField chunk offset len := by
  rw [chunkField, chunkField, List.drop_take, List.take_take, Nat.min_eq_left (by omega)]

theorem chunkField_append {chunk more : List (BitVec 8)} (h : offset + len ≤ chunk.length) :
    chunkField (chunk ++ more) offset len = chunkField chunk offset len := by
  rw [← chunkField_take h, List.take_left]

theorem chunkField_memcpy {chunk new : List (BitVec 8)} (h : dst + new.length ≤ chunk.length)
    (hdisjoint : offset + len ≤ dst ∨ dst + new.length ≤ offset) :
    chunkField (memcpy chunk dst new) offset len = chunkField chunk offset len := by
  rw [chunkField, chunkField, slice_memcpy_of_disjoint h hdisjoint]

section

variable {chunk : List (BitVec 8)} {physical : ℕ}

section

variable (hlen : chunk.length = 80)

include hlen

theorem updateChunk_eq : ∃ middle : List (BitVec 8),
    updateChunk dev physical chunk = memcpy middle 48 (stripeBytes dev physical) ∧
    middle.length = 80 ∧
    chunkNumStripes middle = if isDup chunk then chunkNumStripes chunk else 1 := by
  have hz : (leBytes 2 0).length = 2 := length_leBytes 2 0
  have hone : (leBytes 2 1).length = 2 := length_leBytes 2 1
  have ht : (leBytes 8 BTRFS_BLOCK_GROUP_SYSTEM.toNat).length = 8 := length_leBytes 8 _
  obtain ⟨sub, hsub⟩ : ∃ sub, sub = memcpy chunk 46 (leBytes 2 0) := ⟨_, rfl⟩
  have hsubLen : sub.length = 80 := by rw [hsub, length_memcpy (by omega), hlen]
  have hdup : isDup sub = isDup chunk := by
    rw [isDup, isDup, chunkType, chunkType, hsub, chunkField_memcpy (by omega) (by omega)]
  have hnum : chunkNumStripes sub = chunkNumStripes chunk := by
    rw [chunkNumStripes, chunkNumStripes, hsub, chunkField_memcpy (by omega) (by omega)]
  refine ⟨_, rfl, ?_, ?_⟩
  · rw [← hsub]
    split
    · exact hsubLen
    · have hmid : (memcpy sub 44 (leBytes 2 1)).length = 80 := by
        rw [length_memcpy (by omega), hsubLen]
      rw [length_memcpy (by omega), hmid]
  · rw [← hsub, hdup]
    split
    · exact hnum
    · have hmid : (memcpy sub 44 (leBytes 2 1)).length = 80 := by
        rw [length_memcpy (by omega), hsubLen]
      have hslice : ((memcpy sub 44 (leBytes 2 1)).drop (44 + 0)).take 2 =
          ((leBytes 2 1).drop 0).take 2 := slice_memcpy_inside (by omega) (by omega)
      rw [chunkNumStripes, chunkField_memcpy (by omega) (by omega), chunkField]
      rw [hslice]
      rfl

theorem length_updateChunk : (updateChunk dev physical chunk).length = 80 := by
  obtain ⟨middle, heq, hmid, -⟩ := @updateChunk_eq dev chunk physical hlen
  have hstripe := length_stripeBytes dev physical
  rw [heq, length_memcpy (by omega), hmid]

theorem chunkNumStripes_updateChunk : chunkNumStripes (updateChunk dev physical chunk) =
      if isDup chunk then chunkNumStripes chunk else 1 := by
  obtain ⟨middle, heq, hmid, hnum⟩ := @updateChunk_eq dev chunk physical hlen
  have hstripe := length_stripeBytes dev physical
  rw [heq, chunkNumStripes, chunkField_memcpy (by omega) (by omega)]
  exact hnum

theorem drop_updateChunk : (updateChunk dev physical chunk).drop 48 = stripeBytes dev physical := by
  obtain ⟨middle, heq, hmid, -⟩ := @updateChunk_eq dev chunk physical hlen
  have hstripe := length_stripeBytes dev physical
  have hfr : (middle.take 48).length = 48 := by
    rw [List.length_take]
    omega
  have ht : middle.drop (48 + (stripeBytes dev physical).length) = [] :=
    List.drop_eq_nil_of_le (by omega)
  rw [heq, memcpy, List.drop_left' hfr, ht, List.append_nil]

end

end

/-- `physical` and `physical_dup` of an entry's first byte. -/
def entryPlace (tree : RbNode FsChunk) (entry : SysChunk) : ℕ × ℕ :=
  match logicalToPhysical tree entry.key.offset 0 0 with
  | .ok (physical, _, physicalDup) => (physical, physicalDup)
  | .error _ => (0, 0)

def Mapped (tree : RbNode FsChunk) (entry : SysChunk) : Prop :=
  ∃ place, logicalToPhysical tree entry.key.offset 0 0 = .ok place

/-- What is written for an entry: its key and the chunk with the first stripe. -/
def entryBytes (dev : DevItem) (tree : RbNode FsChunk) (entry : SysChunk) : List (BitVec 8) :=
  keyBytes entry.key ++
    updateChunk dev (entryPlace tree entry).1 (entry.chunk.take (btrfsChunkItemSize 1))

def entryLength (entry : SysChunk) : ℕ := if isDup entry.chunk then 129 else 97

section

variable (entry : SysChunk)

theorem le_length_chunk : btrfsChunkItemSize 1 ≤ entry.chunk.length := by
  rw [entry.length_chunk]
  exact le_btrfsChunkItemSize _

theorem length_head : (entry.chunk.take (btrfsChunkItemSize 1)).length = 80 := by
  rw [List.length_take]
  exact Nat.min_eq_left (le_length_chunk entry)

theorem isDup_head : isDup (entry.chunk.take (btrfsChunkItemSize 1)) = isDup entry.chunk := by
  rw [isDup, isDup, chunkType, chunkType, chunkField_take (by decide)]

theorem chunkNumStripes_head :
    chunkNumStripes (entry.chunk.take (btrfsChunkItemSize 1)) = chunkNumStripes entry.chunk :=
  chunkField_take (by decide)

theorem length_entryBytes : (entryBytes dev tree entry).length = 97 := by
  rw [entryBytes, List.length_append, length_updateChunk (length_head entry)]
  rfl

theorem le_entryLength : 97 ≤ entryLength entry := by
  rw [entryLength]
  split <;> omega

theorem le_length_encode : 97 ≤ entry.encode.length := by
  have hmin : 80 ≤ btrfsChunkItemSize (chunkNumStripes entry.chunk) := le_btrfsChunkItemSize _
  have h17 : diskKeySize = 17 := rfl
  rw [length_encode]
  omega

theorem entryLength_le (h : isDup entry.chunk → 2 ≤ chunkNumStripes entry.chunk) :
    entryLength entry ≤ entry.encode.length := by
  have henc := length_encode entry
  have h17 : diskKeySize = 17 := rfl
  rw [entryLength]
  split
  · rename_i hdup
    have htwo := h hdup
    rw [btrfsChunkItemSize] at henc
    omega
  · exact le_length_encode entry

end

/-! ## One round -/

theorem moveBytes_of_le {bytes : List (BitVec 8)} {src : ℕ}
    (change : List (BitVec 8) → List (BitVec 8)) (hdst : dst ≤ src)
    (hsrc : src + len ≤ bytes.length) :
    moveBytes bytes dst src len change =
      .ok (memcpy bytes dst (change ((bytes.drop src).take len))) :=
  if_neg (by omega)

variable {arraySize rounds ptr writePtr : ℕ} {bytes rest : List (BitVec 8)} {entry : SysChunk}

theorem ptr_le (hptr : bytes.drop ptr = entry.encode ++ rest) :
    ptr + entry.encode.length ≤ bytes.length := by
  have hlen := congrArg List.length hptr
  have henc := length_encode entry
  have hpos : 0 < diskKeySize := by decide
  rw [List.length_drop, List.length_append] at hlen
  omega

/-- While `write_ptr` is not ahead of `ptr`, a round reads the entry as it was. -/
theorem updateSuperLoop_cons (hptr : bytes.drop ptr = entry.encode ++ rest)
    (hwrite : writePtr ≤ ptr) (hsize : ptr < arraySize) (hmapped : Mapped tree entry) :
    updateSuperLoop dev tree arraySize (rounds + 1) ptr writePtr bytes =
      updateSuperLoop dev tree arraySize rounds (ptr + entry.encode.length)
        (writePtr + entryLength entry) (memcpy bytes writePtr (entryBytes dev tree entry)) := by
  obtain ⟨⟨physical, size, physicalDup⟩, hplace⟩ := hmapped
  have hbound := ptr_le hptr
  have henc := length_encode entry
  have hmin := le_btrfsChunkItemSize (chunkNumStripes entry.chunk)
  have hkeyLen : (keyBytes entry.key).length = diskKeySize := rfl
  have hkey : (bytes.drop ptr).take diskKeySize = keyBytes entry.key := by
    rw [hptr]
    exact List.take_left' hkeyLen
  obtain ⟨moved, hmoved⟩ : ∃ moved, moved = memcpy bytes writePtr (keyBytes entry.key) := ⟨_, rfl⟩
  have hmovedLen : moved.length = bytes.length := by rw [hmoved, length_memcpy (by omega)]
  have hmoveKey : moveBytes bytes writePtr ptr diskKeySize id = .ok moved := by
    rw [moveBytes_of_le id hwrite (by omega), hkey, hmoved]
    rfl
  have hcheck : (moved.drop (ptr + diskKeySize)).take (btrfsChunkItemSize 1) =
      entry.chunk.take (btrfsChunkItemSize 1) := by
    rw [hmoved, drop_memcpy (by omega) (by omega), ← List.drop_drop, hptr, encode,
      List.append_assoc, ← hkeyLen, List.drop_left,
      List.take_append_of_le_length (le_length_chunk entry)]
  have hstripes : ¬ chunkNumStripes entry.chunk = 0 := entry.stripes_ne
  have hphys : (entryPlace tree entry).1 = physical := by rw [entryPlace, hplace]
  have hmoveChunk : moveBytes moved (writePtr + diskKeySize) (ptr + diskKeySize)
      (btrfsChunkItemSize 1) (updateChunk dev physical) =
        .ok (memcpy bytes writePtr (entryBytes dev tree entry)) := by
    rw [moveBytes_of_le _ (by omega) (by omega), hcheck, hmoved, ← hkeyLen, memcpy_memcpy_behind,
      ← hphys]
    · rfl
    · have hlen : (updateChunk dev physical
        (entry.chunk.take (btrfsChunkItemSize 1))).length = btrfsChunkItemSize 1 :=
        length_updateChunk (length_head entry)
      omega
  have hn : ptr + diskKeySize + btrfsChunkItemSize (chunkNumStripes entry.chunk) =
      ptr + entry.encode.length := by omega
  have hnextWrite : (if isDup entry.chunk then writePtr + diskKeySize + 32
      else writePtr + diskKeySize) + btrfsChunkItemSize 1 = writePtr + entryLength entry := by
    have h1 : btrfsChunkItemSize 1 = 80 := rfl
    have h17 : diskKeySize = 17 := rfl
    rw [entryLength]
    split <;> omega
  rw [updateSuperLoop, if_neg (Nat.not_le.mpr hsize), hmoveKey]
  simp only [bind, Except.bind, hkey, bytesKey_keyBytes, if_pos entry.type_eq, hcheck, hplace,
    hmoveChunk, chunkNumStripes_head, isDup_head, decide_eq_false hstripes, bugOn_false, hn,
    hnextWrite]

/-! ## What the loop leaves alone -/

theorem moveBytes_frame {src n : ℕ} {change : List (BitVec 8) → List (BitVec 8)}
    {moved : List (BitVec 8)} (hchange : ∀ part, part.length = len → (change part).length = len)
    (h : moveBytes bytes dst src len change = .ok moved) (hn : n ≤ dst) :
    moved.length = bytes.length ∧ moved.take n = bytes.take n := by
  rw [moveBytes] at h
  by_cases hout : bytes.length < dst + len ∨ bytes.length < src + len
  · rw [if_pos hout] at h
    cases h
  · rw [if_neg hout, Except.ok.injEq] at h
    have hpart := hchange _ (@length_slice _ src len bytes (by omega))
    subst h
    exact ⟨length_memcpy (by omega), take_memcpy hn (by omega)⟩

theorem updateSuperLoop_frame (h : updateSuperLoop dev tree arraySize rounds ptr writePtr bytes =
      .ok (some (newSize, final))) :
    writePtr ≤ newSize ∧ final.length = bytes.length ∧
      final.take writePtr = bytes.take writePtr := by
  induction rounds generalizing ptr writePtr bytes with
  | zero => cases h
  | succ rounds ih =>
    rw [updateSuperLoop] at h
    by_cases hd : arraySize ≤ ptr
    · rw [if_pos hd] at h
      obtain ⟨rfl, rfl⟩ := h
      exact ⟨le_refl _, rfl, rfl⟩
    rw [if_neg hd] at h
    obtain ⟨moved, hmoved, h⟩ := bind_eq_ok.mp h
    have hkey := moveBytes_frame (fun part hpart => hpart) hmoved (le_refl writePtr)
    split at h
    · obtain ⟨⟨physical, size, physicalDup⟩, -, h⟩ := bind_eq_ok.mp h
      obtain ⟨moved', hmoved', h⟩ := bind_eq_ok.mp h
      have hcheck := moveBytes_frame (fun part hpart => length_updateChunk hpart) hmoved'
        (Nat.le_add_right writePtr diskKeySize)
      obtain ⟨-, -, h⟩ := bind_eq_ok.mp h
      obtain ⟨hle, hlen, ht⟩ := ih h
      obtain ⟨nextWrite, hn⟩ : ∃ nextWrite, nextWrite =
          (if isDup ((moved.drop (ptr + diskKeySize)).take (btrfsChunkItemSize 1)) then
            writePtr + diskKeySize + 32 else writePtr + diskKeySize) + btrfsChunkItemSize 1 :=
        ⟨_, rfl⟩
      have hwrite : writePtr ≤ nextWrite := by
        rw [hn]
        split <;> omega
      rw [← hn] at hle ht
      refine ⟨hwrite.trans hle, by rw [hlen, hcheck.1, hkey.1], ?_⟩
      calc final.take writePtr
          = (final.take nextWrite).take writePtr := by rw [List.take_take, Nat.min_eq_left hwrite]
        _ = moved'.take writePtr := by rw [ht, List.take_take, Nat.min_eq_left hwrite]
        _ = bytes.take writePtr := by rw [hcheck.2, hkey.2]
    · cases h

/-! ## Restored entries -/

/-- Where the stripes of a restored entry are: two for DUP, one for any other profile. -/
def stripeOffsets (tree : RbNode FsChunk) (entry : SysChunk) : List ℕ :=
  if isDup entry.chunk then [(entryPlace tree entry).1, (entryPlace tree entry).2]
  else [(entryPlace tree entry).1]

/-- The entry as it has to be in the restored superblock. -/
structure RestoredEntry (dev : DevItem) (tree : RbNode FsChunk) (entry restored : SysChunk) :
    Prop where
  key_eq : restored.key = entry.key
  numStripes_eq : chunkNumStripes restored.chunk = (stripeOffsets tree entry).length
  stripes_eq : restored.chunk.drop 48 = (stripeOffsets tree entry).flatMap (stripeBytes dev)

/-- Every DUP entry has two stripes, and the bytes that become its second stripe, 97 bytes behind
the place its entry is moved to, are that stripe already. -/
def DupStripesInPlace (dev : DevItem) (tree : RbNode FsChunk) :
    List SysChunk → List (BitVec 8) → Prop
  | [], _ => True
  | entry :: entries, bytes =>
    (isDup entry.chunk → chunkNumStripes entry.chunk = 2 ∧
      (bytes.drop 97).take 32 = stripeBytes dev (entryPlace tree entry).2) ∧
    DupStripesInPlace dev tree entries (bytes.drop (entryLength entry))

theorem RestoredEntry.entryBytes_eq (hkey : restored.key = entry.key)
    (hh : restored.encode.take 97 = entryBytes dev tree entry) :
    chunkNumStripes restored.chunk = (if isDup entry.chunk then chunkNumStripes entry.chunk else 1) ∧
      (restored.chunk.drop 48).take 32 = stripeBytes dev (entryPlace tree entry).1 := by
  have hcheck : restored.chunk.take (btrfsChunkItemSize 1) =
      updateChunk dev (entryPlace tree entry).1 (entry.chunk.take (btrfsChunkItemSize 1)) := by
    rw [encode, hkey, List.take_append] at hh
    exact List.append_cancel_left hh
  constructor
  · rw [← chunkNumStripes_head restored, hcheck, chunkNumStripes_updateChunk (length_head entry),
      isDup_head, chunkNumStripes_head]
  · have hd := congrArg (List.drop 48) hcheck
    rw [drop_updateChunk (length_head entry), List.drop_take] at hd
    exact hd

theorem length_encode_of_two (h : chunkNumStripes restored.chunk = 2) :
    restored.encode.length = 129 := by
  rw [length_encode, h]
  rfl

theorem length_encode_of_one (h : chunkNumStripes restored.chunk = 1) :
    restored.encode.length = 97 := by
  rw [length_encode, h]
  rfl

/-- The bytes behind `write_ptr`, once an entry is written, begin with a restored entry only if
its second stripe was there. -/
theorem RestoredEntry.inPlace {more : List (BitVec 8)} (h : RestoredEntry dev tree entry restored)
    (hh : (restored.encode ++ more).take (entryLength entry) =
      (entryBytes dev tree entry ++ rest).take (entryLength entry)) :
    restored.encode.length = entryLength entry ∧
      (isDup entry.chunk → chunkNumStripes entry.chunk = 2 ∧
        rest.take 32 = stripeBytes dev (entryPlace tree entry).2) := by
  have hbytes := @length_entryBytes dev tree entry
  have hle := le_length_encode restored
  have hent := le_entryLength entry
  have hh97 : restored.encode.take 97 = entryBytes dev tree entry := by
    have ht := congrArg (List.take 97) hh
    rw [List.take_take, List.take_take, Nat.min_eq_left hent, List.take_append_of_le_length hle,
      List.take_left' hbytes] at ht
    exact ht
  obtain ⟨hnum, hstripe⟩ := entryBytes_eq h.key_eq hh97
  have hstripes := h.stripes_eq
  have hlength := h.numStripes_eq
  by_cases hdup : isDup entry.chunk = true
  · rw [stripeOffsets, if_pos hdup] at hlength hstripes
    rw [if_pos hdup, hlength] at hnum
    have henc := length_encode_of_two hlength
    rw [entryLength, if_pos hdup] at hh ⊢
    refine ⟨henc, fun _ => ⟨hnum.symm, ?_⟩⟩
    rw [List.take_left' henc, List.take_append, hbytes,
      List.take_of_length_le (hbytes.le.trans (by decide)), ← hh97] at hh
    -- what stands behind the first 97 bytes is the second stripe
    have hr : rest.take (129 - 97) = restored.encode.drop 97 := by
      have hcut := (List.take_append_drop 97 restored.encode).trans hh
      exact (List.append_cancel_left hcut).symm
    have hkeyLen : (keyBytes restored.key).length = 17 := rfl
    have hd : restored.encode.drop 97 = (restored.chunk.drop 48).drop 32 := by
      rw [encode, List.drop_append, List.drop_of_length_le (hkeyLen.le.trans (by decide)), hkeyLen,
        List.nil_append, List.drop_drop]
    rw [hr, hd, hstripes, List.flatMap_cons, List.drop_left' (length_stripeBytes _ _),
      List.flatMap_cons, List.flatMap_nil, List.append_nil]
  · rw [stripeOffsets, if_neg hdup] at hlength
    rw [entryLength, if_neg hdup]
    exact ⟨length_encode_of_one hlength, fun hdup' => absurd hdup' hdup⟩

theorem exists_restoredEntry (hdup : isDup entry.chunk → chunkNumStripes entry.chunk = 2 ∧
      rest.take 32 = stripeBytes dev (entryPlace tree entry).2) :
    ∃ restored, RestoredEntry dev tree entry restored ∧
      restored.encode = (entryBytes dev tree entry ++ rest).take (entryLength entry) := by
  have hbytes := @length_entryBytes dev tree entry
  have hh := @length_updateChunk dev _ (entryPlace tree entry).1 (length_head entry)
  obtain ⟨chunk, hcheck⟩ : ∃ chunk, chunk =
    updateChunk dev (entryPlace tree entry).1 (entry.chunk.take (btrfsChunkItemSize 1)) ++
      (if isDup entry.chunk then stripeBytes dev (entryPlace tree entry).2 else []) := ⟨_, rfl⟩
  have hnum : chunkNumStripes chunk = if isDup entry.chunk then 2 else 1 := by
    rw [hcheck, chunkNumStripes, chunkField_append (by omega)]
    refine (chunkNumStripes_updateChunk (length_head entry)).trans ?_
    rw [isDup_head, chunkNumStripes_head]
    split
    · rename_i h
      exact (hdup h).1
    · rfl
  have hlen : chunk.length = btrfsChunkItemSize (chunkNumStripes chunk) := by
    rw [hnum, hcheck, List.length_append, hh]
    split
    · rw [length_stripeBytes]
      rfl
    · rfl
  have hne : chunkNumStripes chunk ≠ 0 := by
    rw [hnum]
    split <;> omega
  refine ⟨⟨entry.key, chunk, entry.type_eq, entry.objectid_lt, entry.offset_lt, hne, hlen⟩,
    ⟨rfl, ?_, ?_⟩, ?_⟩
  · rw [hnum, stripeOffsets]
    split <;> rfl
  · change chunk.drop 48 = _
    rw [hcheck, List.drop_append_of_le_length (by omega), drop_updateChunk (length_head entry),
      stripeOffsets]
    split <;> simp
  · change keyBytes entry.key ++ chunk = _
    rw [hcheck, List.take_append, hbytes, entryLength]
    by_cases h : isDup entry.chunk = true
    · rw [if_pos h, if_pos h, List.take_of_length_le (hbytes.le.trans (by decide)), (hdup h).2]
      rfl
    · rw [if_neg h, if_neg h, List.take_of_length_le hbytes.le]
      simp [entryBytes]

/-! ## The whole loop -/

theorem drop_entryBytes (h : writePtr + 97 ≤ bytes.length) :
    (memcpy bytes writePtr (entryBytes dev tree entry)).drop writePtr =
      entryBytes dev tree entry ++ bytes.drop (writePtr + 97) := by
  have hfr : (bytes.take writePtr).length = writePtr := by
    rw [List.length_take]
    omega
  rw [memcpy, List.drop_left' hfr, length_entryBytes]

theorem drop_final (hbound : writePtr + 97 ≤ bytes.length)
    (hl : updateSuperLoop dev tree arraySize rounds ptr (writePtr + entryLength entry)
      (memcpy bytes writePtr (entryBytes dev tree entry)) = .ok (some (newSize, final))) :
    ((final.take newSize).drop writePtr).take (entryLength entry) =
      (entryBytes dev tree entry ++ bytes.drop (writePtr + 97)).take (entryLength entry) := by
  obtain ⟨hle, -, ht⟩ := updateSuperLoop_frame hl
  rw [← drop_entryBytes hbound, List.take_drop, List.take_drop, List.take_take,
    Nat.min_eq_left hle, ht]

theorem drop_written (hbound : writePtr + 97 ≤ bytes.length) :
    (memcpy bytes writePtr (entryBytes dev tree entry)).drop (writePtr + entryLength entry) =
      (bytes.drop writePtr).drop (entryLength entry) := by
  have hbytes := @length_entryBytes dev tree entry
  have hent := le_entryLength entry
  rw [drop_memcpy (by omega) (by omega), List.drop_drop]

variable {entries : List SysChunk}

theorem drop_unread (hbound : ptr + entry.encode.length ≤ bytes.length) (hwrite : writePtr ≤ ptr)
    (hptr : bytes.drop ptr = entry.encode ++ (packed entries ++ rest)) :
    (memcpy bytes writePtr (entryBytes dev tree entry)).drop (ptr + entry.encode.length) =
      packed entries ++ rest := by
  have hbytes := @length_entryBytes dev tree entry
  have henc := le_length_encode entry
  rw [drop_memcpy (by omega) (by omega), ← List.drop_drop, hptr, List.drop_left]

theorem inPlace_of_restored {restored : List SysChunk}
    (hl : updateSuperLoop dev tree arraySize rounds ptr writePtr bytes =
      .ok (some (newSize, final))) (hptr : bytes.drop ptr = packed entries ++ rest)
    (hsize : ptr + (packed entries).length = arraySize) (hwrite : writePtr ≤ ptr)
    (hmapped : ∀ e ∈ entries, Mapped tree e)
    (hfinal : (final.take newSize).drop writePtr = packed restored)
    (hrestored : List.Forall₂ (RestoredEntry dev tree) entries restored) :
    DupStripesInPlace dev tree entries (bytes.drop writePtr) := by
  induction hrestored generalizing rounds ptr writePtr bytes with
  | nil => exact trivial
  | @cons entry restored entries more hent _ ih =>
    rw [packed_cons, List.append_assoc] at hptr
    rw [packed_cons, List.length_append] at hsize
    have henc := le_length_encode entry
    have hbound := ptr_le hptr
    obtain ⟨n, rfl⟩ : ∃ n, rounds = n + 1 := by
      cases rounds with
      | zero => cases hl
      | succ n => exact ⟨n, rfl⟩
    rw [updateSuperLoop_cons hptr hwrite (by omega) (hmapped entry (by simp))] at hl
    have hh := drop_final (by omega) hl
    rw [hfinal] at hh
    obtain ⟨hlength, hdup⟩ := hent.inPlace hh
    have hd : (memcpy bytes writePtr (entryBytes dev tree entry)).drop
        (writePtr + entryLength entry) = _ := drop_written (by omega)
    rw [DupStripesInPlace, List.drop_drop, ← hd]
    refine ⟨hdup, ih hl (drop_unread hbound hwrite hptr) (by omega) ?_
      (List.forall_mem_cons.mp hmapped).2 ?_⟩
    · -- a DUP entry has two stripes here, so the write pointer stays behind
      have hstripes := entryLength_le entry fun h => (hdup h).1.ge
      omega
    · rw [← List.drop_drop, hfinal, packed_cons, ← hlength, List.drop_left]

section

variable (hrounds : entries.length < rounds) (hptr : bytes.drop ptr = packed entries ++ rest)
  (hsize : ptr + (packed entries).length = arraySize) (hwrite : writePtr ≤ ptr)
  (hmapped : ∀ e ∈ entries, Mapped tree e)

include hrounds hptr hsize hwrite hmapped

/-- With the second stripes there, the final array lists the restored entries. -/
theorem updateSuperLoop_restores (hplc : DupStripesInPlace dev tree entries (bytes.drop writePtr)) :
    ∃ newSize final restored, updateSuperLoop dev tree arraySize rounds ptr writePtr bytes =
        .ok (some (newSize, final)) ∧
      newSize ≤ arraySize ∧ List.Forall₂ (RestoredEntry dev tree) entries restored ∧
      (final.take newSize).drop writePtr = packed restored := by
  induction entries generalizing rounds ptr writePtr bytes with
  | nil =>
    obtain ⟨n, rfl⟩ : ∃ n, rounds = n + 1 := Nat.exists_eq_succ_of_ne_zero (by omega)
    have hd : arraySize ≤ ptr := hsize.symm.le
    refine ⟨writePtr, bytes, [], by rw [updateSuperLoop, if_pos hd], ?_, .nil, ?_⟩
    · rw [← hsize]
      exact hwrite
    · exact List.drop_eq_nil_of_le (List.length_take_le _ _)
  | cons entry entries ih =>
    rw [packed_cons, List.append_assoc] at hptr
    rw [packed_cons, List.length_append] at hsize
    rw [List.length_cons] at hrounds
    obtain ⟨n, rfl⟩ : ∃ n, rounds = n + 1 := Nat.exists_eq_succ_of_ne_zero (by omega)
    obtain ⟨hdup, ht⟩ := hplc
    have henc := le_length_encode entry
    have hbound := ptr_le hptr
    have hle := entryLength_le entry fun h => (hdup h).1.ge
    rw [List.drop_drop] at hdup
    have hdr : (memcpy bytes writePtr (entryBytes dev tree entry)).drop
        (writePtr + entryLength entry) = _ := drop_written (by omega)
    rw [← hdr] at ht
    have hn : entries.length < n := by omega
    obtain ⟨newSize, final, restored, hl, hnew, hforall, hfinal⟩ :=
      ih hn (drop_unread hbound hwrite hptr) (by omega) (by omega)
        (List.forall_mem_cons.mp hmapped).2 ht
    obtain ⟨first, hfirst, hencoded⟩ := exists_restoredEntry hdup
    refine ⟨newSize, final, first :: restored, ?_, hnew, hforall.cons hfirst, ?_⟩
    · rw [updateSuperLoop_cons hptr hwrite (by omega) (hmapped entry (by simp))]
      exact hl
    · simp [packed_cons, hencoded, ← drop_final (by omega) hl, ← hfinal]

theorem updateSuperLoop_returns
    (hdups : ∀ e ∈ entries, isDup e.chunk → 2 ≤ chunkNumStripes e.chunk) :
    ∃ result, updateSuperLoop dev tree arraySize rounds ptr writePtr bytes = .ok (some result) := by
  induction entries generalizing rounds ptr writePtr bytes with
  | nil =>
    obtain ⟨n, rfl⟩ : ∃ n, rounds = n + 1 := Nat.exists_eq_succ_of_ne_zero (by omega)
    have hd : arraySize ≤ ptr := hsize.symm.le
    exact ⟨_, by rw [updateSuperLoop, if_pos hd]⟩
  | cons entry entries ih =>
    rw [packed_cons, List.append_assoc] at hptr
    rw [packed_cons, List.length_append] at hsize
    rw [List.length_cons] at hrounds
    obtain ⟨n, rfl⟩ : ∃ n, rounds = n + 1 := Nat.exists_eq_succ_of_ne_zero (by omega)
    have henc := le_length_encode entry
    have hbound := ptr_le hptr
    have hle := entryLength_le entry (hdups entry (by simp))
    rw [updateSuperLoop_cons hptr hwrite (by omega) (hmapped entry (by simp))]
    exact ih (by omega) (drop_unread hbound hwrite hptr) (by omega) (by omega)
      (List.forall_mem_cons.mp hmapped).2
      (List.forall_mem_cons.mp hdups).2

end

/-! ## The superblock -/

/-- The new array lists the entries as they have to be. -/
def RestoresSuper (dev : DevItem) (tree : RbNode FsChunk) (entries : List SysChunk) (newSize : ℕ)
    (final : List (BitVec 8)) : Prop :=
  ∃ (super : SysChunkArray) (restored : List SysChunk), super.size = newSize ∧
    super.bytes = final ∧ Packs super restored ∧
    List.Forall₂ (RestoredEntry dev tree) entries restored

variable {super : SysChunkArray}

theorem updateSuper_eq_ok : updateSuper dev tree super = .ok (0, newSize, final) ↔
      updateSuperLoop dev tree super.size (super.size + 1) 0 0 super.bytes =
        .ok (some (newSize, final)) := by
  rw [updateSuper]
  cases updateSuperLoop dev tree super.size (super.size + 1) 0 0 super.bytes with
  | error fault => exact iff_of_false (fun h => by cases h) (fun h => by cases h)
  | ok result =>
    cases result with
    | none =>
      refine iff_of_false (fun h => ?_) (fun h => by cases h)
      cases h
    | some result => simp [bind, Except.bind, pure, Except.pure]

theorem exists_restores_iff {entries : List SysChunk} (hpk : Packs super entries)
    (hmapped : ∀ e ∈ entries, Mapped tree e) :
    (∃ newSize final, updateSuper dev tree super = .ok (0, newSize, final) ∧
      RestoresSuper dev tree entries newSize final) ↔
    DupStripesInPlace dev tree entries super.bytes := by
  have hptr : super.bytes.drop 0 = packed entries ++ super.bytes.drop super.size := hpk.bytes_append
  have hsize : 0 + (packed entries).length = super.size := by rw [hpk.size_eq, Nat.zero_add]
  constructor
  · rintro ⟨newSize, final, hupdate, super', restored, rfl, rfl, hpacked', hrestored⟩
    exact inPlace_of_restored (updateSuper_eq_ok.mp hupdate) hptr hsize (le_refl 0) hmapped
      hpacked'.bytes_eq hrestored
  · intro hplace
    have hrounds : entries.length < super.size + 1 := by
      have hle := length_le_packed entries
      omega
    obtain ⟨newSize, final, restored, hl, hle, hrestored, hfinal⟩ :=
      updateSuperLoop_restores hrounds hptr hsize (le_refl 0) hmapped hplace
    have hlen : final.length = BTRFS_SYSTEM_CHUNK_ARRAY_SIZE := by
      rw [(updateSuperLoop_frame hl).2.1, super.length_bytes]
    exact ⟨newSize, final, updateSuper_eq_ok.mpr hl, ⟨newSize, final, hlen⟩, restored, rfl, rfl,
      ⟨hle.trans hpk.size_le, hfinal⟩, hrestored⟩

theorem exists_updateSuper_eq_ok {entries : List SysChunk} (hpk : Packs super entries)
    (hmapped : ∀ e ∈ entries, Mapped tree e)
    (hdups : ∀ e ∈ entries, isDup e.chunk → 2 ≤ chunkNumStripes e.chunk) :
    ∃ newSize final, updateSuper dev tree super = .ok (0, newSize, final) := by
  have hptr : super.bytes.drop 0 = packed entries ++ super.bytes.drop super.size := hpk.bytes_append
  have hsize : 0 + (packed entries).length = super.size := by rw [hpk.size_eq, Nat.zero_add]
  have hrounds : entries.length < super.size + 1 := by
    have hle := length_le_packed entries
    omega
  obtain ⟨⟨newSize, final⟩, hl⟩ :=
    updateSuperLoop_returns hrounds hptr hsize (le_refl 0) hmapped hdups
  exact ⟨newSize, final, updateSuper_eq_ok.mpr hl⟩

/-- `update_super` stays inside the array and writes the entries as they have to be exactly if
each DUP entry has two stripes and finds its second stripe in the bytes it leaves alone. Where no
DUP entry has a single stripe, the same goes for what it writes when it returns 0. -/
theorem updateSuper_restores_iff {entries : List SysChunk} (hpacks : Packs super entries)
    (hmapped : ∀ e ∈ entries, Mapped tree e) :
    ((∃ newSize final, updateSuper dev tree super = .ok (0, newSize, final) ∧
        RestoresSuper dev tree entries newSize final) ↔
      DupStripesInPlace dev tree entries super.bytes) ∧
    ((∀ e ∈ entries, isDup e.chunk → 2 ≤ chunkNumStripes e.chunk) →
      ((∀ fault, updateSuper dev tree super ≠ .error fault) ∧
        ∀ newSize final, updateSuper dev tree super = .ok (0, newSize, final) →
          RestoresSuper dev tree entries newSize final) →
      DupStripesInPlace dev tree entries super.bytes) := by
  refine ⟨exists_restores_iff hpacks hmapped, ?_⟩
  rintro hdups ⟨-, hrestored⟩
  obtain ⟨newSize, final, hupdate⟩ := exists_updateSuper_eq_ok hpacks hmapped hdups
  exact (exists_restores_iff hpacks hmapped).mp
    ⟨newSize, final, hupdate, hrestored newSize final hupdate⟩

/-! ## A RAID1 entry before a DUP entry -/

def oneDevice : DevItem := ⟨1, List.replicate 16 7, rfl⟩

/-- A chunk item of a type, with its stripes on the one device. -/
def chunkOf (type : BitVec 64) (offsets : List ℕ) : List (BitVec 8) :=
  List.replicate 24 0 ++ (leBytes 8 type.toNat ++ (List.replicate 12 0 ++
    (leBytes 2 offsets.length ++ (leBytes 2 0 ++ offsets.flatMap (stripeBytes oneDevice)))))

def raid1Entry : SysChunk where
  key := ⟨256, BTRFS_CHUNK_ITEM_KEY, 1048576⟩
  chunk := chunkOf (BTRFS_BLOCK_GROUP_SYSTEM ||| BTRFS_BLOCK_GROUP_RAID1) [4096, 4096]
  type_eq := rfl
  objectid_lt := by decide
  offset_lt := by decide
  stripes_ne := by decide
  length_chunk := by decide

def dupEntry : SysChunk where
  key := ⟨256, BTRFS_CHUNK_ITEM_KEY, 2097152⟩
  chunk := chunkOf (BTRFS_BLOCK_GROUP_SYSTEM ||| BTRFS_BLOCK_GROUP_DUP) [69632, 135168]
  type_eq := rfl
  objectid_lt := by decide
  offset_lt := by decide
  stripes_ne := by decide
  length_chunk := by decide

def twoChunks : RbNode FsChunk :=
  .node .black .nil ⟨1048576, 4096, 0, 65536⟩ (.node .red .nil ⟨2097152, 69632, 135168, 65536⟩ .nil)

def raid1DupSuper : SysChunkArray where
  size := 258
  bytes := packed [raid1Entry, dupEntry] ++ List.replicate 1790 0
  length_bytes := by decide +kernel

def dupSuper : SysChunkArray where
  size := 129
  bytes := packed [dupEntry] ++ List.replicate 1919 0
  length_bytes := by decide +kernel

theorem raid1DupSuper_packs : Packs raid1DupSuper [raid1Entry, dupEntry] :=
  ⟨by decide, by decide +kernel⟩

theorem dupSuper_packs : Packs dupSuper [dupEntry] := ⟨by decide, by decide +kernel⟩

theorem twoChunks_mapped : ∀ e ∈ [raid1Entry, dupEntry], Mapped twoChunks e := by
  refine List.forall_mem_cons.mpr ⟨⟨(4096, 0, 0), by decide +kernel⟩, fun e he => ?_⟩
  rcases List.mem_cons.mp he with rfl | he
  · exact ⟨(69632, 0, 135168), by decide +kernel⟩
  · exact absurd he (by simp)

/-- A single DUP entry keeps its second stripe. -/
theorem dupSuper_restored : ∃ newSize final,
    updateSuper oneDevice twoChunks dupSuper = .ok (0, newSize, final) ∧
      RestoresSuper oneDevice twoChunks [dupEntry] newSize final := by
  have hmapped : ∀ e ∈ [dupEntry], Mapped twoChunks e :=
    (List.forall_mem_cons.mp twoChunks_mapped).2
  have hplace : DupStripesInPlace oneDevice twoChunks [dupEntry] dupSuper.bytes :=
    ⟨fun _ => by decide +kernel, trivial⟩
  exact (updateSuper_restores_iff dupSuper_packs hmapped).1.mpr hplace

/-- Behind an entry of two stripes the second stripe is the old first one: the offset is that of
`physical`, 69632, and not that of `physical_dup`, 135168. -/
theorem raid1DupSuper_not_restored : Packs raid1DupSuper [raid1Entry, dupEntry] ∧
    (∀ e ∈ [raid1Entry, dupEntry], Mapped twoChunks e) ∧
    (updateSuper oneDevice twoChunks raid1DupSuper).map
      (fun result => (result.1, result.2.1, (result.2.2.drop 194).take 32)) =
        .ok (0, 226, stripeBytes oneDevice 69632) ∧
    entryPlace twoChunks dupEntry = (69632, 135168) ∧
    ¬ ∃ newSize final, updateSuper oneDevice twoChunks raid1DupSuper = .ok (0, newSize, final) ∧
      RestoresSuper oneDevice twoChunks [raid1Entry, dupEntry] newSize final := by
  refine ⟨raid1DupSuper_packs, twoChunks_mapped, by decide +kernel, by decide +kernel, ?_⟩
  rw [exists_restores_iff raid1DupSuper_packs twoChunks_mapped]
  rintro ⟨-, hdup, -⟩
  have hstripe := (hdup (by decide +kernel)).2
  revert hstripe
  decide +kernel

end Btrfs.Image
