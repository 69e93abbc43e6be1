import Btrfs.Model.SysArray
import Btrfs.Verification.Shared.Bytes

/-! # The packed system chunks: what the reader sees after any adds and frees -/

namespace Btrfs.Volumes

open Ctree (Key)

/-- A chunk with its key, as a superblock may list it. -/
structure SysChunk where
  key : Key
  chunk : List (BitVec 8)
  type_eq : key.type = BTRFS_CHUNK_ITEM_KEY
  objectid_lt : key.objectid < 2 ^ 64
  offset_lt : key.offset < 2 ^ 64
  stripes_ne : chunkNumStripes chunk ≠ 0
  length_chunk : chunk.length = btrfsChunkItemSize (chunkNumStripes chunk)

namespace SysChunk

def encode (entry : SysChunk) : List (BitVec 8) := keyBytes entry.key ++ entry.chunk

def packed (entries : List SysChunk) : List (BitVec 8) := entries.flatMap encode

@[simp] theorem packed_nil : packed [] = [] := rfl

@[simp] theorem packed_cons (entry : SysChunk) (entries : List SysChunk) :
    packed (entry :: entries) = entry.encode ++ packed entries := rfl

@[simp] theorem packed_append (xs ys : List SysChunk) :
    packed (xs ++ ys) = packed xs ++ packed ys := List.flatMap_append

theorem length_encode (entry : SysChunk) :
    entry.encode.length = btrfsChunkItemSize (chunkNumStripes entry.chunk) + diskKeySize := by
  rw [encode, List.length_append, entry.length_chunk, Nat.add_comm]
  rfl

end SysChunk

open SysChunk

theorem bytesKey_keyBytes (entry : SysChunk) : bytesKey (keyBytes entry.key) = entry.key := by
  have hoid : leNat (leBytes 8 entry.key.objectid) = entry.key.objectid :=
    leNat_leBytes entry.objectid_lt
  have ht : leNat (leBytes 1 entry.key.type) = entry.key.type :=
    leNat_leBytes (by rw [entry.type_eq]; decide)
  have hoff : leNat (leBytes 8 entry.key.offset) = entry.key.offset := leNat_leBytes entry.offset_lt
  calc bytesKey (keyBytes entry.key)
      = ⟨leNat (leBytes 8 entry.key.objectid), leNat (leBytes 1 entry.key.type),
          leNat (leBytes 8 entry.key.offset)⟩ := rfl
    _ = entry.key := by rw [hoid, ht, hoff]

theorem le_btrfsChunkItemSize (n : ℕ) : btrfsChunkItemSize 1 ≤ btrfsChunkItemSize n := by
  rw [btrfsChunkItemSize, btrfsChunkItemSize]
  omega

theorem length_le_packed (entries : List SysChunk) : entries.length ≤ (packed entries).length := by
  induction entries with
  | nil => exact Nat.zero_le _
  | cons entry entries ih =>
    have hmin := le_btrfsChunkItemSize (chunkNumStripes entry.chunk)
    have hone : btrfsChunkItemSize 1 = 80 := rfl
    rw [packed_cons, List.length_cons, List.length_append, length_encode]
    omega

/-! ## What the array holds -/

/-- The bytes in use are the entries, one after the other. -/
structure Packs (super : SysChunkArray) (entries : List SysChunk) : Prop where
  size_le : super.size ≤ BTRFS_SYSTEM_CHUNK_ARRAY_SIZE
  bytes_eq : super.bytes.take super.size = packed entries

namespace Packs

variable {super : SysChunkArray} {entries : List SysChunk}

theorem size_eq (h : Packs super entries) : super.size = (packed entries).length := by
  simp [← h.bytes_eq, super.length_bytes, Nat.min_eq_left h.size_le]

theorem bytes_append (h : Packs super entries) :
    super.bytes = packed entries ++ super.bytes.drop super.size := by
  rw [← h.bytes_eq, List.take_append_drop]

theorem load_eq (h : Packs super entries) {before part after : List (BitVec 8)}
    (hpkd : packed entries = before ++ (part ++ after)) {limit : ℕ} (hlimit : super.size ≤ limit) :
    super.load limit before.length part.length = .ok part := by
  have hs := h.size_eq
  rw [hpkd, List.length_append, List.length_append] at hs
  have hinside : ¬ limit < before.length + part.length := by omega
  rw [SysChunkArray.load, if_neg hinside, h.bytes_append, hpkd, List.append_assoc,
    List.drop_left, List.append_assoc, List.take_left]

variable {before after : List SysChunk} {entry : SysChunk}

theorem packed_split (hentries : entries = before ++ entry :: after) : packed entries =
      packed before ++ (keyBytes entry.key ++ (entry.chunk ++ packed after)) := by
  rw [hentries, packed_append, packed_cons, encode, List.append_assoc]

section

variable (h : Packs super entries) (hentries : entries = before ++ entry :: after)

include h hentries

theorem size_split : super.size = (packed before).length + diskKeySize +
      btrfsChunkItemSize (chunkNumStripes entry.chunk) + (packed after).length := by
  rw [h.size_eq, hentries, packed_append, packed_cons, List.length_append, List.length_append,
    length_encode]
  omega

theorem load_key {limit : ℕ} (hlimit : super.size ≤ limit) :
    super.load limit (packed before).length diskKeySize = .ok (keyBytes entry.key) :=
  h.load_eq (packed_split hentries) hlimit

theorem load_chunk : super.load super.size ((packed before).length + diskKeySize)
      (btrfsChunkItemSize (chunkNumStripes entry.chunk)) = .ok entry.chunk := by
  have hpacked : packed entries =
      (packed before ++ keyBytes entry.key) ++ (entry.chunk ++ packed after) := by
    rw [packed_split hentries, List.append_assoc]
  have hl := h.load_eq hpacked (le_refl super.size)
  rw [List.length_append, entry.length_chunk] at hl
  exact hl

theorem load_numStripes {limit : ℕ} (hlimit : super.size ≤ limit) :
    super.load limit ((packed before).length + diskKeySize + 44) 2 =
      .ok ((entry.chunk.drop 44).take 2) := by
  have hlen : 80 ≤ entry.chunk.length := by
    rw [entry.length_chunk]
    exact le_btrfsChunkItemSize _
  have hcut : entry.chunk =
      entry.chunk.take 44 ++ ((entry.chunk.drop 44).take 2 ++ (entry.chunk.drop 44).drop 2) := by
    rw [List.take_append_drop, List.take_append_drop]
  have hpacked : packed entries = (packed before ++ (keyBytes entry.key ++ entry.chunk.take 44)) ++
        ((entry.chunk.drop 44).take 2 ++ ((entry.chunk.drop 44).drop 2 ++ packed after)) := by
    rw [packed_split hentries]
    nth_rewrite 1 [hcut]
    simp
  have hl := h.load_eq hpacked hlimit
  have hbefore : (packed before ++ (keyBytes entry.key ++ entry.chunk.take 44)).length =
      (packed before).length + diskKeySize + 44 := by
    have hkey : (keyBytes entry.key).length = diskKeySize := rfl
    rw [List.length_append, List.length_append, List.length_take]
    omega
  have hpart : ((entry.chunk.drop 44).take 2).length = 2 := by
    rw [List.length_take, List.length_drop]
    omega
  rw [hbefore, hpart] at hl
  exact hl

end

end Packs

theorem SysChunkArray.load_of_le (super : SysChunkArray) {limit offset len : ℕ}
    (h : offset + len ≤ limit) :
    super.load limit offset len = .ok ((super.bytes.drop offset).take len) :=
  if_neg (Nat.not_lt.mpr h)

/-! ## Adding and freeing -/

theorem btrfsAddSystemChunk_packs {super : SysChunkArray} {entries : List SysChunk}
    (h : Packs super entries) (entry : SysChunk) :
    let itemSize := btrfsChunkItemSize (chunkNumStripes entry.chunk)
    btrfsAddSystemChunk super entry.key entry.chunk itemSize = (-EFBIG, super) ∨
      ∃ super', btrfsAddSystemChunk super entry.key entry.chunk itemSize = (0, super') ∧
        Packs super' (entries ++ [entry]) := by
  intro itemSize
  by_cases hbig : BTRFS_SYSTEM_CHUNK_ARRAY_SIZE < super.size + itemSize + diskKeySize
  · exact Or.inl (dif_pos hbig)
  · right
    refine ⟨_, dif_neg hbig, ?_⟩
    have hcheck : entry.chunk.take itemSize = entry.chunk :=
      List.take_of_length_le entry.length_chunk.le
    have hkey : (keyBytes entry.key).length = diskKeySize := rfl
    have hs : super.size = (packed entries).length := h.size_eq
    refine ⟨by simp only; omega, ?_⟩
    simp only [hcheck]
    rw [packed_append, packed_cons, packed_nil, List.append_nil, ← h.bytes_eq]
    have hlen : (super.bytes.take super.size).length = super.size := by rw [h.bytes_eq, hs]
    have hkeyed : (memcpy super.bytes super.size (keyBytes entry.key)).take
        (super.size + diskKeySize) = super.bytes.take super.size ++ keyBytes entry.key := by
      rw [memcpy, ← List.append_assoc]
      apply List.take_left'
      rw [List.length_append, hlen, hkey]
    rw [memcpy, hkeyed, ← List.append_assoc, List.append_assoc (super.bytes.take super.size)]
    apply List.take_left'
    rw [List.length_append, List.length_append, entry.length_chunk]
    omega

theorem remove_packs {super : SysChunkArray} {before after : List SysChunk} {entry : SysChunk}
    (h : Packs super (before ++ entry :: after)) :
    ∃ super', super.remove (packed before).length
        (btrfsChunkItemSize (chunkNumStripes entry.chunk) + diskKeySize) = .ok super' ∧
      Packs super' (before ++ after) := by
  have hs := h.size_split rfl
  have hle := h.size_le
  have hinside : (packed before).length +
      (btrfsChunkItemSize (chunkNumStripes entry.chunk) + diskKeySize) ≤ super.size ∧
      super.size ≤ BTRFS_SYSTEM_CHUNK_ARRAY_SIZE := ⟨by omega, hle⟩
  refine ⟨_, dif_pos hinside, by simp only; omega, ?_⟩
  have hbytes : super.bytes =
      packed before ++ (entry.encode ++ (packed after ++ super.bytes.drop super.size)) := by
    nth_rewrite 1 [h.bytes_append]
    rw [packed_append, packed_cons]
    simp
  have hd : super.bytes.drop ((packed before).length +
      (btrfsChunkItemSize (chunkNumStripes entry.chunk) + diskKeySize)) =
        packed after ++ super.bytes.drop super.size := by
    rw [← length_encode, ← List.drop_drop]
    nth_rewrite 1 [hbytes]
    simp
  have hmoved : (super.bytes.drop ((packed before).length +
      (btrfsChunkItemSize (chunkNumStripes entry.chunk) + diskKeySize))).take
        (super.size - (packed before).length -
          (btrfsChunkItemSize (chunkNumStripes entry.chunk) + diskKeySize)) = packed after := by
    rw [hd]
    apply List.take_left'
    omega
  have ht : super.bytes.take (packed before).length = packed before := by
    nth_rewrite 1 [hbytes]
    exact List.take_left
  simp only [hmoved]
  rw [memcpy, ht, packed_append, ← List.append_assoc]
  apply List.take_left'
  rw [List.length_append]
  omega

theorem freeSystemChunkItemLoop_packs {super : SysChunkArray} {key : Key} {rounds : ℕ}
    {before entries : List SysChunk} (h : Packs super (before ++ entries))
    (hrounds : entries.length < rounds) :
    ((∀ e ∈ entries, e.key ≠ key) ∧
      freeSystemChunkItemLoop super key rounds (packed before).length = .ok (-ENOENT, super)) ∨
    ∃ kept entry after super', entries = kept ++ entry :: after ∧ (∀ e ∈ kept, e.key ≠ key) ∧
      entry.key = key ∧
      freeSystemChunkItemLoop super key rounds (packed before).length = .ok (0, super') ∧
      Packs super' (before ++ (kept ++ after)) := by
  induction entries generalizing before rounds with
  | nil =>
    obtain ⟨n, rfl⟩ : ∃ n, rounds = n + 1 := ⟨rounds - 1, by omega⟩
    have hs := h.size_eq
    rw [List.append_nil] at hs
    left
    refine ⟨fun e he => absurd he (by simp), ?_⟩
    rw [freeSystemChunkItemLoop, if_pos hs.le]
  | cons entry entries ih =>
    obtain ⟨n, rfl⟩ : ∃ n, rounds = n + 1 := ⟨rounds - 1, by omega⟩
    have hs := h.size_split rfl
    have hinside : ¬ super.size ≤ (packed before).length := by
      have : 0 < diskKeySize := by decide
      omega
    have hst : freeSystemChunkItemLoop super key (n + 1) (packed before).length =
        if key = entry.key then
          (super.remove (packed before).length
            (btrfsChunkItemSize (chunkNumStripes entry.chunk) + diskKeySize)).map
              fun super' => ((0 : ℤ), super')
        else freeSystemChunkItemLoop super key n ((packed before).length +
          (btrfsChunkItemSize (chunkNumStripes entry.chunk) + diskKeySize)) := by
      rw [freeSystemChunkItemLoop, if_neg hinside, h.load_key rfl h.size_le,
        h.load_numStripes rfl h.size_le]
      have ht : ¬ entry.key.type ≠ BTRFS_CHUNK_ITEM_KEY := not_not.mpr entry.type_eq
      have hstripes : ¬ leNat ((entry.chunk.drop 44).take 2) = 0 := entry.stripes_ne
      simp only [bind, Except.bind, bytesKey_keyBytes, if_neg ht, decide_eq_false hstripes]
      rfl
    rw [hst]
    by_cases hkey : key = entry.key
    · obtain ⟨super', hrem, hpk⟩ := remove_packs h
      right
      refine ⟨[], entry, entries, super', rfl, fun e he => absurd he (by simp), hkey.symm, ?_, hpk⟩
      rw [if_pos hkey, hrem]
      rfl
    · have hlen : (packed before).length +
          (btrfsChunkItemSize (chunkNumStripes entry.chunk) + diskKeySize) =
            (packed (before ++ [entry])).length := by
        simp [length_encode]
      have h' : Packs super ((before ++ [entry]) ++ entries) := by
        rw [List.append_assoc]
        exact h
      rw [if_neg hkey, hlen]
      rcases ih h' (Nat.lt_of_succ_lt_succ hrounds) with
        ⟨hn, hl⟩ | ⟨kept, found, after, super', hentries, hk, hfound, hl, hpk⟩
      · left
        refine ⟨?_, hl⟩
        rintro e (_ | ⟨_, he⟩)
        · exact fun heq => hkey heq.symm
        · exact hn e he
      · right
        refine ⟨entry :: kept, found, after, super', by rw [hentries]; rfl, ?_, hfound, hl, ?_⟩
        · rintro e (_ | ⟨_, he⟩)
          · exact fun heq => hkey heq.symm
          · exact hk e he
        · rw [List.append_assoc] at hpk
          exact hpk

/-! ## Reading -/

/-- Chunks given to `read_one_chunk` one after the other; the first error ends it, and `ret` is
returned behind the last one. -/
def readEach {σ : Type} (readOneChunk : σ → Key → List (BitVec 8) → Call (ℤ × σ)) (ret : ℤ) :
    List (Key × List (BitVec 8)) → σ → Call (ℤ × σ)
  | [], state => .ok (ret, state)
  | (key, chunk) :: entries, state => do
      let (ret', state) ← readOneChunk state key chunk
      if ret' ≠ 0 then .ok (ret', state) else readEach readOneChunk ret entries state

def SysChunk.toPair (entry : SysChunk) : Key × List (BitVec 8) := (entry.key, entry.chunk)

theorem readSysArrayLoop_packs {σ : Type}
    {readOneChunk : σ → Key → List (BitVec 8) → Call (ℤ × σ)} {super : SysChunkArray} {rounds : ℕ}
    {before entries : List SysChunk} (h : Packs super (before ++ entries))
    (hrounds : entries.length < rounds) (state : σ) :
    readSysArrayLoop readOneChunk super rounds (packed before).length state =
      readEach readOneChunk 0 (entries.map toPair) state := by
  induction entries generalizing before rounds state with
  | nil =>
    obtain ⟨n, rfl⟩ : ∃ n, rounds = n + 1 := Nat.exists_eq_succ_of_ne_zero (by omega)
    have hs := h.size_eq
    rw [List.append_nil] at hs
    rw [readSysArrayLoop, if_pos hs.le]
    rfl
  | cons entry entries ih =>
    obtain ⟨n, rfl⟩ : ∃ n, rounds = n + 1 := Nat.exists_eq_succ_of_ne_zero (by omega)
    have hs := h.size_split rfl
    have hmin := le_btrfsChunkItemSize (chunkNumStripes entry.chunk)
    have hpos : 0 < diskKeySize := by decide
    have hinside : ¬ super.size ≤ (packed before).length := by omega
    have hkey : ¬ super.size < (packed before).length + diskKeySize := by omega
    have hone : ¬ super.size <
        (packed before).length + diskKeySize + btrfsChunkItemSize 1 := by omega
    have hcheck : ¬ super.size < (packed before).length + diskKeySize +
        btrfsChunkItemSize (leNat ((entry.chunk.drop 44).take 2)) := by
      change ¬ super.size < (packed before).length + diskKeySize +
        btrfsChunkItemSize (chunkNumStripes entry.chunk)
      omega
    have hstripes : ¬ leNat ((entry.chunk.drop 44).take 2) = 0 := entry.stripes_ne
    have hn : (packed before).length + diskKeySize +
        btrfsChunkItemSize (chunkNumStripes entry.chunk) = (packed (before ++ [entry])).length := by
      rw [packed_append, packed_cons, packed_nil, List.append_nil, List.length_append,
        length_encode]
      omega
    have h' : Packs super ((before ++ [entry]) ++ entries) := by
      rw [List.append_assoc]
      exact h
    have hl : super.load super.size ((packed before).length + diskKeySize)
        (btrfsChunkItemSize (leNat ((entry.chunk.drop 44).take 2))) = .ok entry.chunk :=
      h.load_chunk rfl
    have hloadKey := h.load_key rfl le_rfl
    have hloadStripes := h.load_numStripes rfl le_rfl
    rw [readSysArrayLoop, if_neg hinside, if_neg hkey, hloadKey]
    simp only [bind, Except.bind, bytesKey_keyBytes, if_pos entry.type_eq, if_neg hone,
      hloadStripes, if_neg hstripes, if_neg hcheck, hl]
    rw [List.map_cons, toPair, readEach]
    simp only [bind, Except.bind]
    cases readOneChunk state entry.key entry.chunk with
    | error fault => rfl
    | ok result =>
      simp only
      split
      · rfl
      · change readSysArrayLoop readOneChunk super n ((packed before).length + diskKeySize +
          btrfsChunkItemSize (chunkNumStripes entry.chunk)) result.2 = _
        rw [hn, ih h' (Nat.lt_of_succ_lt_succ hrounds)]

variable {bytes : List (BitVec 8)}

theorem bytesKey_bytes (h : bytes.length = diskKeySize) : keyBytes (bytesKey bytes) = bytes := by
  have h17 : bytes.length = 17 := h
  have hoid : leBytes 8 (leNat (bytes.take 8)) = bytes.take 8 := by
    have := leBytes_leNat (bytes.take 8)
    rwa [List.length_take, h17] at this
  have ht : leBytes 1 (leNat ((bytes.drop 8).take 1)) = (bytes.drop 8).take 1 := by
    have := leBytes_leNat ((bytes.drop 8).take 1)
    rwa [List.length_take, List.length_drop, h17] at this
  have hoff : leBytes 8 (leNat ((bytes.drop 9).take 8)) = bytes.drop 9 := by
    have hall : (bytes.drop 9).take 8 = bytes.drop 9 :=
      List.take_of_length_le (by rw [List.length_drop, h17])
    have := leBytes_leNat (bytes.drop 9)
    rw [List.length_drop, h17] at this
    rw [hall]
    exact this
  calc keyBytes (bytesKey bytes)
      = bytes.take 8 ++ (bytes.drop 8).take 1 ++ bytes.drop 9 := by
        rw [keyBytes, bytesKey, hoid, ht, hoff]
    _ = bytes := by
        have hd : bytes.drop 9 = (bytes.drop 8).drop 1 := by rw [List.drop_drop]
        rw [List.append_assoc, hd, List.take_append_drop, List.take_append_drop]

theorem bytesKey_lt (bytes : List (BitVec 8)) :
    (bytesKey bytes).objectid < 2 ^ 64 ∧ (bytesKey bytes).offset < 2 ^ 64 := by
  have hfield : ∀ part : List (BitVec 8), leNat (part.take 8) < 2 ^ 64 := by
    intro part
    have hle : (part.take 8).length ≤ 8 := by
      rw [List.length_take]
      exact Nat.min_le_left _ _
    exact (leNat_lt _).trans_le (Nat.pow_le_pow_right (by decide) hle)
  exact ⟨hfield _, hfield _⟩

theorem SysChunk.exists_of_bytes {numStripes : ℕ}
    (ht : (bytesKey (bytes.take diskKeySize)).type = BTRFS_CHUNK_ITEM_KEY)
    (hnum : numStripes = leNat ((bytes.drop (diskKeySize + 44)).take 2)) (hne : numStripes ≠ 0)
    (hlen : diskKeySize + btrfsChunkItemSize numStripes ≤ bytes.length) :
    ∃ entry : SysChunk, entry.key = bytesKey (bytes.take diskKeySize) ∧
      entry.chunk = (bytes.drop diskKeySize).take (btrfsChunkItemSize numStripes) ∧
      bytes = entry.encode ++ bytes.drop (diskKeySize + btrfsChunkItemSize numStripes) := by
  obtain ⟨chunk, hcheck⟩ : ∃ chunk,
    chunk = (bytes.drop diskKeySize).take (btrfsChunkItemSize numStripes) := ⟨_, rfl⟩
  have hmin : 80 ≤ btrfsChunkItemSize numStripes := le_btrfsChunkItemSize numStripes
  have hstripes : chunkNumStripes chunk = numStripes := by
    rw [chunkNumStripes, chunkField, hcheck, List.drop_take, List.take_take, List.drop_drop,
      Nat.min_eq_left]
    rw [← hnum]
    omega
  have hlength : chunk.length = btrfsChunkItemSize numStripes := by
    rw [hcheck, List.length_take, List.length_drop]
    omega
  obtain ⟨hoid, hoff⟩ := bytesKey_lt (bytes.take diskKeySize)
  refine ⟨⟨bytesKey (bytes.take diskKeySize), chunk, ht, hoid, hoff,
    hstripes ▸ hne, hstripes ▸ hlength⟩, rfl, hcheck, ?_⟩
  have hkey : (bytes.take diskKeySize).length = diskKeySize := by
    rw [List.length_take]
    omega
  change bytes = (keyBytes (bytesKey (bytes.take diskKeySize)) ++ chunk) ++ _
  simp [bytesKey_bytes hkey, hcheck]

/-- On any array the loop gives entries that stand in it to `read_one_chunk` and stops: it does
not use up its rounds, and no read goes behind the bytes in use. -/
theorem readSysArrayLoop_reads {super : SysChunkArray}
    (hs : super.size ≤ BTRFS_SYSTEM_CHUNK_ARRAY_SIZE) {rounds cur : ℕ} (hcursor : cur ≤ super.size)
    (hrounds : super.size < cur + rounds) :
    ∃ (entries : List SysChunk) (ret : ℤ),
      packed entries <+: (super.bytes.take super.size).drop cur ∧
      ∀ {σ : Type} (readOneChunk : σ → Key → List (BitVec 8) → Call (ℤ × σ)) (state : σ),
        readSysArrayLoop readOneChunk super rounds cur state =
          readEach readOneChunk ret (entries.map toPair) state := by
  induction rounds generalizing cur with
  | zero => omega
  | succ rounds ih =>
    obtain ⟨key, hkey⟩ : ∃ key, key = bytesKey ((super.bytes.drop cur).take diskKeySize) := ⟨_, rfl⟩
    obtain ⟨numStripes, hnum⟩ : ∃ numStripes,
      numStripes = leNat ((super.bytes.drop (cur + diskKeySize + 44)).take 2) := ⟨_, rfl⟩
    obtain ⟨len, hlen⟩ : ∃ len, len = btrfsChunkItemSize numStripes := ⟨_, rfl⟩
    have hpos : 80 ≤ len := hlen ▸ le_btrfsChunkItemSize numStripes
    by_cases hd : super.size ≤ cur
    · refine ⟨[], 0, List.nil_prefix, fun readOneChunk state => ?_⟩
      rw [readSysArrayLoop, if_pos hd]
      rfl
    by_cases hsh : super.size < cur + diskKeySize
    · refine ⟨[], -eio, List.nil_prefix, fun readOneChunk state => ?_⟩
      rw [readSysArrayLoop, if_neg hd, if_pos hsh]
      rfl
    have hloadKey := super.load_of_le (Nat.le_of_not_lt hsh)
    by_cases ht : key.type = BTRFS_CHUNK_ITEM_KEY
    swap
    · refine ⟨[], -eio, List.nil_prefix, fun readOneChunk state => ?_⟩
      rw [readSysArrayLoop, if_neg hd, if_neg hsh, hloadKey]
      simp only [bind, Except.bind, ← hkey, if_neg ht, List.map_nil, readEach]
    by_cases hone : super.size < cur + diskKeySize + btrfsChunkItemSize 1
    · refine ⟨[], -eio, List.nil_prefix, fun readOneChunk state => ?_⟩
      rw [readSysArrayLoop, if_neg hd, if_neg hsh, hloadKey]
      simp only [bind, Except.bind, ← hkey, if_pos ht, if_pos hone, List.map_nil, readEach]
    have hloadNum : super.load super.size (cur + diskKeySize + 44) 2 = _ :=
      super.load_of_le (by
        have : btrfsChunkItemSize 1 = 80 := rfl
        omega)
    by_cases hz : numStripes = 0
    · refine ⟨[], -eio, List.nil_prefix, fun readOneChunk state => ?_⟩
      rw [readSysArrayLoop, if_neg hd, if_neg hsh, hloadKey]
      simp only [bind, Except.bind, ← hkey, if_pos ht, if_neg hone, hloadNum, ← hnum,
        if_pos hz, List.map_nil, readEach]
    by_cases hlong : super.size < cur + diskKeySize + len
    · refine ⟨[], -eio, List.nil_prefix, fun readOneChunk state => ?_⟩
      rw [readSysArrayLoop, if_neg hd, if_neg hsh, hloadKey]
      simp only [bind, Except.bind, ← hkey, if_pos ht, if_neg hone, hloadNum, ← hnum,
        if_neg hz, ← hlen, if_pos hlong, List.map_nil, readEach]
    have hloadChunk := super.load_of_le (Nat.le_of_not_lt hlong)
    -- the bytes in use from here on begin with an entry
    obtain ⟨rest, hr⟩ : ∃ rest, rest = (super.bytes.take super.size).drop cur := ⟨_, rfl⟩
    have hta : ∀ offset n, cur + offset + n ≤ super.size →
        (rest.drop offset).take n = (super.bytes.drop (cur + offset)).take n := by
      intro offset n hle
      rw [hr, List.drop_drop, List.drop_take, List.take_take, Nat.min_eq_left (by omega)]
    have hrestLen : rest.length = super.size - cur := by
      rw [hr, List.length_drop, List.length_take, super.length_bytes, Nat.min_eq_left hs]
    have hkey' : key = bytesKey (rest.take diskKeySize) := by
      rw [hkey]
      exact congrArg bytesKey (hta 0 diskKeySize (by omega)).symm
    have hnum' : numStripes = leNat ((rest.drop (diskKeySize + 44)).take 2) := by
      rw [hnum, hta _ _ (by omega), Nat.add_assoc]
    obtain ⟨entry, hentryKey, hentryChunk, hent⟩ :=
      SysChunk.exists_of_bytes (hkey' ▸ ht) hnum' hz (by omega)
    obtain ⟨entries, ret, hprefix, hrd⟩ := @ih (cur + diskKeySize + len) (by omega) (by omega)
    refine ⟨entry :: entries, ret, ?_, fun readOneChunk state => ?_⟩
    · rw [← hr, hent, packed_cons, List.prefix_append_right_inj, ← hlen, hr,
        List.drop_drop, ← Nat.add_assoc]
      exact hprefix
    · have hp : (entry :: entries).map toPair =
          (key, (super.bytes.drop (cur + diskKeySize)).take len) :: entries.map toPair := by
        rw [List.map_cons, toPair, hentryKey, ← hkey', hentryChunk, ← hlen, hta _ _ (by omega)]
      rw [readSysArrayLoop, if_neg hd, if_neg hsh, hloadKey, hp]
      simp only [bind, Except.bind, ← hkey, if_pos ht, if_neg hone, hloadNum, ← hnum,
        if_neg hz, ← hlen, if_neg hlong, hloadChunk, readEach, hrd]

end Btrfs.Volumes
