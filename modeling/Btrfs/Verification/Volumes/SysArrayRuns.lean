import Btrfs.Verification.Volumes.MapTotal
import Btrfs.Verification.Volumes.SysArray

/-! # The system chunk array over whole runs -/

namespace Btrfs.Volumes

open Ctree (Key)
open CacheTree (Overlaps)
open ExtentCache RbTree SysChunk

variable {super : SysChunkArray} {entries : List SysChunk}

/-! ## Adds and frees -/

inductive SysOp where
  | add (entry : SysChunk)
  | free (key : Key)

namespace SysOp

def call : SysOp → SysChunkArray → Call (ℤ × SysChunkArray)
  | add entry, super =>
    .ok (btrfsAddSystemChunk super entry.key entry.chunk
      (btrfsChunkItemSize (chunkNumStripes entry.chunk)))
  | free key, super => freeSystemChunkItem super key

/-- What a call does to the entries, and what it returns. -/
def effect : SysOp → List SysChunk → ℤ × List SysChunk
  | add entry, entries =>
    if BTRFS_SYSTEM_CHUNK_ARRAY_SIZE < (packed entries).length + entry.encode.length then
      (-EFBIG, entries)
    else (0, entries ++ [entry])
  | free key, entries =>
    if ∃ entry ∈ entries, entry.key = key then (0, entries.eraseP (·.key = key))
    else (-ENOENT, entries)

end SysOp

def runSysOps : List SysOp → SysChunkArray → Call (List ℤ × SysChunkArray)
  | [], super => .ok ([], super)
  | op :: ops, super => do
      let (ret, super) ← op.call super
      let (rets, super) ← runSysOps ops super
      return (ret :: rets, super)

/-- The return values, and the entries that were added and not freed. -/
def heldAfter : List SysOp → List SysChunk → List ℤ × List SysChunk
  | [], entries => ([], entries)
  | op :: ops, entries =>
    let (ret, entries) := op.effect entries
    let (rets, entries) := heldAfter ops entries
    (ret :: rets, entries)

theorem eraseP_kept {kept after : List SysChunk} {entry : SysChunk} {key : Key}
    (hk : ∀ e ∈ kept, e.key ≠ key) (hent : entry.key = key) :
    (kept ++ entry :: after).eraseP (·.key = key) = kept ++ after := by
  rw [List.eraseP_append_right _ fun e he => by simpa using hk e he,
    List.eraseP_cons_of_pos (by simpa using hent)]

theorem SysOp.call_packs (op : SysOp) (h : Packs super entries) :
    ∃ super', op.call super = .ok ((op.effect entries).1, super') ∧
      Packs super' (op.effect entries).2 ∧ ((op.effect entries).1 ≠ 0 → super' = super) := by
  cases op with
  | add entry =>
    rw [SysOp.call, SysOp.effect, ← h.size_eq, length_encode]
    split_ifs with hbig
    · refine ⟨super, ?_, h, fun _ => rfl⟩
      exact congrArg Except.ok (dif_pos hbig)
    · rw [← Nat.add_assoc] at hbig
      obtain hf | ⟨super', hadd, hpacked⟩ := btrfsAddSystemChunk_packs h entry
      · rw [btrfsAddSystemChunk, dif_neg hbig] at hf
        exact absurd (congrArg Prod.fst hf) (by decide : (0 : ℤ) ≠ -EFBIG)
      · exact ⟨super', congrArg Except.ok hadd, hpacked, fun hne => absurd rfl hne⟩
  | free key =>
    have hrounds : entries.length < super.size + 1 := by
      rw [h.size_eq]
      exact Nat.lt_succ_of_le (length_le_packed entries)
    rw [SysOp.effect]
    obtain ⟨hn, hl⟩ | ⟨kept, entry, after, super', hentries, hk, hent, hl, hpacked⟩ :=
      @freeSystemChunkItemLoop_packs super key _ [] entries h hrounds
    · have hno : ¬ ∃ entry ∈ entries, entry.key = key := by
        rintro ⟨entry, hmem, hkey⟩
        exact hn entry hmem hkey
      rw [if_neg hno]
      exact ⟨super, hl, h, fun _ => rfl⟩
    · have hyes : ∃ entry ∈ entries, entry.key = key := by
        refine ⟨entry, ?_, hent⟩
        rw [hentries]
        exact by simp
      rw [if_pos hyes, hentries, eraseP_kept hk hent]
      exact ⟨super', hl, hpacked, fun hne => absurd rfl hne⟩

theorem runSysOps_packs (ops : List SysOp) (h : Packs super entries) :
    ∃ super', runSysOps ops super = .ok ((heldAfter ops entries).1, super') ∧
      Packs super' (heldAfter ops entries).2 := by
  induction ops generalizing super entries with
  | nil => exact ⟨super, rfl, h⟩
  | cons op ops ih =>
    obtain ⟨middle, hc, hmid, -⟩ := op.call_packs h
    obtain ⟨super', hrun, hpacked⟩ := ih hmid
    refine ⟨super', ?_, hpacked⟩
    rw [runSysOps, hc]
    simp only [bind, Except.bind, hrun]
    rfl

/-! ## Into the mapping tree -/

namespace SysChunk

def decoded (entry : SysChunk) : Chunk where
  length := chunkField entry.chunk 0 8
  stripeLen := chunkField entry.chunk 16 8
  type := BitVec.ofNat 64 (chunkField entry.chunk 24 8)
  sectorSize := chunkField entry.chunk 40 4
  subStripes := chunkField entry.chunk 46 2
  stripes := (List.range (chunkNumStripes entry.chunk)).map fun i =>
    ⟨chunkField entry.chunk (48 + 32 * i) 8, chunkField entry.chunk (48 + 32 * i + 8) 8⟩

theorem decodeChunk_eq (entry : SysChunk) : decodeChunk entry.chunk = .ok entry.decoded := by
  have hlen := entry.length_chunk
  rw [btrfsChunkItemSize] at hlen
  have hl : ∀ offset n, offset + n ≤ entry.chunk.length →
      loadField entry.chunk offset n = .ok (chunkField entry.chunk offset n) :=
    fun offset n hle => if_neg (Nat.not_lt.mpr hle)
  have hstripes : (List.range (chunkNumStripes entry.chunk)).mapM (loadStripe entry.chunk) =
      .ok entry.decoded.stripes := by
    apply mapM_ok
    intro i hi
    have hi := List.mem_range.mp hi
    rw [loadStripe, hl _ _ (by omega), hl _ _ (by omega), hl _ _ (by omega)]
    rfl
  rw [decodeChunk, hl 44 2 (by omega), hl 0 8 (by omega), hl 16 8 (by omega),
    hl 24 8 (by omega), hl 40 4 (by omega), hl 46 2 (by omega)]
  change ((List.range (chunkNumStripes entry.chunk)).mapM (loadStripe entry.chunk)).bind _ = _
  rw [hstripes]
  rfl

def map (findDevice : ℕ → ℕ) (entry : SysChunk) : MapLookup :=
  mapOfChunk findDevice entry.key.offset entry.decoded

/-- An entry that `btrfs_check_chunk_valid` accepts, inside the address space. -/
def Valid (sectorsize : ℕ) (entry : SysChunk) : Prop :=
  btrfsCheckChunkValid sectorsize entry.decoded (-1) 0 entry.key.offset = .ok () ∧
    entry.key.offset + entry.decoded.length < 2 ^ 64

def Apart (a b : SysChunk) : Prop :=
  a.key.offset + a.decoded.length ≤ b.key.offset ∨ b.key.offset + b.decoded.length ≤ a.key.offset

theorem length_decoded_lt (entry : SysChunk) : entry.decoded.length < 2 ^ 64 := by
  have hle : ((entry.chunk.drop 0).take 8).length ≤ 8 := by
    rw [List.length_take]
    exact Nat.min_le_left _ _
  exact (leNat_lt _).trans_le (Nat.pow_le_pow_right (by decide) hle)

end SysChunk

theorem readSysChunk_apart {sectorsize : ℕ} (findDevice : ℕ → ℕ) {tree : MapTree}
    (ht : AcceptedTree tree)
    (hbound : ∀ map ∈ inorder tree, map.ce.start + map.ce.size < 2 ^ 64) {entry : SysChunk}
    (hval : entry.Valid sectorsize)
    (hapart : ∀ map ∈ inorder tree, ¬ Overlaps map.ce entry.key.offset entry.decoded.length) :
    ∃ tree', readSysChunk sectorsize findDevice tree entry.key entry.chunk = .ok (0, tree') ∧
      AcceptedTree tree' ∧ (inorder tree').Perm (entry.map findDevice :: inorder tree) := by
  obtain ⟨hcheck, hend⟩ := hval
  obtain ⟨profile, haccepted⟩ := accepted_of_check hcheck findDevice
  have hpos : 0 < entry.decoded.length := haccepted.size_pos
  have hmap : ((searchMapping tree entry.key.offset).any fun ce =>
      ce.entry.ce.start ≤ entry.key.offset ∧
        entry.key.offset < wrap64 (ce.entry.ce.start + ce.entry.ce.size)) = false := by
    cases hsearch : searchMapping tree entry.key.offset with
    | none => rfl
    | some ce =>
      obtain ⟨hmem, hinside⟩ := ht.search entry.offset_lt hsearch
      apply decide_eq_false
      rintro ⟨hst, -⟩
      apply hapart ce.entry hmem
      unfold Overlaps
      omega
  have hc := ht.consistent hbound entry.key.offset entry.decoded.length
  have hranges := ht.disjoint hbound
  obtain ⟨⟨map, hmem, hz⟩, -⟩ | ⟨tree', below, above, hcut, hins, -, horder⟩ :=
    rbInsert_spec (entry.map findDevice) ht.valid hc
  · exact absurd ((hranges.comp_zero_iff (List.mem_map_of_mem hmem) hend).mp hz) (hapart map hmem)
  · refine ⟨tree', ?_, ht.insert haccepted ⟨entry.offset_lt, entry.length_decoded_lt⟩ hins, ?_⟩
    · have hr : readOneChunk sectorsize findDevice tree entry.key.offset entry.decoded (-1) 0 =
          .ok (.ok tree') := by
        rw [readOneChunk, hcheck]
        simp only
        rw [if_neg (by rw [hmap]; decide)]
        have hinside' : rbInsert tree (mapOfChunk findDevice entry.key.offset entry.decoded)
            (fun e => cacheTreeCompRange e.ce
              (mapOfChunk findDevice entry.key.offset entry.decoded).ce.start
              (mapOfChunk findDevice entry.key.offset entry.decoded).ce.size) = .ok (0, tree') :=
          hins
        rw [hinside']
        rfl
      rw [readSysChunk, entry.decodeChunk_eq]
      simp only [bind, Except.bind, hr]
      rfl
    · rw [horder, hcut.append]
      exact List.perm_middle

theorem readEach_apart {sectorsize : ℕ} (findDevice : ℕ → ℕ) {tree : MapTree}
    (ht : AcceptedTree tree) (hbound : ∀ map ∈ inorder tree, map.ce.start + map.ce.size < 2 ^ 64)
    (hval : ∀ entry ∈ entries, entry.Valid sectorsize) (hparsed : entries.Pairwise Apart)
    (hapart : ∀ entry ∈ entries, ∀ map ∈ inorder tree,
      ¬ Overlaps map.ce entry.key.offset entry.decoded.length) :
    ∃ tree', readEach (readSysChunk sectorsize findDevice) 0 (entries.map toPair) tree =
        .ok (0, tree') ∧
      (inorder tree').Perm (entries.map (SysChunk.map findDevice) ++ inorder tree) := by
  induction entries generalizing tree with
  | nil => exact ⟨tree, rfl, List.Perm.refl _⟩
  | cons entry entries ih =>
    obtain ⟨hfirst, hparsed⟩ := List.pairwise_cons.mp hparsed
    obtain ⟨middle, hr, hmid, hp⟩ := readSysChunk_apart findDevice ht hbound
      (hval entry (by simp)) (hapart entry (by simp))
    have hmem : ∀ map ∈ inorder middle, map = entry.map findDevice ∨ map ∈ inorder tree :=
      fun map h => List.mem_cons.mp (hp.mem_iff.mp h)
    obtain ⟨tree', heach, hp'⟩ := ih hmid (by
        intro map h
        obtain rfl | h := hmem map h
        · exact (hval entry (by simp)).2
        · exact hbound map h)
      (List.forall_mem_cons.mp hval).2 hparsed
      (by
        intro e he map h
        obtain rfl | h := hmem map h
        · have := hfirst e he
          change ¬ Overlaps ⟨entry.key.offset, entry.decoded.length⟩ _ _
          unfold Apart at this
          unfold Overlaps
          simp only
          omega
        · exact hapart e (by simp [he]) map h)
    refine ⟨tree', ?_, ?_⟩
    · rw [List.map_cons, toPair, readEach, hr]
      exact heach
    · refine hp'.trans ((hp.append_left _).trans ?_)
      exact List.perm_middle

/-! ## Round trip -/

theorem packs_nil (h : super.size = 0) : Packs super [] := by
  refine ⟨by rw [h]; exact Nat.zero_le _, ?_⟩
  rw [h]
  rfl

theorem Packs.readSysArray_eq (h : Packs super entries) {nodesize : ℕ}
    (hns : BTRFS_SUPER_INFO_SIZE ≤ nodesize) {σ : Type}
    (readOneChunk : σ → Key → List (BitVec 8) → Call (ℤ × σ)) (state : σ) :
    readSysArray readOneChunk nodesize super state =
      readEach readOneChunk 0 (entries.map toPair) state := by
  have hrounds : entries.length < super.size + 1 := by
    rw [h.size_eq]
    exact Nat.lt_succ_of_le (length_le_packed entries)
  rw [readSysArray, if_neg (Nat.not_lt.mpr hns)]
  exact @readSysArrayLoop_packs σ readOneChunk super _ [] entries h hrounds state

theorem readSysArray_reads (hs : super.size ≤ BTRFS_SYSTEM_CHUNK_ARRAY_SIZE) (nodesize : ℕ) :
    ∃ (entries : List SysChunk) (ret : ℤ), packed entries <+: super.bytes.take super.size ∧
      ∀ {σ : Type} (readOneChunk : σ → Key → List (BitVec 8) → Call (ℤ × σ)) (state : σ),
        readSysArray readOneChunk nodesize super state =
          readEach readOneChunk ret (entries.map toPair) state := by
  by_cases hsmall : nodesize < BTRFS_SUPER_INFO_SIZE
  · exact ⟨[], _, List.nil_prefix, fun readOneChunk state => if_pos hsmall⟩
  · obtain ⟨entries, ret, hprefix, hrd⟩ :=
      @readSysArrayLoop_reads super hs (super.size + 1) 0 (Nat.zero_le _) (by omega)
    refine ⟨entries, ret, hprefix, fun readOneChunk state => ?_⟩
    rw [readSysArray, if_neg hsmall]
    exact hrd readOneChunk state

/-- After any adds and frees the reader gets exactly the entries that are left, in order; on an
arbitrary array it gets entries that stand in it, and stops. -/
theorem sysChunkArray_round_trip : (∀ (super : SysChunkArray) (ops : List SysOp), super.size = 0 →
      ∃ super', runSysOps ops super = .ok ((heldAfter ops []).1, super') ∧
        super'.size ≤ BTRFS_SYSTEM_CHUNK_ARRAY_SIZE ∧
        (∀ op : SysOp, ∃ ret super'', op.call super' = .ok (ret, super'') ∧
          (ret ≠ 0 → super'' = super')) ∧
        ∀ nodesize, BTRFS_SUPER_INFO_SIZE ≤ nodesize →
          (∀ {σ : Type} (readOneChunk : σ → Key → List (BitVec 8) → Call (ℤ × σ)) (state : σ),
            readSysArray readOneChunk nodesize super' state =
              readEach readOneChunk 0 ((heldAfter ops []).2.map toPair) state) ∧
          ∀ (sectorsize : ℕ) (findDevice : ℕ → ℕ),
            (∀ entry ∈ (heldAfter ops []).2, entry.Valid sectorsize) →
            (heldAfter ops []).2.Pairwise Apart →
            ∃ tree, btrfsReadSysArray sectorsize findDevice nodesize super' .nil = .ok (0, tree) ∧
              (inorder tree).Perm ((heldAfter ops []).2.map (SysChunk.map findDevice))) ∧
    ∀ (super : SysChunkArray) (nodesize : ℕ), super.size ≤ BTRFS_SYSTEM_CHUNK_ARRAY_SIZE →
      ∃ (entries : List SysChunk) (ret : ℤ), packed entries <+: super.bytes.take super.size ∧
        (∀ entry ∈ entries, decodeChunk entry.chunk = .ok entry.decoded) ∧
        ∀ {σ : Type} (readOneChunk : σ → Key → List (BitVec 8) → Call (ℤ × σ)) (state : σ),
          readSysArray readOneChunk nodesize super state =
            readEach readOneChunk ret (entries.map toPair) state := by
  refine ⟨?_, ?_⟩
  · intro super ops hemp
    obtain ⟨super', hrun, hpacked⟩ := runSysOps_packs ops (packs_nil hemp)
    refine ⟨super', hrun, hpacked.size_le, ?_, ?_⟩
    · intro op
      obtain ⟨super'', hc, -, hs⟩ := op.call_packs hpacked
      exact ⟨_, super'', hc, hs⟩
    · intro nodesize hns
      refine ⟨fun readOneChunk state => hpacked.readSysArray_eq hns readOneChunk state, ?_⟩
      intro sectorsize findDevice hval hparsed
      have hnil : AcceptedTree .nil := ReadChunks.nil.acceptedTree
      obtain ⟨tree, heach, hp⟩ := readEach_apart findDevice hnil (by simp) hval
        hparsed (fun entry _ => by simp)
      refine ⟨tree, ?_, ?_⟩
      · rw [btrfsReadSysArray, hpacked.readSysArray_eq hns, heach]
      · rw [inorder_nil, List.append_nil] at hp
        exact hp
  · intro super nodesize hsi
    obtain ⟨entries, ret, hprefix, hrd⟩ := readSysArray_reads hsi nodesize
    exact ⟨entries, ret, hprefix, fun entry _ => entry.decodeChunk_eq, hrd⟩

def sysChunkAt (logical : ℕ) (h : logical < 2 ^ 64) : SysChunk where
  key := ⟨256, BTRFS_CHUNK_ITEM_KEY, logical⟩
  chunk := leBytes 8 4194304 ++ leBytes 8 2 ++ leBytes 8 65536 ++ leBytes 8 2 ++ leBytes 4 65536 ++
    leBytes 4 65536 ++ leBytes 4 4096 ++ leBytes 2 1 ++ leBytes 2 0 ++ leBytes 8 1 ++
    leBytes 8 logical ++ leBytes 16 0
  type_eq := rfl
  objectid_lt := (by decide : 256 < 2 ^ 64)
  offset_lt := h
  stripes_ne := Nat.one_ne_zero
  length_chunk := rfl

def emptySysArray : SysChunkArray where
  size := 0
  bytes := List.replicate BTRFS_SYSTEM_CHUNK_ARRAY_SIZE 0
  length_bytes := List.length_replicate

/-- Two chunks are added and the first one is freed: the other one is read. -/
theorem sysChunkArray_second_left :
    let first := sysChunkAt 0 (by decide)
    let second := sysChunkAt 4194304 (by decide)
    ∃ super tree, runSysOps [.add first, .add second, .free first.key] emptySysArray =
        .ok ([0, 0, 0], super) ∧
      btrfsReadSysArray 4096 id 16384 super .nil = .ok (0, tree) ∧
      inorder tree = [second.map id] := by
  intro first second
  have hh : heldAfter [.add first, .add second, .free first.key] [] = ([0, 0, 0], [second]) := rfl
  obtain ⟨super, hrun, -, -, hr⟩ :=
    sysChunkArray_round_trip.1 emptySysArray [.add first, .add second, .free first.key] rfl
  obtain ⟨-, hmap⟩ := hr 16384 (by decide)
  rw [hh] at hrun hmap
  have hval : second.Valid 4096 := ⟨by decide, by decide⟩
  obtain ⟨tree, hc, hp⟩ := hmap 4096 id
    (fun entry hmem => List.mem_singleton.mp hmem ▸ hval) (by simp)
  exact ⟨super, tree, hrun, hc, List.perm_singleton.mp hp⟩

end Btrfs.Volumes
