import Btrfs.Verification.Image.Format

/-! # The writer of an image and what it reads -/

namespace Btrfs.Image

/-! ## One cluster -/

theorem memcpy_append {before rest : Bytes} {offset : ℕ} (h : before.length = offset) (new : Bytes) :
    memcpy (before ++ rest) offset new = before ++ (new ++ rest.drop new.length) := by
  rw [memcpy, List.take_left' h, ← List.drop_drop, List.drop_left' h]

variable {works : List AsyncWork} {out out' : File} {bytenr level next : ℕ} {md : Metadump}
  {clusters : List (List AsyncWork)}

theorem setItems_append {before rest : Bytes} {nritems : ℕ}
    (h : before.length = metaClusterSize + metaClusterItemSize * nritems) :
    setItems (before ++ rest) nritems works =
      before ++ (works.flatMap itemBytes ++ rest.drop (metaClusterItemSize * works.length)) := by
  induction works generalizing before rest nritems with
  | nil => rfl
  | cons async works ih =>
    have hlen : (before ++ itemBytes async).length =
        metaClusterSize + metaClusterItemSize * (nritems + 1) := by
      rw [List.length_append, h, length_itemBytes, Nat.mul_succ, Nat.add_assoc]
    have hd : rest.drop (metaClusterItemSize * (async :: works).length) =
        (rest.drop (itemBytes async).length).drop (metaClusterItemSize * works.length) := by
      rw [List.drop_drop, length_itemBytes, List.length_cons, Nat.mul_succ, Nat.add_comm]
    rw [setItems, memcpy_append h, ← List.append_assoc, ih hlen, List.flatMap_cons, hd]
    simp

theorem fwrite_ok {bytes : Bytes} (h : fwrite out bytes = .ok out') :
    out'.written = out.written ++ bytes := by
  unfold fwrite at h
  split_ifs at h
  cases h
  rfl

theorem writeOrdered_ok {bytenr' : ℕ} (h : writeOrdered out bytenr works = .ok (out', bytenr')) :
    out'.written = out.written ++ works.flatMap AsyncWork.buffer ∧ bytenr' = endOf bytenr works := by
  induction works generalizing out bytenr with
  | nil =>
    cases h
    exact ⟨(List.append_nil _).symm, rfl⟩
  | cons async works ih =>
    obtain ⟨middle, hwrite, hr⟩ := bind_eq_ok.mp h
    obtain ⟨hwritten, hpos⟩ := ih hr
    refine ⟨?_, hpos⟩
    simp [hwritten, fwrite_ok hwrite]

theorem endOf_lt (h : bytenr < 2 ^ 64) (works : List AsyncWork) : endOf bytenr works < 2 ^ 64 := by
  induction works generalizing bytenr with
  | nil => exact h
  | cons async works ih => exact ih (Nat.mod_lt _ (by decide))

/-! ## The state of the writer -/

/-- What was written are whole clusters, and the index block is ready for the next one. -/
structure Writing (level : ℕ) (md : Metadump) (clusters : List (List AsyncWork)) : Prop where
  stream : ∃ bytenr rest, IsStream (compressMethod level) 0 clusters md.out.written bytenr ∧
    bytenr < 2 ^ 64 ∧ md.cluster = headerBytes bytenr 0 (compressMethod level) ++ rest ∧
    rest.length = BLOCK_SIZE - metaClusterSize
  numItems_eq : md.numItems = md.ordered.length
  storable : ∀ async ∈ md.ordered, Storable async

theorem writing_init (level room : ℕ) : Writing level (metadumpInit level room) [] :=
  ⟨⟨0, List.replicate (BLOCK_SIZE - metaClusterSize) 0, .nil, by decide, rfl,
    List.length_replicate⟩, rfl, List.forall_mem_nil _⟩

theorem Writing.writeBuffers {md' : Metadump} (h : Writing level md clusters)
    (hne : md.ordered ≠ []) (hle : md.ordered.length ≤ ITEMS_PER_CLUSTER)
    (hc : writeBuffers md = .ok (md', next)) :
    IsStream (compressMethod level) 0 (clusters ++ [md.ordered]) md'.out.written next ∧
      next < 2 ^ 64 ∧ md'.cluster.length = BLOCK_SIZE ∧
      md' = { md with out := md'.out, cluster := md'.cluster, ordered := [] } := by
  obtain ⟨bytenr, rest, hstream, hbn, hclu, hr⟩ := h.stream
  obtain ⟨method, hmethod⟩ : ∃ method, method = compressMethod level := ⟨_, rfl⟩
  rw [← hmethod] at hstream hclu ⊢
  obtain ⟨unused, hunused⟩ : ∃ unused,
    unused = rest.drop (metaClusterItemSize * md.ordered.length) := ⟨_, rfl⟩
  have hblock : memcpy (setItems md.cluster 0 md.ordered) 16 (leBytes 4 md.ordered.length) =
      headerBytes bytenr md.ordered.length method ++ (md.ordered.flatMap itemBytes ++ unused) := by
    have hfr : (leBytes 8 HEADER_MAGIC ++ leBytes 8 bytenr).length = 16 := rfl
    rw [hclu, setItems_append (length_headerBytes _ _ _), ← hunused]
    have hsplit : headerBytes bytenr 0 method ++ (md.ordered.flatMap itemBytes ++ unused) =
        (leBytes 8 HEADER_MAGIC ++ leBytes 8 bytenr) ++
          (leBytes 4 0 ++ (leBytes 1 method ++ (md.ordered.flatMap itemBytes ++ unused))) := by
      simp [headerBytes]
    rw [hsplit, memcpy_append hfr]
    have hd : (leBytes 4 0 ++ (leBytes 1 method ++ (md.ordered.flatMap itemBytes ++
        unused))).drop (leBytes 4 md.ordered.length).length =
          leBytes 1 method ++ (md.ordered.flatMap itemBytes ++ unused) := List.drop_left' rfl
    rw [hd, headerBytes]
    simp
  have hlayout : metaClusterItemSize * md.ordered.length + unused.length =
      BLOCK_SIZE - metaClusterSize := by
    have h83 : ITEMS_PER_CLUSTER = 83 := rfl
    have h12 : metaClusterItemSize = 12 := rfl
    have h1003 : BLOCK_SIZE - metaClusterSize = 1003 := rfl
    rw [hunused, List.length_drop, h12]
    omega
  have hlen : (headerBytes bytenr md.ordered.length method ++
      (md.ordered.flatMap itemBytes ++ unused)).length = BLOCK_SIZE := by
    rw [List.length_append, List.length_append, length_flatMap_itemBytes, hlayout]
    rfl
  have hfield := @bytenr_headerBytes bytenr md.ordered.length method
    (md.ordered.flatMap itemBytes ++ unused) hbn
  rw [Image.writeBuffers, if_neg hne] at hc
  simp only [hblock, hfield] at hc
  obtain ⟨out, hout, hc⟩ := bind_eq_ok.mp hc
  obtain ⟨⟨out', pos⟩, horder, hc⟩ := bind_eq_ok.mp hc
  obtain ⟨hwritten, hpos⟩ := writeOrdered_ok horder
  have hposLt : pos < 2 ^ 64 := hpos ▸ endOf_lt (Nat.mod_lt _ (by decide)) _
  -- the stream with this cluster behind it, whatever pads it
  have hsnoc : ∀ padding, padding = List.replicate (paddingOf pos) 0 →
      IsStream method 0 (clusters ++ [md.ordered]) (out'.written ++ padding) (nextOf pos) := by
    rintro padding rfl
    have hclu : IsCluster method bytenr md.ordered _ := ⟨hle, hbn, h.storable, unused, hlayout, rfl⟩
    have hsnoc := hstream.snoc hclu
    rw [← hpos] at hsnoc
    rw [hwritten, fwrite_ok hout]
    simpa only [List.append_assoc] using hsnoc
  by_cases hmod : pos % BLOCK_SIZE ≠ 0
  · simp only [if_pos hmod] at hc
    obtain ⟨out'', hpad, hc⟩ := bind_eq_ok.mp hc
    cases hc
    refine ⟨?_, Nat.mod_lt _ (by decide), hlen, rfl⟩
    have hn : nextOf pos = wrap64 (pos + (BLOCK_SIZE - pos % BLOCK_SIZE)) := if_pos hmod
    rw [← hn, fwrite_ok hpad]
    exact hsnoc _ (by rw [paddingOf, if_pos hmod])
  · simp only [if_neg hmod] at hc
    cases hc
    refine ⟨?_, hposLt, hlen, rfl⟩
    have hn : nextOf next = next := if_neg hmod
    have hsnoc := hsnoc [] (by rw [paddingOf, if_neg hmod]; rfl)
    rw [hn, List.append_nil] at hsnoc
    exact hsnoc

theorem writing_next {level next : ℕ} {md : Metadump} {clusters : List (List AsyncWork)}
    (hstream : IsStream (compressMethod level) 0 clusters md.out.written next) (hn : next < 2 ^ 64)
    (hcluster : md.cluster.length = BLOCK_SIZE) (horder : md.ordered = []) :
    Writing level (metaClusterInit level md next) clusters := by
  refine ⟨⟨next, md.cluster.drop metaClusterSize, hstream, hn, ?_, ?_⟩, ?_, ?_⟩
  · exact @memcpy_append [] md.cluster 0 rfl _
  · rw [List.length_drop, hcluster]
  · change 0 = md.ordered.length
    rw [horder]
    rfl
  · change ∀ async ∈ md.ordered, Storable async
    rw [horder]
    exact by simp

/-! ## Extents put together, and what is read for them -/

variable {run extents : List Extent} {src : Source} {start size : ℕ}

/-! ## Runs -/

/-- The size of extents that are pending together. -/
def total (run : List Extent) : ℕ := (run.map Extent.size).sum

def startOf (run : List Extent) : ℕ := (run.head?.map Extent.start).getD u64Max

def dataOf (run : List Extent) : Bool := (run.getLast?.map Extent.data).getD false

def GoesBehind (run : List Extent) (extent : Extent) : Prop :=
  dataOf run = extent.data ∧ wrap64 (total run + extent.size) ≤ MAX_PENDING_SIZE ∧
    wrap64 (startOf run + total run) = extent.start

instance (run : List Extent) (extent : Extent) : Decidable (GoesBehind run extent) :=
  inferInstanceAs (Decidable (_ ∧ _ ∧ _))

/-- The extents as they are put together behind a pending run. -/
def runsFrom (run : List Extent) : List Extent → List (List Extent)
  | [] => [run]
  | extent :: extents =>
    if GoesBehind run extent then runsFrom (run ++ [extent]) extents
    else run :: runsFrom [extent] extents

def runsOf (extents : List Extent) : List (List Extent) :=
  (runsFrom [] extents).filter (total · ≠ 0)

theorem total_append (run run' : List Extent) : total (run ++ run') = total run + total run' := by
  rw [total, List.map_append, List.sum_append]
  rfl

theorem flatten_runsFrom (run extents : List Extent) :
    (runsFrom run extents).flatten = run ++ extents := by
  induction extents generalizing run with
  | nil => simp [runsFrom]
  | cons extent extents ih =>
    rw [runsFrom]
    split_ifs
    · rw [ih, List.append_assoc]
      rfl
    · rw [List.flatten_cons, ih]
      rfl

/-- A property of all runs: of single extents, and kept when an extent goes behind. -/
theorem runsFrom_induction {P : List Extent → Prop} (hrun : P run) (hsingle : ∀ extent, P [extent])
    (hjoin : ∀ run extent, P run → GoesBehind run extent → P (run ++ [extent])) :
    ∀ run' ∈ runsFrom run extents, P run' := by
  induction extents generalizing run with
  | nil =>
    intro run' hmem
    rw [runsFrom, List.mem_singleton] at hmem
    rw [hmem]
    exact hrun
  | cons extent extents ih =>
    rw [runsFrom]
    split_ifs with hbehind
    · exact ih (hjoin run extent hrun hbehind)
    · intro run' hmem
      obtain rfl | hmem := List.mem_cons.mp hmem
      · exact hrun
      · exact ih (hsingle extent) run' hmem

theorem startOf_lt (run : List Extent) : startOf run < 2 ^ 64 := by
  cases run with
  | nil => decide
  | cons extent run => exact extent.start_lt

theorem startOf_append {extent : Extent} (h : wrap64 (startOf run + total run) = extent.start) :
    startOf (run ++ [extent]) = startOf run := by
  cases run with
  | nil => exact h.symm
  | cons first run => rfl

/-! ## Bytes with their addresses -/

def addressed (start : ℕ) (bytes : Bytes) : List (ℕ × BitVec 8) :=
  bytes.mapIdx fun i byte => (wrap64 (start + i), byte)

theorem length_addressed (start : ℕ) (bytes : Bytes) :
    (addressed start bytes).length = bytes.length := List.length_mapIdx

theorem wrap64_lt (n : ℕ) : wrap64 n < 2 ^ 64 := Nat.mod_lt _ (by decide)

theorem wrap64_add_wrap64 (a b : ℕ) : wrap64 (wrap64 a + b) = wrap64 (a + b) := by
  rw [wrap64, wrap64, wrap64, Nat.mod_add_mod]

theorem addressed_append (start : ℕ) (xs ys : Bytes) : addressed start (xs ++ ys) =
      addressed start xs ++ addressed (wrap64 (start + xs.length)) ys := by
  rw [addressed, List.mapIdx_append]
  congr 1
  congr 1
  funext i byte
  rw [wrap64_add_wrap64, Nat.add_assoc, Nat.add_comm i]

theorem addressed_injective (start : ℕ) {xs ys : Bytes} (h : addressed start xs = addressed start ys) :
    xs = ys := by
  apply List.ext_getElem?
  intro i
  have hi := congrArg (fun bytes => bytes[i]?.map Prod.snd) h
  simpa [addressed] using hi

/-! ## What the extents hold -/

/-- The byte `i` behind a start, taken from the tree blocks there. -/
def Source.treeByte (src : Source) (start i : ℕ) : BitVec 8 :=
  ((src.treeBlock (wrap64 (start + i / src.nodesize * src.nodesize))).getD []).getD
    (i % src.nodesize) 0

/-- The byte `i` of an extent: file data, the superblock on the device, or tree blocks. -/
def Extent.byteAt (src : Source) (extent : Extent) (i : ℕ) : BitVec 8 :=
  if extent.data then src.dataAt (wrap64 (extent.start + i))
  else if extent.start = BTRFS_SUPER_INFO_OFFSET then src.device (wrap64 (extent.start + i))
  else src.treeByte extent.start i

def Extent.contents (src : Source) (extent : Extent) : Bytes :=
  (List.range extent.size).map (extent.byteAt src)

/-- The extents with their addresses and contents, one behind the other. -/
def ranges (src : Source) (extents : List Extent) : List (ℕ × BitVec 8) :=
  extents.flatMap fun extent => addressed extent.start (extent.contents src)

def runContents (src : Source) (run : List Extent) : Bytes := run.flatMap (Extent.contents src)

theorem length_runContents (src : Source) (run : List Extent) :
    (runContents src run).length = total run := by
  induction run with
  | nil => rfl
  | cons extent run ih =>
    have hlen : (extent.contents src).length = extent.size := by simp [Extent.contents]
    rw [runContents, List.flatMap_cons, List.length_append, hlen]
    exact congrArg (extent.size + ·) ih

theorem ranges_run (src : Source) (hmem : run ∈ runsFrom [] extents) :
    ranges src run = addressed (startOf run) (runContents src run) := by
  have hsingle : ∀ extent : Extent,
      ranges src [extent] = addressed (startOf [extent]) (runContents src [extent]) := by
    intro extent
    rw [ranges, runContents, List.flatMap_singleton, List.flatMap_singleton]
    rfl
  refine runsFrom_induction (P := fun run =>
    ranges src run = addressed (startOf run) (runContents src run)) rfl hsingle ?_ run hmem
  intro run extent hrun hbehind
  obtain ⟨-, -, hst⟩ := hbehind
  rw [startOf_append hst, runContents, List.flatMap_append, addressed_append, ranges,
    List.flatMap_append, ← runContents, length_runContents, hst]
  exact congrArg₂ (· ++ ·) hrun (hsingle extent)

theorem runContents_data (src : Source) (hmem : run ∈ runsFrom [] extents)
    (hd : dataOf run = true) :
    runContents src run = (List.range (total run)).map fun i =>
      src.dataAt (wrap64 (startOf run + i)) := by
  have hcontents : ∀ extent : Extent, extent.data = true →
      extent.contents src = (List.range extent.size).map fun i =>
        src.dataAt (wrap64 (extent.start + i)) := by
    intro extent hd
    apply List.map_congr_left
    intro i _
    exact if_pos hd
  refine runsFrom_induction (P := fun run => dataOf run = true →
    runContents src run = (List.range (total run)).map fun i =>
      src.dataAt (wrap64 (startOf run + i))) ?_ ?_ ?_ run hmem hd
  · intro hn
    cases hn
  · intro extent hd
    rw [runContents, List.flatMap_singleton, hcontents extent hd]
    rfl
  · intro run extent hrun hbehind hd
    obtain ⟨hs, -, hst⟩ := hbehind
    rw [dataOf, List.getLast?_concat] at hd
    have hext : extent.data = true := hd
    rw [runContents, List.flatMap_append, List.flatMap_singleton, ← runContents,
      hrun (hs.trans hext), hcontents extent hext, startOf_append hst, total_append, List.range_add, List.map_append, List.map_map, ← hst]
    congr 1
    apply List.map_congr_left
    intro i _
    rw [Function.comp_apply, wrap64_add_wrap64, Nat.add_assoc]

theorem runContents_eq_nil (h : total run = 0) : runContents src run = [] := by
  apply List.eq_nil_of_length_eq_zero
  rw [length_runContents, h]

theorem ranges_eq (src : Source) (extents : List Extent) : ranges src extents =
      (runsOf extents).flatMap fun run => addressed (startOf run) (runContents src run) := by
  have hall : ∀ runs : List (List Extent),
      (∀ run ∈ runs, ranges src run = addressed (startOf run) (runContents src run)) →
      ranges src runs.flatten = (runs.filter (total · ≠ 0)).flatMap fun run =>
        addressed (startOf run) (runContents src run) := by
    intro runs hr
    induction runs with
    | nil => rfl
    | cons run runs ih =>
      have hre := ih (List.forall_mem_cons.mp hr).2
      rw [List.flatten_cons, ranges, List.flatMap_append, ← ranges, ← ranges, hre, hr run (by simp)]
      by_cases hz : total run = 0
      · rw [List.filter_cons_of_neg (by simpa using hz), runContents_eq_nil hz]
        rfl
      · rw [List.filter_cons_of_pos (by simpa using hz), List.flatMap_cons]
  have hflat := flatten_runsFrom [] extents
  rw [List.nil_append] at hflat
  rw [runsOf, ← hall _ fun run hmem => ranges_run src hmem, hflat]

/-! ## What is read for a run -/

variable {bytes : Bytes} {data : Bool}

theorem readTreeBlocks_ok {rounds : ℕ} (hst : start < 2 ^ 64)
    (h : readTreeBlocks src rounds start size = .ok bytes) :
    bytes = (List.range size).map (src.treeByte start) := by
  induction rounds generalizing start size bytes with
  | zero => cases h
  | succ rounds ih =>
    rw [readTreeBlocks] at h
    split_ifs at h with hz
    · cases h
      rw [hz]
      rfl
    · cases hblock : src.treeBlock start with
      | none =>
        rw [hblock] at h
        cases h
      | some block =>
        have hlen := src.length_treeBlock hblock
        rw [hblock] at h
        simp only at h
        split_ifs at h with hsh
        obtain ⟨rest, hr, hret⟩ := bind_eq_ok.mp h
        cases hret
        have hmin : min src.nodesize size = src.nodesize := by omega
        rw [hmin] at hr
        have hs : size = src.nodesize + (size - src.nodesize) := by omega
        rw [hs, List.range_add, List.map_append, List.map_map, ih (wrap64_lt _) hr]
        congr 1
        · -- the first block
          apply List.ext_getElem
          · simp [hlen]
          · intro i hi hi'
            rw [hlen] at hi
            rw [List.getElem_map, List.getElem_range, Source.treeByte, Nat.div_eq_of_lt hi,
              Nat.mod_eq_of_lt hi, Nat.zero_mul, Nat.add_zero, wrap64_of_lt hst, hblock]
            simp [List.getElem?_eq_getElem (hlen.symm ▸ hi)]
        · apply List.map_congr_left
          intro i _
          by_cases hn : src.nodesize = 0
          · simp only [Function.comp_apply, Source.treeByte, hn, Nat.mul_zero, Nat.add_zero,
              Nat.zero_add]
            rw [wrap64_of_lt (wrap64_lt start)]
          · have hpos := Nat.pos_of_ne_zero hn
            rw [Function.comp_apply, Source.treeByte, Source.treeByte, wrap64_add_wrap64,
              Nat.add_div_left _ hpos, Nat.add_mod_left, Nat.succ_mul]
            congr 4
            omega

inductive Filled (src : Source) (start size : ℕ) (data : Bool) : Bytes → Prop where
  | all {bytes : Bytes} (hstart : start = BTRFS_SUPER_INFO_OFFSET)
      (hpread : src.pread start size = .all bytes) : Filled src start size data bytes
  | failed {junk : Bytes} (hstart : start = BTRFS_SUPER_INFO_OFFSET)
      (hpread : src.pread start size = .failed junk) : Filled src start size data junk
  | data (hstart : start ≠ BTRFS_SUPER_INFO_OFFSET) (hdata : data = true) :
      Filled src start size data ((List.range size).map fun i => src.dataAt (wrap64 (start + i)))
  | blocks (hstart : start ≠ BTRFS_SUPER_INFO_OFFSET) (hdata : data = false) :
      Filled src start size data ((List.range size).map (src.treeByte start))

theorem Filled.length_eq (h : Filled src start size data bytes) : bytes.length = size := by
  cases h with
  | all _ hpread => simp [src.pread_all hpread]
  | failed _ hpread => exact src.length_junk hpread
  | data => simp
  | blocks => simp

theorem readPending_ok {result : Option Bytes} (hst : start < 2 ^ 64)
    (h : readPending src start size data = .ok result) :
    (∃ bytes, result = some bytes ∧ Filled src start size data bytes) ∨
      start = BTRFS_SUPER_INFO_OFFSET ∧ src.pread start size = .short 0 := by
  obtain ⟨buffer, hbuf, h⟩ := bind_eq_ok.mp h
  split_ifs at h with hsup hd
  · cases hpread : src.pread start size with
    | all bytes =>
      rw [hpread] at h
      cases h
      exact .inl ⟨bytes, rfl, .all hsup hpread⟩
    | failed junk =>
      rw [hpread] at h
      cases h
      exact .inl ⟨junk, rfl, .failed hsup hpread⟩
    | short errno =>
      rw [hpread] at h
      simp only at h
      split_ifs at h with herrno
      rw [herrno]
      exact .inr ⟨hsup, rfl⟩
  · cases h
    rw [readData, if_pos hd] at hbuf
    obtain ⟨bytesLeft, -, hbuf⟩ := bind_eq_ok.mp hbuf
    split_ifs at hbuf
    cases hbuf
    exact .inl ⟨_, rfl, .data hsup hd⟩
  · obtain ⟨bytes, hblocks, hret⟩ := bind_eq_ok.mp h
    cases hret
    rw [readTreeBlocks_ok hst hblocks]
    exact .inl ⟨_, rfl, .blocks hsup (Bool.eq_false_iff.mpr hd)⟩

/-! ## A whole dump -/

variable {zlib : Zlib} {src : Source} {level : ℕ} {run extents : List Extent} {md md' : Metadump}
  {done : List (List Extent)}

/-! ## Sizes -/

/-- The most that a buffer can take in the image. -/
def storedBound (level n : ℕ) : ℕ := if 0 < level then compressBound n else n

theorem le_storedBound (level n : ℕ) : n ≤ storedBound level n := by
  unfold storedBound compressBound
  split_ifs <;> omega

theorem length_dumpWorker_le (zlib : Zlib) (level : ℕ) (buffer : Bytes) :
    (dumpWorker zlib level buffer).length ≤ storedBound level buffer.length := by
  unfold dumpWorker storedBound
  split_ifs
  · exact zlib.length_compress2_le level buffer
  · exact le_rfl

theorem dumpWorker_ne_nil (zlib : Zlib) (level : ℕ) {buffer : Bytes} (h : buffer ≠ []) :
    dumpWorker zlib level buffer ≠ [] := by
  unfold dumpWorker
  split_ifs
  · exact zlib.compress2_ne_nil level buffer
  · exact h

/-- The run fits into the size field of an item, and `pread64` does not end early with `errno` at
zero. -/
structure FitsRun (src : Source) (level : ℕ) (run : List Extent) : Prop where
  stored : storedBound level (total run) < 2 ^ 32
  noticed : startOf run = BTRFS_SUPER_INFO_OFFSET → src.pread (startOf run) (total run) ≠ .short 0

/-! ## What is kept while dumping -/

def Dumped (zlib : Zlib) (src : Source) (level : ℕ) (run : List Extent) (async : AsyncWork) : Prop :=
  ∃ bytes, Filled src (startOf run) (total run) (dataOf run) bytes ∧
    async = ⟨startOf run, dumpWorker zlib level bytes⟩

def Kept (zlib : Zlib) (src : Source) (level : ℕ) (md : Metadump) (done : List (List Extent)) : Prop :=
  ∃ clusters, Writing level md clusters ∧
    List.Forall₂ (Dumped zlib src level) done (clusters.flatten ++ md.ordered)

structure Dumping (zlib : Zlib) (src : Source) (level : ℕ) (md : Metadump)
    (done : List (List Extent)) (run : List Extent) : Prop where
  kept : Kept zlib src level md done
  ordered_lt : md.ordered.length < ITEMS_PER_CLUSTER
  pendingStart : md.pendingStart = startOf run
  pendingSize : md.pendingSize = total run
  data : md.data = dataOf run

theorem Dumped.storable {async : AsyncWork} (h : Dumped zlib src level run async)
    (hne : total run ≠ 0) (hf : FitsRun src level run) : Storable async := by
  obtain ⟨bytes, hfilled, rfl⟩ := h
  have hlen := hfilled.length_eq
  refine ⟨startOf_lt run, ?_, ?_⟩
  · have hle := length_dumpWorker_le zlib level bytes
    rw [hlen] at hle
    exact hle.trans_lt hf.stored
  · apply dumpWorker_ne_nil
    apply List.ne_nil_of_length_pos
    omega

theorem Kept.setPending (h : Kept zlib src level md done) (start size : ℕ) (data : Bool) :
    Kept zlib src level { md with pendingStart := start, pendingSize := size, data := data } done := by
  obtain ⟨clusters, hwriting, hd⟩ := h
  exact ⟨clusters, ⟨hwriting.stream, hwriting.numItems_eq, hwriting.storable⟩, hd⟩

section

variable (h : Kept zlib src level md done) (hle : md.ordered.length ≤ ITEMS_PER_CLUSTER)

include h hle

theorem flushOrdered_kept (hc : flushOrdered level md false = .ok md') :
    Kept zlib src level md' done ∧ md'.ordered.length < ITEMS_PER_CLUSTER ∧
      md'.pendingSize = md.pendingSize := by
  obtain ⟨clusters, hwriting, hd⟩ := h
  have hnum := hwriting.numItems_eq
  by_cases hf : ITEMS_PER_CLUSTER ≤ md.numItems
  · have hne : md.ordered ≠ [] := by
      apply List.ne_nil_of_length_pos
      have h83 : ITEMS_PER_CLUSTER = 83 := rfl
      omega
    rw [flushOrdered, if_pos (Or.inl hf)] at hc
    obtain ⟨⟨middle, next⟩, hwrite, hret⟩ := bind_eq_ok.mp hc
    obtain ⟨hstream, hn, hcluster, hs⟩ := hwriting.writeBuffers hne hle hwrite
    cases hret
    have horder : middle.ordered = [] := by rw [hs]
    refine ⟨⟨clusters ++ [md.ordered], writing_next hstream hn hcluster horder, ?_⟩, ?_, ?_⟩
    · change List.Forall₂ _ done ((clusters ++ [md.ordered]).flatten ++ middle.ordered)
      rw [horder, List.append_nil, List.flatten_append, List.flatten_singleton]
      exact hd
    · change middle.ordered.length < _
      rw [horder]
      decide
    · change middle.pendingSize = _
      rw [hs]
  · have hwait : ¬ (ITEMS_PER_CLUSTER ≤ md.numItems ∨ false = true) := by simpa using hf
    rw [flushOrdered, if_neg hwait] at hc
    cases hc
    exact ⟨⟨clusters, hwriting, hd⟩, by omega, rfl⟩

theorem flushOrdered_done (hc : flushOrdered level md true = .ok md') :
    ∃ clusters next, IsStream (compressMethod level) 0 clusters md'.out.written next ∧
      List.Forall₂ (Dumped zlib src level) done clusters.flatten := by
  obtain ⟨clusters, hwriting, hd⟩ := h
  rw [flushOrdered, if_pos (Or.inr rfl)] at hc
  obtain ⟨⟨middle, next⟩, hwrite, hret⟩ := bind_eq_ok.mp hc
  cases hret
  by_cases hn : md.ordered = []
  · rw [writeBuffers, if_pos hn] at hwrite
    cases hwrite
    obtain ⟨bytenr, rest, hstream, -⟩ := hwriting.stream
    rw [hn, List.append_nil] at hd
    exact ⟨clusters, bytenr, hstream, hd⟩
  · obtain ⟨hstream, -⟩ := hwriting.writeBuffers hn hle hwrite
    refine ⟨clusters ++ [md.ordered], next, hstream, ?_⟩
    rw [List.flatten_append, List.flatten_singleton]
    exact hd

end

theorem Dumping.flushPending {last : Bool} (h : Dumping zlib src level md done run)
    (hne : total run ≠ 0) (hf : FitsRun src level run)
    (hc : flushPending zlib src level md last = .ok md') :
    ∃ md'', flushOrdered level md'' last = .ok md' ∧ Kept zlib src level md'' (done ++ [run]) ∧
      md''.ordered.length ≤ ITEMS_PER_CLUSTER ∧ md''.pendingSize = 0 := by
  rw [Image.flushPending, h.pendingSize, h.pendingStart, h.data, if_pos hne] at hc
  obtain ⟨result, hr, hc⟩ := bind_eq_ok.mp hc
  obtain ⟨bytes, rfl, hfilled⟩ | ⟨hsup, hsh⟩ := readPending_ok (startOf_lt run) hr
  · have hdumped : Dumped zlib src level run ⟨startOf run, dumpWorker zlib level bytes⟩ :=
      ⟨bytes, hfilled, rfl⟩
    obtain ⟨clusters, hwriting, hd⟩ := h.kept
    refine ⟨_, hc, ⟨clusters, ⟨hwriting.stream, ?_, ?_⟩, ?_⟩, ?_, rfl⟩
    · rw [List.length_append]
      exact congrArg (· + 1) hwriting.numItems_eq
    · intro async hmem
      obtain hmem | hmem := List.mem_append.mp hmem
      · exact hwriting.storable async hmem
      · rw [List.mem_singleton.mp hmem]
        exact hdumped.storable hne hf
    · rw [← List.append_assoc]
      exact List.rel_append hd (.cons hdumped .nil)
    · rw [List.length_append]
      exact h.ordered_lt
  · exact absurd hsh (hf.noticed hsup)

/-! ## Adding extents -/

theorem total_le_runsFrom (run extents : List Extent) :
    ∃ run' ∈ runsFrom run extents, total run ≤ total run' := by
  induction extents generalizing run with
  | nil => exact ⟨run, List.mem_singleton_self run, le_rfl⟩
  | cons extent extents ih =>
    rw [runsFrom]
    split_ifs
    · obtain ⟨run', hmem, hle⟩ := ih (run ++ [extent])
      rw [total_append] at hle
      exact ⟨run', hmem, (Nat.le_add_right _ _).trans hle⟩
    · exact ⟨run, by simp, le_rfl⟩

theorem total_lt (hf : ∀ run' ∈ runsFrom run extents, total run' ≠ 0 → FitsRun src level run') :
    total run < 2 ^ 32 := by
  obtain ⟨run', hmem, hle⟩ := total_le_runsFrom run extents
  by_cases hz : total run' = 0
  · omega
  · have := (hf run' hmem hz).stored
    have := le_storedBound level (total run')
    omega

theorem dataOf_append (run : List Extent) (extent : Extent) :
    dataOf (run ++ [extent]) = extent.data := by
  rw [dataOf, List.getLast?_concat]
  rfl

theorem Dumping.addExtent {extent : Extent} (h : Dumping zlib src level md done run)
    (hf : ∀ run' ∈ runsFrom run (extent :: extents), total run' ≠ 0 → FitsRun src level run')
    (hc : addExtent zlib src level md extent = .ok md') :
    if GoesBehind run extent then Dumping zlib src level md' done (run ++ [extent])
    else Dumping zlib src level md' (done ++ [run].filter (total · ≠ 0)) [extent] := by
  obtain ⟨middle, hr, hret⟩ := bind_eq_ok.mp hc
  cases hret
  have hmerges : Merges md extent ↔ GoesBehind run extent := by
    rw [Merges, GoesBehind, h.data, h.pendingSize, h.pendingStart]
  unfold makeRoom at hr
  rw [runsFrom] at hf
  by_cases hbehind : GoesBehind run extent
  · rw [if_pos hbehind] at hf ⊢
    rw [if_pos (hmerges.mpr hbehind)] at hr
    cases hr
    have htotal : total (run ++ [extent]) = total run + extent.size := total_append run [extent]
    have hlt := total_lt hf
    refine ⟨h.kept.setPending _ _ _, h.ordered_lt, ?_, ?_, (dataOf_append run extent).symm⟩
    · rw [startOf_append hbehind.2.2]
      exact h.pendingStart
    · rw [h.pendingSize, ← htotal, wrap64_of_lt (hlt.trans (by decide))]
  · rw [if_neg hbehind] at hf ⊢
    rw [if_neg fun hm => hbehind (hmerges.mp hm)] at hr
    obtain ⟨flushed, hflush, hret⟩ := bind_eq_ok.mp hr
    cases hret
    have hsingle : total [extent] = extent.size := by simp [total]
    have hs : wrap64 (0 + extent.size) = total [extent] := by
      rw [hsingle, Nat.zero_add, wrap64_of_lt extent.size_lt]
    by_cases hz : total run = 0
    · rw [Image.flushPending, h.pendingSize, if_neg (not_not.mpr hz)] at hflush
      cases hflush
      rw [List.filter_cons_of_neg (by simpa using hz), List.filter_nil, List.append_nil]
      refine ⟨h.kept.setPending _ _ _, h.ordered_lt, rfl, ?_, rfl⟩
      rw [h.pendingSize, hz, hs]
    · obtain ⟨queued, horder, hk, hle, hemp⟩ :=
        h.flushPending hz (hf run (by simp) hz) hflush
      obtain ⟨hk', hlt, hpending⟩ := flushOrdered_kept hk hle horder
      rw [List.filter_cons_of_pos (by simpa using hz)]
      refine ⟨hk'.setPending _ _ _, hlt, rfl, ?_, rfl⟩
      rw [hpending, hemp, hs]

theorem Dumping.addExtents (h : Dumping zlib src level md done run)
    (hf : ∀ run' ∈ runsFrom run extents, total run' ≠ 0 → FitsRun src level run')
    (hc : addExtents zlib src level md extents = .ok md') :
    ∃ more last, Dumping zlib src level md' (done ++ more) last ∧ last ∈ runsFrom run extents ∧
      (runsFrom run extents).filter (total · ≠ 0) = more ++ [last].filter (total · ≠ 0) := by
  induction extents generalizing md done run with
  | nil =>
    cases hc
    refine ⟨[], run, ?_, List.mem_singleton_self run, rfl⟩
    rw [List.append_nil]
    exact h
  | cons extent extents ih =>
    obtain ⟨middle, hfirst, hr⟩ := bind_eq_ok.mp hc
    have hs := h.addExtent hf hfirst
    rw [runsFrom] at hf ⊢
    split_ifs at hs hf ⊢
    · exact ih hs hf hr
    · obtain ⟨more, last, hdumping, hmem, hru⟩ :=
        ih hs (List.forall_mem_cons.mp hf).2 hr
      refine ⟨[run].filter (total · ≠ 0) ++ more, last, ?_, by simp [hmem], ?_⟩
      · rw [← List.append_assoc]
        exact hdumping
      · rw [List.append_assoc, ← hru, ← List.filter_append]
        rfl

theorem createMetadump_stream {room : ℕ} (hf : ∀ run ∈ runsOf extents, FitsRun src level run)
    (hc : createMetadump zlib src level room extents = .ok md) :
    ∃ clusters next, IsStream (compressMethod level) 0 clusters md.out.written next ∧
      List.Forall₂ (Dumped zlib src level) (runsOf extents) clusters.flatten := by
  obtain ⟨middle, hadd, hflush⟩ := bind_eq_ok.mp hc
  have hinit : Dumping zlib src level (metadumpInit level room) [] [] :=
    ⟨⟨[], writing_init level room, .nil⟩, (by decide : 0 < ITEMS_PER_CLUSTER), rfl, rfl, rfl⟩
  have hf' : ∀ run ∈ runsFrom [] extents, total run ≠ 0 → FitsRun src level run := by
    intro run hmem hne
    exact hf run (List.mem_filter.mpr ⟨hmem, by simpa using hne⟩)
  obtain ⟨more, last, hdumping, hmem, hr⟩ := hinit.addExtents hf' hadd
  rw [runsOf, hr]
  by_cases hz : total last = 0
  · rw [flushPending, hdumping.pendingSize, if_neg (not_not.mpr hz)] at hflush
    rw [List.filter_cons_of_neg (by simpa using hz), List.filter_nil, List.append_nil]
    exact flushOrdered_done hdumping.kept hdumping.ordered_lt.le hflush
  · obtain ⟨queued, horder, hk, hle, -⟩ :=
      hdumping.flushPending hz (hf' last hmem hz) hflush
    rw [List.filter_cons_of_pos (by simpa using hz)]
    exact flushOrdered_done hk hle horder

end Btrfs.Image
