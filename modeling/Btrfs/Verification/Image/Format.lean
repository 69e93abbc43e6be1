import Btrfs.Model.Image.Metadump
import Btrfs.Verification.Shared.Bytes
import Btrfs.Verification.Shared.Calls

/-! # The format of a metadump, and its reader -/

namespace Btrfs.Image

variable {zlib : Zlib} {mdres mdres' : Mdrestore} {works : List AsyncWork}

/-! ## Clusters -/

def endOf (bytenr : ℕ) : List AsyncWork → ℕ
  | [] => bytenr
  | async :: works => endOf (wrap64 (bytenr + async.buffer.length)) works

def paddingOf (bytenr : ℕ) : ℕ := if bytenr % BLOCK_SIZE ≠ 0 then BLOCK_SIZE - bytenr % BLOCK_SIZE else 0

def nextOf (bytenr : ℕ) : ℕ :=
  if bytenr % BLOCK_SIZE ≠ 0 then wrap64 (bytenr + (BLOCK_SIZE - bytenr % BLOCK_SIZE)) else bytenr

/-- A buffer that an item of a cluster can describe. -/
structure Storable (async : AsyncWork) : Prop where
  start_lt : async.start < 2 ^ 64
  length_lt : async.buffer.length < 2 ^ 32
  buffer_ne : async.buffer ≠ []

/-- The bytes of a cluster: a block with header and items, the buffers, and zeros up to the next
block. -/
structure IsCluster (method bytenr : ℕ) (works : List AsyncWork) (bytes : Bytes) : Prop where
  works_le : works.length ≤ ITEMS_PER_CLUSTER
  bytenr_lt : bytenr < 2 ^ 64
  storable : ∀ async ∈ works, Storable async
  layout : ∃ unused,
    metaClusterItemSize * works.length + unused.length = BLOCK_SIZE - metaClusterSize ∧
    bytes = (headerBytes bytenr works.length method ++ (works.flatMap itemBytes ++ unused)) ++
      (works.flatMap AsyncWork.buffer ++
        List.replicate (paddingOf (endOf (wrap64 (bytenr + BLOCK_SIZE)) works)) 0)

/-- Clusters from a position on, with the position behind them. -/
inductive IsStream (method : ℕ) : ℕ → List (List AsyncWork) → Bytes → ℕ → Prop where
  | nil {bytenr : ℕ} : IsStream method bytenr [] [] bytenr
  | cons {bytenr next : ℕ} {works : List AsyncWork} {clusters : List (List AsyncWork)}
      {bytes rest : Bytes} (hcluster : IsCluster method bytenr works bytes)
      (hrest : IsStream method (nextOf (endOf (wrap64 (bytenr + BLOCK_SIZE)) works)) clusters rest
        next) : IsStream method bytenr (works :: clusters) (bytes ++ rest) next

theorem IsStream.snoc {method bytenr next : ℕ} {clusters : List (List AsyncWork)}
    {bytes last : Bytes} (h : IsStream method bytenr clusters bytes next)
    (hl : IsCluster method next works last) :
    IsStream method bytenr (clusters ++ [works]) (bytes ++ last)
      (nextOf (endOf (wrap64 (next + BLOCK_SIZE)) works)) := by
  induction h with
  | nil =>
    have h := IsStream.cons hl IsStream.nil
    rw [List.append_nil] at h
    exact h
  | cons hcluster hr ih =>
    rw [List.append_assoc]
    exact .cons hcluster (ih hl)

/-! ## The fields of a block -/

theorem clusterField_append {before part after : Bytes} {v n offset : ℕ}
    (hoff : before.length = offset) (hpart : part = leBytes n v) (hv : v < 256 ^ n) :
    clusterField (before ++ (part ++ after)) offset n = v := by
  have hlen : part.length = n := by rw [hpart, length_leBytes]
  rw [clusterField, List.drop_left' hoff, List.take_left' hlen, hpart, leNat_leBytes hv]

section

variable {bytenr nritems method : ℕ} (rest : Bytes)

theorem magic_headerBytes :
    clusterField (headerBytes bytenr nritems method ++ rest) 0 8 = HEADER_MAGIC := by
  have hmag : HEADER_MAGIC < 256 ^ 8 := by decide
  have hfield := @clusterField_append [] (leBytes 8 HEADER_MAGIC)
    ((leBytes 8 bytenr ++ (leBytes 4 nritems ++ leBytes 1 method)) ++ rest) HEADER_MAGIC 8 0
    List.length_nil rfl hmag
  exact hfield

theorem bytenr_headerBytes (h : bytenr < 2 ^ 64) :
    clusterField (headerBytes bytenr nritems method ++ rest) 8 8 = bytenr := by
  have hsplit : headerBytes bytenr nritems method ++ rest = leBytes 8 HEADER_MAGIC ++
        (leBytes 8 bytenr ++ (leBytes 4 nritems ++ (leBytes 1 method ++ rest))) := by
    simp only [headerBytes, List.append_assoc]
  rw [hsplit]
  exact clusterField_append (length_leBytes _ _) rfl h

theorem nritems_headerBytes (h : nritems < 2 ^ 32) :
    clusterField (headerBytes bytenr nritems method ++ rest) 16 4 = nritems := by
  have hsplit : headerBytes bytenr nritems method ++ rest =
      (leBytes 8 HEADER_MAGIC ++ leBytes 8 bytenr) ++
        (leBytes 4 nritems ++ (leBytes 1 method ++ rest)) := by
    simp only [headerBytes, List.append_assoc]
  rw [hsplit]
  refine clusterField_append ?_ rfl h
  rw [List.length_append, length_leBytes, length_leBytes]

theorem compress_headerBytes (h : method < 2 ^ 8) :
    clusterField (headerBytes bytenr nritems method ++ rest) 20 1 = method := by
  have hsplit : headerBytes bytenr nritems method ++ rest =
      (leBytes 8 HEADER_MAGIC ++ leBytes 8 bytenr ++ leBytes 4 nritems) ++
        (leBytes 1 method ++ rest) := by
    simp only [headerBytes, List.append_assoc]
  rw [hsplit]
  refine clusterField_append ?_ rfl h
  rw [List.length_append, List.length_append, length_leBytes, length_leBytes, length_leBytes]

theorem length_headerBytes (bytenr nritems method : ℕ) :
    (headerBytes bytenr nritems method).length = metaClusterSize := by
  rfl

end

theorem length_itemBytes (async : AsyncWork) : (itemBytes async).length = metaClusterItemSize := by
  rfl

theorem length_flatMap_itemBytes (works : List AsyncWork) :
    (works.flatMap itemBytes).length = metaClusterItemSize * works.length := by
  induction works with
  | nil => rfl
  | cons async works ih =>
    rw [List.flatMap_cons, List.length_append, ih, length_itemBytes, List.length_cons,
      Nat.mul_succ, Nat.add_comm]

theorem clusterField_item {header unused : Bytes} (hheader : header.length = metaClusterSize)
    (front back : List AsyncWork) {async : AsyncWork} (h : Storable async) :
    let block := header ++ ((front ++ async :: back).flatMap itemBytes ++ unused)
    clusterField block (metaClusterSize + metaClusterItemSize * front.length) 8 = async.start ∧
      clusterField block (metaClusterSize + metaClusterItemSize * front.length + 8) 4 =
        async.buffer.length := by
  intro block
  have hfr : (header ++ front.flatMap itemBytes).length =
      metaClusterSize + metaClusterItemSize * front.length := by
    rw [List.length_append, hheader, length_flatMap_itemBytes]
  have hblock : block = (header ++ front.flatMap itemBytes) ++
      (leBytes 8 async.start ++ (leBytes 4 async.buffer.length ++
        (back.flatMap itemBytes ++ unused))) := by
    simp only [block, List.flatMap_append, List.flatMap_cons, itemBytes, List.append_assoc]
  have hblock' : block = ((header ++ front.flatMap itemBytes) ++ leBytes 8 async.start) ++
      (leBytes 4 async.buffer.length ++ (back.flatMap itemBytes ++ unused)) := by
    rw [hblock]
    simp only [List.append_assoc]
  constructor
  · rw [hblock]
    exact clusterField_append hfr rfl h.start_lt
  · rw [hblock']
    refine clusterField_append ?_ rfl h.length_lt
    rw [List.length_append, hfr, length_leBytes]

/-! ## Reading a stream -/

theorem fread_append {part rest : Bytes} {size : ℕ} (h : part.length = size) (hne : part ≠ []) :
    fread (part ++ rest) size = some (part, rest) := by
  have hpos : ¬ (size = 0 ∨ (part ++ rest).length < size) := by
    have := List.length_pos_iff.mpr hne
    rw [List.length_append]
    omega
  rw [fread, if_neg hpos, List.take_left' h, List.drop_left' h]

theorem addItems_spec {zlib : Zlib} {header unused rest : Bytes} {front works : List AsyncWork}
    {mdres : Mdrestore} {bytenr : ℕ} (hheader : header.length = metaClusterSize)
    (hcount : (front ++ works).length ≤ ITEMS_PER_CLUSTER)
    (hstorable : ∀ async ∈ works, Storable async) :
    addItems zlib (header ++ ((front ++ works).flatMap itemBytes ++ unused)) works.length
        front.length mdres (works.flatMap AsyncWork.buffer ++ rest) bytenr =
      (works.foldlM (enqueue zlib) mdres).map fun mdres' => (mdres', rest, endOf bytenr works) := by
  induction works generalizing front mdres bytenr with
  | nil => rfl
  | cons async works ih =>
    have hasync := hstorable async List.mem_cons_self
    obtain ⟨hst, hs⟩ := @clusterField_item header unused hheader front works async hasync
    have hinside : ¬ BLOCK_SIZE <
        metaClusterSize + metaClusterItemSize * front.length + metaClusterItemSize := by
      have h83 : ITEMS_PER_CLUSTER = 83 := rfl
      rw [List.length_append, List.length_cons] at hcount
      simp only [BLOCK_SIZE, metaClusterSize, metaClusterItemSize]
      omega
    have hfread : fread ((async :: works).flatMap AsyncWork.buffer ++ rest) async.buffer.length =
        some (async.buffer, works.flatMap AsyncWork.buffer ++ rest) := by
      rw [List.flatMap_cons, List.append_assoc]
      exact fread_append rfl hasync.buffer_ne
    have hfr : (front ++ [async]) ++ works = front ++ async :: works := List.append_assoc _ _ _
    rw [List.length_cons, addItems, if_neg hinside, hs, hfread, List.foldlM_cons]
    simp only [hst]
    cases enqueue zlib mdres async with
    | error stop => rfl
    | ok mdres' =>
      have hr := @ih (front ++ [async]) mdres' (wrap64 (bytenr + async.buffer.length))
        (hfr ▸ hcount) (List.forall_mem_cons.mp hstorable).2
      rw [hfr, List.length_append] at hr
      exact hr

theorem addCluster_spec {zlib : Zlib} {method bytenr : ℕ} {works : List AsyncWork}
    {bytes rest : Bytes} {mdres : Mdrestore} (h : IsCluster method bytenr works bytes)
    (hmethod : method < 2 ^ 8) :
    ∃ cluster body, bytes = cluster ++ body ∧ cluster.length = BLOCK_SIZE ∧
      clusterField cluster 0 8 = HEADER_MAGIC ∧ clusterField cluster 8 8 = bytenr ∧
      addCluster zlib cluster mdres (body ++ rest) =
        (works.foldlM (enqueue zlib) { mdres with compressMethod := method }).map fun mdres' =>
          (mdres', rest, nextOf (endOf (wrap64 (bytenr + BLOCK_SIZE)) works)) := by
  obtain ⟨unused, hunused, rfl⟩ := h.layout
  obtain ⟨pos, hpos⟩ : ∃ pos, pos = endOf (wrap64 (bytenr + BLOCK_SIZE)) works := ⟨_, rfl⟩
  obtain ⟨padding, hpadding⟩ : ∃ padding : Bytes, padding = List.replicate (paddingOf pos) 0 :=
    ⟨_, rfl⟩
  have hbound : works.length < 2 ^ 32 := h.works_le.trans_lt (by decide)
  have hitems := @addItems_spec zlib
    (headerBytes bytenr works.length method) unused (padding ++ rest) [] works
    { mdres with compressMethod := method } (wrap64 (bytenr + BLOCK_SIZE)) (length_headerBytes _ _ _)
    h.works_le h.storable
  refine ⟨_, _, rfl, ?_, magic_headerBytes _, bytenr_headerBytes _ h.bytenr_lt, ?_⟩
  · rw [List.length_append, List.length_append, length_flatMap_itemBytes, hunused]
    rfl
  · have hinput : (works.flatMap AsyncWork.buffer ++ List.replicate
        (paddingOf (endOf (wrap64 (bytenr + BLOCK_SIZE)) works)) 0) ++ rest =
          works.flatMap AsyncWork.buffer ++ (padding ++ rest) := by
      rw [← hpos, ← hpadding, List.append_assoc]
    rw [List.nil_append, List.length_nil] at hitems
    rw [addCluster, compress_headerBytes _ hmethod, bytenr_headerBytes _ h.bytenr_lt,
      nritems_headerBytes _ hbound, hinput]
    rw [hitems, ← hpos]
    cases works.foldlM (enqueue zlib) { mdres with compressMethod := method } with
    | error stop => rfl
    | ok mdres' =>
      simp only [Except.map, bind, Except.bind]
      by_cases hmod : pos % BLOCK_SIZE ≠ 0
      · have hlen : padding.length = BLOCK_SIZE - pos % BLOCK_SIZE := by
          rw [hpadding, List.length_replicate, paddingOf, if_pos hmod]
        have hlt : pos % BLOCK_SIZE < BLOCK_SIZE := Nat.mod_lt _ (by decide)
        have hne : padding ≠ [] := by
          apply List.ne_nil_of_length_pos
          omega
        rw [if_pos hmod, fread_append hlen hne, nextOf, if_pos hmod]
        rfl
      · have hnil : padding = [] := by
          rw [hpadding, paddingOf, if_neg hmod]
          rfl
        rw [if_neg hmod, nextOf, if_neg hmod, hnil]
        rfl

/-- What the reader makes of queued work: it looks into superblocks, with the method of the
clusters. -/
def queued (zlib : Zlib) (method : ℕ) (mdres : Mdrestore) (works : List AsyncWork) :
    Step (List AsyncWork) :=
  (works.foldlM (enqueue zlib) { mdres with compressMethod := method }).map Mdrestore.list

theorem lookInto_ok {async : AsyncWork} (h : lookInto zlib mdres async = .ok mdres') :
    mdres'.compressMethod = mdres.compressMethod ∧ mdres'.list = mdres.list := by
  unfold lookInto fillMdresInfo at h
  split_ifs at h
  · cases h
    exact ⟨rfl, rfl⟩
  · obtain ⟨outbuf, -, hf⟩ := bind_eq_ok.mp h
    split_ifs at hf
    cases hf
    exact ⟨rfl, rfl⟩
  · cases h
    exact ⟨rfl, rfl⟩

theorem enqueue_ok {async : AsyncWork} (h : enqueue zlib mdres async = .ok mdres') :
    mdres'.compressMethod = mdres.compressMethod ∧ mdres'.list = mdres.list ++ [async] := by
  obtain ⟨middle, hlook, hret⟩ := bind_eq_ok.mp h
  obtain ⟨hmethod, hl⟩ := lookInto_ok hlook
  cases hret
  exact ⟨hmethod, congrArg (· ++ [async]) hl⟩

theorem foldlM_enqueue_ok (h : works.foldlM (enqueue zlib) mdres = .ok mdres') :
    mdres'.compressMethod = mdres.compressMethod ∧ mdres'.list = mdres.list ++ works := by
  induction works generalizing mdres with
  | nil =>
    cases h
    exact ⟨rfl, (List.append_nil _).symm⟩
  | cons async works ih =>
    obtain ⟨middle, hfirst, hr⟩ := bind_eq_ok.mp h
    obtain ⟨hmethod, hl⟩ := ih hr
    obtain ⟨hmethod', hl'⟩ := enqueue_ok hfirst
    refine ⟨hmethod.trans hmethod', ?_⟩
    rw [hl, hl', List.append_assoc]
    rfl

/-- The reader accepts the header of every cluster, consumes the stream and queues all buffers; it
fails only where it looks into a superblock. -/
theorem restoreLoop_spec {zlib : Zlib} {method bytenr next : ℕ} {clusters : List (List AsyncWork)}
    {bytes : Bytes} {mdres : Mdrestore} {rounds : ℕ}
    (h : IsStream method bytenr clusters bytes next) (hmethod : method < 2 ^ 8)
    (hrounds : bytes.length < rounds) :
    (restoreLoop zlib rounds bytes bytenr mdres).map (fun result => (result.1.list, result.2)) =
      (queued zlib method mdres clusters.flatten).map fun list => (list, []) := by
  induction h generalizing mdres rounds with
  | nil =>
    obtain ⟨n, rfl⟩ := Nat.exists_eq_succ_of_ne_zero (by omega : rounds ≠ 0)
    rfl
  | @cons bytenr next works clusters bytes rest hcluster hr ih =>
    obtain ⟨n, rfl⟩ := Nat.exists_eq_succ_of_ne_zero (by omega : rounds ≠ 0)
    obtain ⟨cluster, body, rfl, hlen, hmag, hbytenr, hadd⟩ :=
      @addCluster_spec zlib method bytenr works bytes rest mdres hcluster hmethod
    have hne : cluster ≠ [] := by
      apply List.ne_nil_of_length_pos
      rw [hlen]
      decide
    have hrounds' : rest.length < n := by
      rw [List.length_append, List.length_append] at hrounds
      have : BLOCK_SIZE = 1024 := rfl
      omega
    have hok : ¬ (clusterField cluster 0 8 ≠ HEADER_MAGIC ∨ clusterField cluster 8 8 ≠ bytenr) := by
      rw [hmag, hbytenr]
      simp
    rw [restoreLoop, List.append_assoc, fread_append hlen hne]
    simp only [if_neg hok, hadd]
    rw [queued, List.flatten_cons, List.foldlM_append]
    cases hworks : works.foldlM (enqueue zlib) { mdres with compressMethod := method } with
    | error stop => rfl
    | ok middle =>
      have hs : { middle with compressMethod := method } = middle := by
        have := (foldlM_enqueue_ok hworks).1
        cases this
        rfl
      have hl := @ih middle n hrounds'
      rw [queued, hs] at hl
      exact hl

end Btrfs.Image
