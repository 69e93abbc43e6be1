import Btrfs.Verification.SendStream.Commands

/-! # Correctness of the send stream reader -/

namespace Btrfs.SendStream

open Raid56

/-! ## One attribute -/

section

variable {σ : Type} {sctx : Stream σ} {attr : SendAttr}

theorem Fetched.get {data : List Byte} (h : Fetched sctx (attr, data)) :
    ∃ place, tlvGet sctx attr = .ok place ∧ place.2 = data.length ∧ fetch sctx place = .ok data := by
  obtain ⟨hs, hdr, hattr, hholds, hf⟩ := h
  have hd : data.length < BTRFS_SEND_BUF_SIZE := by
    simp only [tlvHeaderSize] at hf
    omega
  obtain ⟨-, hlen, hat⟩ := hholds.tlv hd
  dsimp only at hlen hat hf
  have hval : ¬ (attr.code = 0 ∨ BTRFS_SEND_A_MAX < attr.code) := by
    rintro (hz | hmax)
    · exact hs (SendAttr.code_eq_zero hz)
    · exact absurd attr.code_le (not_le.mpr hmax)
  refine ⟨(hdr + tlvHeaderSize, data.length), ?_, rfl, ?_⟩
  · rw [tlvGet, if_neg hval, hattr]
    simp [hlen]
  · have hin : ¬ BTRFS_SEND_BUF_SIZE < hdr + tlvHeaderSize + data.length := by omega
    rw [fetch, if_neg hin, hat]

theorem Fetched.data {data : List Byte} (h : Fetched sctx (attr, data)) :
    tlvGetData sctx attr = .ok data := by
  obtain ⟨place, hget, -, hfetch⟩ := h.get
  simp [tlvGetData, hget, bind, Except.bind, hfetch]

theorem cstring_val (s : CString) : cstring s.1 = s := by
  refine Subtype.ext (List.takeWhile_eq_self_iff.mpr fun b hb => ?_)
  exact decide_eq_true fun hz => s.2 (hz ▸ hb)

theorem Fetched.string {s : CString} (h : Fetched sctx (attr, s.1)) :
    tlvGetString sctx attr = .ok s := by
  simp only [tlvGetString, h.data, bind, Except.bind, cstring_val]
  rfl

theorem Fetched.u64 {v : BitVec 64} (h : Fetched sctx (attr, u64Bytes v)) :
    tlvGetU64 sctx attr = .ok v := by
  obtain ⟨place, hget, hlen, hfetch⟩ := h.get
  have hv : BitVec.ofNat 64 (leNat (u64Bytes v)) = v := by
    rw [u64Bytes, leNat_leBytes v.isLt, BitVec.ofNat_toNat, BitVec.setWidth_eq]
  simp only [tlvGetU64, hget, bind, Except.bind, hlen, hfetch, hv]
  rfl

theorem Fetched.uuid {uuid : Uuid} (h : Fetched sctx (attr, uuid.1)) :
    tlvGetUuid sctx attr = .ok uuid := by
  obtain ⟨place, hget, hlen, hfetch⟩ := h.get
  rw [uuid.2] at hlen
  simp only [tlvGetUuid, hget, bind, Except.bind, hlen, hfetch]
  exact dif_pos uuid.2

theorem Fetched.timespec {t : Timespec} (h : Fetched sctx (attr, timespecBytes t)) :
    tlvGetTimespec sctx attr = .ok t := by
  obtain ⟨place, hget, hlen, hfetch⟩ := h.get
  have hsec : (timespecBytes t).take 8 = leBytes 8 t.sec.toNat :=
    List.take_left' (length_leBytes ..)
  have hnsec : (timespecBytes t).drop 8 = leBytes 4 t.nsec.toNat :=
    List.drop_left' (length_leBytes ..)
  have hsecLt : t.sec.toNat < 256 ^ 8 := t.sec.isLt
  have hnsecLt : t.nsec.toNat < 256 ^ 4 := t.nsec.isLt
  simp only [tlvGetTimespec, hget, bind, Except.bind, hlen, hfetch,
    hsec, hnsec, leNat_leBytes hsecLt, leNat_leBytes hnsecLt, BitVec.ofNat_toNat]
  rfl

end

/-! ## The `switch` -/

/-- The call that the values of a command lead to: the length of a clone goes through an `int`. -/
def SendOp.received : SendOp → SendOp
  | .clone path offset len cloneUuid cloneCtransid clonePath cloneOffset =>
    .clone path offset (throughInt len) cloneUuid cloneCtransid clonePath cloneOffset
  | op => op

theorem pathOp_spec {σ : Type} {sctx : Stream σ} {path : CString} (h : Fetched sctx (.path, path.1))
    (op : CString → SendOp) : pathOp sctx op = .ok (op path) := by
  simp only [pathOp, h.string]
  rfl

theorem decodeCmd_done {σ : Type} {sctx : Stream σ} (hcmd : sctx.cmd = SendCmd.done.code) :
    decodeCmd sctx = .ok (.inr 1) := by
  rw [decodeCmd, hcmd]
  rfl

theorem decodeCmd_spec {σ : Type} {sctx : Stream σ} {op : SendOp} (hcmd : sctx.cmd = op.cmd.code)
    (hattrs : ∀ attr ∈ op.attrs, Fetched sctx attr) :
    decodeCmd sctx = .ok (.inl op.received) := by
  rw [decodeCmd, hcmd, SendCmd.getElem?_code]
  cases op with
  | subvol path uuid ctransid =>
    simp only [SendOp.attrs, List.forall_mem_cons] at hattrs
    obtain ⟨hp, huuid, hctransid, -⟩ := hattrs
    simp only [SendOp.cmd, hp.string, huuid.uuid, hctransid.u64, bind, Except.bind]
    rfl
  | snapshot path uuid ctransid parentUuid parentCtransid =>
    simp only [SendOp.attrs, List.forall_mem_cons] at hattrs
    obtain ⟨hp, huuid, hctransid, hparity, hparentCtransid, -⟩ := hattrs
    simp only [SendOp.cmd, hp.string, huuid.uuid, hctransid.u64, hparity.uuid,
      hparentCtransid.u64, bind, Except.bind]
    rfl
  | mkfile path | mkdir path | mkfifo path | mksock path | unlink path | rmdir path =>
    simp only [SendOp.attrs, List.forall_mem_cons] at hattrs
    simp only [SendOp.cmd, pathOp_spec hattrs.1, bind, Except.bind]
    rfl
  | mknod path mode dev =>
    simp only [SendOp.attrs, List.forall_mem_cons] at hattrs
    obtain ⟨hp, hmode, hdev, -⟩ := hattrs
    simp only [SendOp.cmd, hp.string, hmode.u64, hdev.u64, bind, Except.bind]
    rfl
  | symlink path lnk | link path lnk | rename path lnk | removeXattr path lnk =>
    simp only [SendOp.attrs, List.forall_mem_cons] at hattrs
    obtain ⟨hp, hlnk, -⟩ := hattrs
    simp only [SendOp.cmd, hp.string, hlnk.string, bind]
    rfl
  | write path data offset =>
    simp only [SendOp.attrs, List.forall_mem_cons] at hattrs
    obtain ⟨hp, hoff, hd, -⟩ := hattrs
    simp only [SendOp.cmd, hp.string, hoff.u64, hd.data, bind, Except.bind]
    rfl
  | clone path offset len cloneUuid cloneCtransid clonePath cloneOffset =>
    simp only [SendOp.attrs, List.forall_mem_cons] at hattrs
    obtain ⟨hp, hoff, hlen, huuid, hctransid, hclonePath, hcloneOffset, -⟩ := hattrs
    simp only [SendOp.cmd, hp.string, hoff.u64, hlen.u64, huuid.uuid, hctransid.u64,
      hclonePath.string, hcloneOffset.u64, bind, Except.bind]
    rfl
  | setXattr path name data =>
    simp only [SendOp.attrs, List.forall_mem_cons] at hattrs
    obtain ⟨hp, hn, hd, -⟩ := hattrs
    simp only [hp.string, hn.string, hd.data]
    rfl
  | truncate path v | chmod path v =>
    simp only [SendOp.attrs, List.forall_mem_cons] at hattrs
    obtain ⟨hp, hv, -⟩ := hattrs
    simp only [SendOp.cmd, hp.string, hv.u64]
    rfl
  | chown path v v' | updateExtent path v v' =>
    simp only [SendOp.attrs, List.forall_mem_cons] at hattrs
    obtain ⟨hp, hv, hv', -⟩ := hattrs
    simp only [hp.string, hv.u64, hv'.u64]
    rfl
  | utimes path at_ mt ct =>
    simp only [SendOp.attrs, List.forall_mem_cons] at hattrs
    obtain ⟨hp, hat, hmt, hct, -⟩ := hattrs
    simp only [hp.string, hat.timespec, hmt.timespec, hct.timespec]
    rfl

/-! ## Lengths of clones -/

def FitsInt (v : BitVec 64) : Prop := v.toNat < 2 ^ 31 ∨ 2 ^ 64 - 2 ^ 31 ≤ v.toNat

instance (v : BitVec 64) : Decidable (FitsInt v) :=
  inferInstanceAs (Decidable (v.toNat < 2 ^ 31 ∨ 2 ^ 64 - 2 ^ 31 ≤ v.toNat))

theorem throughInt_eq_iff (v : BitVec 64) : throughInt v = v ↔ FitsInt v := by
  rw [← BitVec.toInt_inj, throughInt, BitVec.toInt_signExtend_of_le (by decide),
    BitVec.toInt_setWidth, BitVec.toInt_eq_toNat_cond, Int.bmod_def, FitsInt]
  split <;> omega

def SendOp.CloneLenFits : SendOp → Prop
  | .clone _ _ len _ _ _ _ => FitsInt len
  | _ => True

theorem SendOp.received_eq_iff (op : SendOp) : op.received = op ↔ op.CloneLenFits := by
  cases op with
  | clone path offset len cloneUuid cloneCtransid clonePath cloneOffset =>
    rw [SendOp.CloneLenFits, ← throughInt_eq_iff, SendOp.received]
    simp
  | _ => exact iff_of_true rfl trivial

theorem map_received_eq_iff (ops : List SendOp) :
    ops.map SendOp.received = ops ↔ ∀ op ∈ ops, op.CloneLenFits := by
  induction ops with
  | nil => simp
  | cons op ops ih =>
    rw [List.map_cons, List.cons.injEq, ih, op.received_eq_iff, List.forall_mem_cons]

/-! ## One command -/

section

variable (chunk : ℕ → ℕ) (callback : List SendOp → SendOp → ℤ) {sctx : Stream Fd}
  {bytes suffix : List Byte} {ops : List SendOp} {rounds : ℕ}

theorem readAndProcessCmd_spec (hcallback : ∀ calls op, callback calls op = 0) {op : SendOp}
    (hop : EncodesCmd op bytes) (hr : sctx.fd.rest = bytes ++ suffix) (calls : List SendOp) :
    ∃ sctx', readAndProcessCmd (readFd chunk) callback sctx calls = .ok (0, sctx', calls ++ [op.received]) ∧
      sctx'.fd.rest = suffix := by
  obtain ⟨attrs, hp, hlen⟩ := hop
  have hnd : (attrs.map Prod.fst).Nodup := (hp.map _).nodup_iff.mpr op.attrs_nodup.1
  have huns : .unspec ∉ attrs.map Prod.fst := fun h => op.attrs_nodup.2 ((hp.map _).mem_iff.mp h)
  obtain ⟨sctx', hre, hfd, hcmd, hattrs⟩ := readCmd_spec chunk hlen hnd huns hr
  have hdecode := decodeCmd_spec hcmd fun attr hattr => hattrs attr (hp.mem_iff.mpr hattr)
  refine ⟨sctx', ?_, hfd⟩
  simp only [readAndProcessCmd, hre, bind, Except.bind, hdecode, hcallback]
  rfl

theorem readAndProcessCmd_done (hr : sctx.fd.rest = cmdBytes .done [] ++ suffix)
    (calls : List SendOp) :
    ∃ sctx', readAndProcessCmd (readFd chunk) callback sctx calls = .ok (1, sctx', calls) := by
  have hlen : (([] : List (SendAttr × List Byte)).flatMap tlvBytes).length + cmdHeaderSize <
      BTRFS_SEND_BUF_SIZE := by decide
  obtain ⟨sctx', hre, -, hcmd, -⟩ := readCmd_spec chunk hlen List.nodup_nil (by simp) hr
  refine ⟨sctx', ?_⟩
  simp only [readAndProcessCmd, hre, bind, Except.bind, decodeCmd_done hcmd]
  rfl

/-! ## Whole streams -/

theorem processLoop_spec (hcallback : ∀ calls op, callback calls op = 0) (honorEndCmd : ℤ)
    (maxErrors : ℕ) (hbytes : EncodesCmds ops bytes) (hrounds : ops.length < rounds)
    (sctx : Stream Fd) (hr : sctx.fd.rest = bytes ++ suffix) (calls : List SendOp) :
    processLoop (readFd chunk) callback honorEndCmd maxErrors rounds sctx calls 0 0 =
      .ok (if honorEndCmd = 0 then 0 else 1, calls ++ ops.map SendOp.received) := by
  induction hbytes generalizing rounds sctx calls with
  | done =>
    obtain ⟨rounds, rfl⟩ := Nat.exists_eq_succ_of_ne_zero (Nat.ne_of_gt hrounds)
    obtain ⟨sctx', hcmd⟩ := readAndProcessCmd_done chunk callback hr calls
    simp only [processLoop, hcmd, List.map_nil, List.append_nil]
    rfl
  | @cons op ops bytes rest hop hops ih =>
    obtain ⟨rounds, rfl⟩ := Nat.exists_eq_succ_of_ne_zero (Nat.ne_of_gt (Nat.zero_lt_of_lt hrounds))
    rw [List.append_assoc] at hr
    obtain ⟨sctx', hcmd, hr'⟩ := readAndProcessCmd_spec chunk callback hcallback hop hr calls
    simp only [processLoop, hcmd, bind, Except.bind, Int.lt_irrefl, if_false]
    simp [ih (Nat.lt_of_succ_lt_succ hrounds) sctx' hr' (calls ++ [op.received])]

theorem sendStream_run (hcallback : ∀ calls op, callback calls op = 0) (honorEndCmd : ℤ)
    (maxErrors : ℕ) (junk : ℕ → Byte) (hbytes : Encodes ops bytes) (suffix : List Byte)
    (hrounds : ops.length < rounds) :
    btrfsReadAndProcessSendStream rounds chunk callback junk (bytes ++ suffix) honorEndCmd maxErrors =
      .ok (if honorEndCmd = 0 then 0 else 1, ops.map SendOp.received) := by
  obtain ⟨body, hbody, rfl⟩ := hbytes
  generalize hheader : BTRFS_SEND_STREAM_MAGIC ++ leBytes 4 BTRFS_SEND_STREAM_VERSION = header
  have hlen : header.length = streamHeaderSize := by
    rw [← hheader]
    rfl
  obtain ⟨sctx, hr, hre, -⟩ := readBuf_spec chunk
    ⟨⟨header ++ body ++ suffix, 0⟩, junk, 0, fun _ => none, 0, 0⟩ (List.append_assoc ..)
  have hmag : header.take 13 = BTRFS_SEND_STREAM_MAGIC := by
    rw [← hheader]
    rfl
  have hversion : leNat (header.drop 13) = BTRFS_SEND_STREAM_VERSION := by
    rw [← hheader]
    rfl
  rw [hlen] at hr
  simp only [btrfsReadAndProcessSendStream, processStream, readHeader, hr, bind, Except.bind, hmag, hversion]
  exact processLoop_spec chunk callback hcallback honorEndCmd maxErrors hbody hrounds
    { sctx with version := BTRFS_SEND_STREAM_VERSION } hre []

/-- A stream leads to exactly its calls, and to its return value, if and only if the length of each
clone survives the way through an `int`. -/
theorem sendStream_exact_iff (hcallback : ∀ calls op, callback calls op = 0) (honorEndCmd : ℤ)
    (maxErrors : ℕ) (junk : ℕ → Byte) {ops : List SendOp} {bytes : List Byte}
    (hbytes : Encodes ops bytes) (suffix : List Byte) {rounds : ℕ} (hrounds : ops.length < rounds) :
    btrfsReadAndProcessSendStream rounds chunk callback junk (bytes ++ suffix) honorEndCmd maxErrors =
        .ok (if honorEndCmd = 0 then 0 else 1, ops) ↔
      ∀ op ∈ ops, op.CloneLenFits := by
  rw [sendStream_run chunk callback hcallback honorEndCmd maxErrors junk hbytes suffix hrounds,
    Except.ok.injEq, Prod.mk.injEq, map_received_eq_iff]
  exact and_iff_right rfl

end

/-- A clone from the start of a file to the start of another. -/
def cloneOf (len : BitVec 64) : SendOp :=
  .clone (cstring [0x61]) 0 len ⟨List.replicate 16 1, rfl⟩ 7 (cstring [0x62]) 0

def cloneStream (len : BitVec 64) : List Byte :=
  BTRFS_SEND_STREAM_MAGIC ++ leBytes 4 BTRFS_SEND_STREAM_VERSION ++
    (cmdBytes .clone ((cloneOf len).attrs.flatMap tlvBytes) ++ cmdBytes .done [])

theorem encodes_cloneStream (len : BitVec 64) : Encodes [cloneOf len] (cloneStream len) := by
  have hlen : ((cloneOf len).attrs.flatMap tlvBytes).length + cmdHeaderSize < BTRFS_SEND_BUF_SIZE := by
    simp [cloneOf, SendOp.attrs, cstring, u64Bytes, cmdHeaderSize, tlvHeaderSize, BTRFS_SEND_BUF_SIZE]
  exact ⟨_, .cons (.intro _ (List.Perm.refl _) hlen) .done, rfl⟩

theorem sendStream_exact_iff_clone :
    btrfsReadAndProcessSendStream 2 (fun _ => 5) (fun _ _ => 0) (fun _ => 0)
      (cloneStream 4096 ++ []) 0 1 = .ok (0, [cloneOf 4096]) :=
  (sendStream_exact_iff (fun _ => 5) (fun _ _ => 0) (fun _ _ => rfl) 0 1 (fun _ => 0)
    (encodes_cloneStream 4096) [] (by decide)).mpr
    (List.forall_mem_singleton.mpr (by decide : FitsInt 4096))

/-- A clone of 2 GiB reaches its callback with another length. -/
theorem sendStream_clone_two_gib : Encodes [cloneOf 0x80000000] (cloneStream 0x80000000) ∧
      btrfsReadAndProcessSendStream 2 (fun _ => 5) (fun _ _ => 0) (fun _ => 0)
        (cloneStream 0x80000000 ++ []) 0 1 = .ok (0, [cloneOf 0xffffffff80000000]) ∧
      cloneOf 0xffffffff80000000 ≠ cloneOf 0x80000000 := by
  refine ⟨encodes_cloneStream _, ?_, by decide⟩
  rw [sendStream_run (fun _ => 5) (fun _ _ => 0) (fun _ _ => rfl) 0 1 (fun _ => 0)
    (encodes_cloneStream 0x80000000) [] (by decide)]
  rfl

end Btrfs.SendStream
