import Btrfs.Model.SendStream
import Btrfs.Verification.SendStream.Checksum
import Btrfs.Verification.Shared.Bytes

/-! # The format of send streams

The bytes that a sender writes for a list of commands. The attributes of a command may come in any
order. -/

namespace Btrfs.SendStream

open Raid56 Crc32c

/-! ## Commands -/

def u64Bytes (v : BitVec 64) : List Byte := leBytes 8 v.toNat

def timespecBytes (t : Timespec) : List Byte := leBytes 8 t.sec.toNat ++ leBytes 4 t.nsec.toNat

def SendOp.cmd : SendOp → SendCmd
  | .subvol .. => .subvol
  | .snapshot .. => .snapshot
  | .mkfile .. => .mkfile
  | .mkdir .. => .mkdir
  | .mknod .. => .mknod
  | .mkfifo .. => .mkfifo
  | .mksock .. => .mksock
  | .symlink .. => .symlink
  | .rename .. => .rename
  | .link .. => .link
  | .unlink .. => .unlink
  | .rmdir .. => .rmdir
  | .write .. => .write
  | .clone .. => .clone
  | .setXattr .. => .setXattr
  | .removeXattr .. => .removeXattr
  | .truncate .. => .truncate
  | .chmod .. => .chmod
  | .chown .. => .chown
  | .utimes .. => .utimes
  | .updateExtent .. => .updateExtent

def SendOp.attrs : SendOp → List (SendAttr × List Byte)
  | .subvol path uuid ctransid => [(.path, path.1), (.uuid, uuid.1), (.ctransid, u64Bytes ctransid)]
  | .snapshot path uuid ctransid parentUuid parentCtransid =>
    [(.path, path.1), (.uuid, uuid.1), (.ctransid, u64Bytes ctransid), (.cloneUuid, parentUuid.1),
      (.cloneCtransid, u64Bytes parentCtransid)]
  | .mkfile path | .mkdir path | .mkfifo path | .mksock path | .unlink path | .rmdir path =>
    [(.path, path.1)]
  | .mknod path mode dev => [(.path, path.1), (.mode, u64Bytes mode), (.rdev, u64Bytes dev)]
  | .symlink path lnk | .link path lnk => [(.path, path.1), (.pathLink, lnk.1)]
  | .rename source target => [(.path, source.1), (.pathTo, target.1)]
  | .write path data offset => [(.path, path.1), (.fileOffset, u64Bytes offset), (.data, data)]
  | .clone path offset len cloneUuid cloneCtransid clonePath cloneOffset =>
    [(.path, path.1), (.fileOffset, u64Bytes offset), (.cloneLen, u64Bytes len),
      (.cloneUuid, cloneUuid.1), (.cloneCtransid, u64Bytes cloneCtransid),
      (.clonePath, clonePath.1), (.cloneOffset, u64Bytes cloneOffset)]
  | .setXattr path name data => [(.path, path.1), (.xattrName, name.1), (.xattrData, data)]
  | .removeXattr path name => [(.path, path.1), (.xattrName, name.1)]
  | .truncate path size => [(.path, path.1), (.size, u64Bytes size)]
  | .chmod path mode => [(.path, path.1), (.mode, u64Bytes mode)]
  | .chown path uid gid => [(.path, path.1), (.uid, u64Bytes uid), (.gid, u64Bytes gid)]
  | .utimes path at_ mt ct =>
    [(.path, path.1), (.atime, timespecBytes at_), (.mtime, timespecBytes mt),
      (.ctime, timespecBytes ct)]
  | .updateExtent path offset len =>
    [(.path, path.1), (.fileOffset, u64Bytes offset), (.size, u64Bytes len)]

def tlvBytes (attr : SendAttr × List Byte) : List Byte :=
  leBytes 2 attr.1.code ++ (leBytes 2 attr.2.length ++ attr.2)

def headerBytes (cmd : SendCmd) (len crc : ℕ) : List Byte :=
  leBytes 4 len ++ (leBytes 2 cmd.code ++ leBytes 4 crc)

/-- A command with its header; the checksum is that of the command with a zero in its place. -/
def cmdBytes (cmd : SendCmd) (body : List Byte) : List Byte :=
  headerBytes cmd body.length
    (Crc.register castagnoli 0 (headerBytes cmd body.length 0 ++ body)).toNat ++ body

/-- The bytes of a command whose attributes come in some order. -/
inductive EncodesCmd (op : SendOp) : List Byte → Prop where
  | intro (attrs : List (SendAttr × List Byte)) (hperm : attrs.Perm op.attrs)
      (hlen : (attrs.flatMap tlvBytes).length + cmdHeaderSize < BTRFS_SEND_BUF_SIZE) :
      EncodesCmd op (cmdBytes op.cmd (attrs.flatMap tlvBytes))

inductive EncodesCmds : List SendOp → List Byte → Prop where
  | done : EncodesCmds [] (cmdBytes .done [])
  | cons {op : SendOp} {ops : List SendOp} {bytes rest : List Byte} (hop : EncodesCmd op bytes)
      (hops : EncodesCmds ops rest) : EncodesCmds (op :: ops) (bytes ++ rest)

def Encodes (ops : List SendOp) (bytes : List Byte) : Prop :=
  ∃ body, EncodesCmds ops body ∧
    bytes = BTRFS_SEND_STREAM_MAGIC ++ leBytes 4 BTRFS_SEND_STREAM_VERSION ++ body

@[simp] theorem length_tlvBytes (attr : SendAttr × List Byte) :
    (tlvBytes attr).length = tlvHeaderSize + attr.2.length := by
  simp only [tlvBytes, List.length_append, length_leBytes, tlvHeaderSize]
  omega

@[simp] theorem length_headerBytes (cmd : SendCmd) (len crc : ℕ) :
    (headerBytes cmd len crc).length = cmdHeaderSize := by
  simp [headerBytes, cmdHeaderSize]

theorem SendCmd.getElem?_code (cmd : SendCmd) : sendCmds[cmd.code]? = some cmd := by
  cases cmd <;> rfl

theorem SendCmd.code_lt (cmd : SendCmd) : cmd.code < 256 ^ 2 := by cases cmd <;> decide

theorem SendAttr.code_le (attr : SendAttr) : attr.code ≤ BTRFS_SEND_A_MAX := by
  cases attr <;> decide

theorem SendAttr.code_injective : Function.Injective SendAttr.code := by
  intro a b h
  have hget : ∀ attr : SendAttr, sendAttrs[attr.code]? = some attr := by
    intro attr
    cases attr <;> rfl
  have hs := hget a
  rw [h, hget b] at hs
  exact (Option.some.inj hs).symm

theorem SendOp.attrs_nodup (op : SendOp) :
    (op.attrs.map Prod.fst).Nodup ∧ .unspec ∉ op.attrs.map Prod.fst := by
  cases op <;> simp [SendOp.attrs]

/-! # Reading into the buffer -/

/-! ## Contents of a buffer -/

def Holds (buf : ℕ → Byte) (offset : ℕ) (bytes : List Byte) : Prop :=
  load buf offset bytes.length = bytes

theorem load_append (buf : ℕ → Byte) (offset m n : ℕ) :
    load buf offset (m + n) = load buf offset m ++ load buf (offset + m) n := by
  rw [load, List.range_add, List.map_append, List.map_map]
  simp only [load, Function.comp_def, Nat.add_assoc]

@[simp] theorem length_load (buf : ℕ → Byte) (offset len : ℕ) : (load buf offset len).length = len := by
  simp [load]

theorem holds_append {buf : ℕ → Byte} {offset : ℕ} {xs ys : List Byte} :
    Holds buf offset (xs ++ ys) ↔ Holds buf offset xs ∧ Holds buf (offset + xs.length) ys := by
  rw [Holds, List.length_append, load_append]
  constructor
  · intro h
    exact ⟨List.append_inj_left h (by simp), List.append_inj_right h (by simp)⟩
  · rintro ⟨hx, hy⟩
    rw [hx, hy]

variable {buf : ℕ → Byte} {offset len : ℕ}

theorem load_congr {buf' : ℕ → Byte} (h : ∀ i, offset ≤ i → i < offset + len → buf i = buf' i) :
    load buf offset len = load buf' offset len := by
  refine List.map_congr_left fun i hi => h _ (Nat.le_add_right _ _) ?_
  have := List.mem_range.mp hi
  omega

theorem holds_store (buf : ℕ → Byte) (offset : ℕ) (bytes : List Byte) :
    Holds (store buf offset bytes) offset bytes := by
  refine List.ext_getElem (by simp) fun i hi hi' => ?_
  simp [load, store, hi']

theorem Holds.store_of_disjoint {offset' : ℕ} {bytes bytes' : List Byte}
    (h : Holds buf offset bytes)
    (hdisjoint : offset + bytes.length ≤ offset' ∨ offset' + bytes'.length ≤ offset) :
    Holds (store buf offset' bytes') offset bytes := by
  refine (load_congr fun i hlo hhi => ?_).trans h
  unfold store
  split
  · rw [List.getElem?_eq_none (by omega), Option.getD_none]
  · rfl

/-! ## `read_buf` -/

theorem readBufLoop_spec (chunk : ℕ → ℕ) (n : ℕ) (fd : Fd) (got rest : List Byte)
    {suffix : List Byte} (hr : fd.rest = rest ++ suffix) (hlen : got.length + rest.length = len)
    (hn : rest.length < n) :
    ∃ turn, readBufLoop (readFd chunk) len n fd got = .ok (0, got ++ rest, ⟨suffix, turn⟩) := by
  induction n generalizing fd got rest with
  | zero => omega
  | succ n ih =>
    cases rest with
    | nil =>
      refine ⟨fd.turn, ?_⟩
      have hd : ¬ got.length < len := by
        rw [List.length_nil] at hlen
        omega
      rw [readBufLoop, if_neg hd, List.append_nil]
      rw [List.nil_append] at hr
      rw [← hr]
    | cons b rest =>
      -- at least one byte is handed over, and at most what is asked for
      have hask : len - got.length = (b :: rest).length := by omega
      generalize hcount : min (len - got.length) (max 1 (chunk fd.turn)) = k
      have hk : 0 < k := by
        rw [← hcount, hask, List.length_cons]
        omega
      have hle : k ≤ (b :: rest).length := by
        rw [← hcount, hask]
        exact min_le_left _ _
      have ht : fd.rest.take k = (b :: rest).take k := by rw [hr, List.take_append_of_le_length hle]
      have hdr : fd.rest.drop k = (b :: rest).drop k ++ suffix := by
        rw [hr, List.drop_append_of_le_length hle]
      have hne : ((b :: rest).take k).isEmpty = false := by
        obtain ⟨k, rfl⟩ := Nat.exists_eq_succ_of_ne_zero hk.ne'
        rfl
      obtain ⟨turn, hl⟩ := ih ⟨fd.rest.drop k, fd.turn + 1⟩ (got ++ (b :: rest).take k)
        ((b :: rest).drop k) hdr
        (by rw [List.length_append, List.length_take, List.length_drop]; omega)
        (by rw [List.length_drop]; omega)
      refine ⟨turn, ?_⟩
      have hm : got.length < len := by
        rw [List.length_cons] at hlen
        omega
      have hre : (readFd chunk).read fd (len - got.length) =
          (.ok ((b :: rest).take k), ⟨fd.rest.drop k, fd.turn + 1⟩) := by
        rw [← ht, ← hcount]
        rfl
      simp only [readBufLoop, hm, if_true, hre, hne, Bool.false_eq_true, if_false, hl,
        List.append_assoc, List.take_append_drop]

theorem readBuf_spec (chunk : ℕ → ℕ) (sctx : Stream Fd) {bytes suffix : List Byte}
    (hr : sctx.fd.rest = bytes ++ suffix) :
    ∃ sctx', readBuf (readFd chunk) sctx bytes.length = .ok (0, bytes, sctx') ∧ sctx'.fd.rest = suffix ∧
      sctx'.readBuf = sctx.readBuf := by
  obtain ⟨turn, hl⟩ := readBufLoop_spec chunk (bytes.length + 1) sctx.fd [] bytes hr
    (Nat.zero_add _) (Nat.lt_succ_self _)
  refine ⟨{ sctx with fd := ⟨suffix, turn⟩, streamPos := sctx.streamPos + bytes.length }, ?_, rfl, rfl⟩
  have hf : ¬ (0 < bytes.length ∧ bytes.length < bytes.length) := fun h => Nat.lt_irrefl _ h.2
  simp only [readBuf, hl, List.nil_append, bind, Except.bind, hf]
  rfl

/-! ## `read_cmd` finds the attributes of a command -/

variable {σ : Type}

/-! ## Attributes -/

def Fetched (sctx : Stream σ) (attr : SendAttr × List Byte) : Prop :=
  attr.1 ≠ .unspec ∧ ∃ hdr, sctx.cmdAttrs attr.1.code = some hdr ∧
    Holds sctx.readBuf hdr (tlvBytes attr) ∧
    hdr + (tlvHeaderSize + attr.2.length) ≤ BTRFS_SEND_BUF_SIZE

theorem SendAttr.code_eq_zero {attr : SendAttr} (h : attr.code = 0) : attr = .unspec :=
  SendAttr.code_injective h

variable {buf : ℕ → Byte} {cmd : SendCmd} {crc : ℕ} {sctx : Stream σ} {body : List Byte}

theorem Holds.tlv {hdr : ℕ} {attr : SendAttr × List Byte} (h : Holds buf hdr (tlvBytes attr))
    (hlen : attr.2.length < BTRFS_SEND_BUF_SIZE) :
    leNat (load buf hdr 2) = attr.1.code ∧ leNat (load buf (hdr + 2) 2) = attr.2.length ∧
      Holds buf (hdr + tlvHeaderSize) attr.2 := by
  obtain ⟨ht, hr⟩ := holds_append.mp h
  obtain ⟨hlength, hd⟩ := holds_append.mp hr
  rw [Holds, length_leBytes] at ht hlength
  rw [length_leBytes] at hlength hd
  have hcode : attr.1.code < 256 ^ 2 := attr.1.code_le.trans_lt (by decide)
  refine ⟨?_, ?_, ?_⟩
  · rw [ht, leNat_leBytes hcode]
  · rw [hlength, leNat_leBytes hlen]
  · rwa [length_leBytes] at hd

theorem Holds.header {len : ℕ} (h : Holds buf 0 (headerBytes cmd len crc)) :
    Holds buf 0 (leBytes 4 len) ∧ Holds buf 4 (leBytes 2 cmd.code) ∧ Holds buf 6 (leBytes 4 crc) := by
  obtain ⟨hlen, h⟩ := holds_append.mp h
  obtain ⟨hcmd, hcrc⟩ := holds_append.mp h
  exact ⟨hlen, hcmd, hcrc⟩

/-- What the loop over the attributes leaves behind. -/
structure Parsed (sctx sctx' : Stream σ) (attrs : List (SendAttr × List Byte)) : Prop where
  same : sctx' = { sctx with cmdAttrs := sctx'.cmdAttrs }
  fetched : ∀ attr ∈ attrs, Fetched sctx' attr
  others : ∀ code, (∀ attr ∈ attrs, attr.1.code ≠ code) → sctx'.cmdAttrs code = sctx.cmdAttrs code

theorem tlvLoop_spec {cmdLen : ℕ} (hcmdLen : cmdLen + cmdHeaderSize < BTRFS_SEND_BUF_SIZE)
    (attrs : List (SendAttr × List Byte)) (n pos : ℕ) (sctx : Stream σ)
    (hnd : (attrs.map Prod.fst).Nodup) (huns : .unspec ∉ attrs.map Prod.fst)
    (hholds : Holds sctx.readBuf (cmdHeaderSize + pos) (attrs.flatMap tlvBytes))
    (hpos : pos + (attrs.flatMap tlvBytes).length = cmdLen) (hn : attrs.length < n) :
    ∃ sctx', tlvLoop cmdLen n pos sctx = .ok (0, sctx') ∧ Parsed sctx sctx' attrs := by
  induction attrs generalizing n pos sctx with
  | nil =>
    obtain ⟨n, rfl⟩ := Nat.exists_eq_succ_of_ne_zero (Nat.ne_of_gt hn)
    have hd : ¬ pos < cmdLen := by
      rw [← hpos]
      exact Nat.lt_irrefl _
    exact ⟨sctx, if_neg hd, rfl, List.forall_mem_nil _, fun _ _ => rfl⟩
  | cons attr attrs ih =>
    obtain ⟨n, rfl⟩ := Nat.exists_eq_succ_of_ne_zero (Nat.ne_of_gt (Nat.zero_lt_of_lt hn))
    rw [List.flatMap_cons, List.length_append, length_tlvBytes] at hpos
    rw [List.flatMap_cons] at hholds
    obtain ⟨hattr, hr⟩ := holds_append.mp hholds
    rw [length_tlvBytes, Nat.add_assoc] at hr
    obtain ⟨hnew, hnd⟩ := List.nodup_cons.mp hnd
    have hf : cmdHeaderSize + pos + (tlvHeaderSize + attr.2.length) ≤ BTRFS_SEND_BUF_SIZE := by
      omega
    have hda : attr.2.length < BTRFS_SEND_BUF_SIZE := by omega
    obtain ⟨ht, hlen, -⟩ := hattr.tlv hda
    have hm : pos < cmdLen := by
      have : 0 < tlvHeaderSize := by decide
      omega
    have hheader : ¬ BTRFS_SEND_BUF_SIZE < cmdHeaderSize + pos + tlvHeaderSize := by omega
    have hval : ¬ (attr.1.code = 0 ∨ BTRFS_SEND_A_MAX < attr.1.code ∨
        BTRFS_SEND_BUF_SIZE < attr.2.length) := by
      rintro (hz | hmax | hlong)
      · exact huns (List.mem_cons.mpr (.inl (SendAttr.code_eq_zero hz).symm))
      · exact absurd attr.1.code_le (not_le.mpr hmax)
      · omega
    have hn' : attrs.length < n := Nat.lt_of_succ_lt_succ hn
    obtain ⟨sctx', hl, hparsed⟩ := ih n (pos + (tlvHeaderSize + attr.2.length)) { sctx with
        cmdAttrs := Function.update sctx.cmdAttrs attr.1.code (some (cmdHeaderSize + pos)) }
      hnd (fun h => huns (List.mem_cons_of_mem _ h)) hr (by omega) hn'
    refine ⟨sctx', ?_, hparsed.same, ?_, ?_⟩
    · simp only [tlvLoop, hm, hheader, ht, hlen, hval]
      exact hl
    · intro a ha
      obtain rfl | ha := List.mem_cons.mp ha
      · -- no later attribute has the same number
        have hk := hparsed.others a.1.code fun b hb heq =>
          hnew (List.mem_map.mpr ⟨b, hb, SendAttr.code_injective heq⟩)
        refine ⟨fun h => huns (List.mem_cons.mpr (.inl h.symm)), cmdHeaderSize + pos, ?_, ?_, hf⟩
        · rw [hk]
          exact Function.update_self ..
        · rw [hparsed.same]
          exact hattr
      · exact hparsed.fetched a ha
    · intro code hcode
      rw [hparsed.others code (List.forall_mem_cons.mp hcode).2]
      exact Function.update_of_ne (hcode attr List.mem_cons_self).symm _ _

theorem length_le_flatMap_tlvBytes (attrs : List (SendAttr × List Byte)) :
    attrs.length ≤ (attrs.flatMap tlvBytes).length := by
  induction attrs with
  | nil => exact Nat.le_refl _
  | cons attr attrs ih =>
    rw [List.flatMap_cons, List.length_append, length_tlvBytes, List.length_cons, tlvHeaderSize]
    omega

/-! ## Whole commands -/

theorem checkCmd_eq (hholds : Holds sctx.readBuf 0 (cmdBytes cmd body)) :
    ∃ buf, Holds buf cmdHeaderSize body ∧ checkCmd sctx cmd.code body.length =
        match tlvLoop body.length (body.length + 1) 0 { sctx with readBuf := buf } with
        | .error fault => .error fault
        | .ok (ret, sctx) => .ok (ret, if ret = 0 then { sctx with cmd := cmd.code } else sctx) := by
  obtain ⟨hheader, hbodyAt⟩ := holds_append.mp hholds
  rw [length_headerBytes] at hbodyAt
  obtain ⟨hlenAt, hcmdAt, hcrcAt⟩ := hheader.header
  generalize hcrc : Crc.register castagnoli 0 (headerBytes cmd body.length 0 ++ body) = crc at hcrcAt
  -- with the checksum cleared, the buffer holds what the checksum was taken of
  have hcleared : Holds (store sctx.readBuf 6 (List.replicate 4 0)) 0
      (headerBytes cmd body.length 0 ++ body) := by
    refine holds_append.mpr ⟨holds_append.mpr ⟨hlenAt.store_of_disjoint (.inl ?_),
      holds_append.mpr ⟨hcmdAt.store_of_disjoint (.inl ?_), holds_store ..⟩⟩,
      hbodyAt.store_of_disjoint (.inr ?_)⟩
    · simp
    · simp
    · simp [cmdHeaderSize]
  have hsum : crc32c 0 (load (store sctx.readBuf 6 (List.replicate 4 0)) 0
      (cmdHeaderSize + body.length)) = crc := by
    rw [← length_headerBytes cmd body.length 0, ← List.length_append, hcleared, crc32c_eq, hcrc]
  have hstored : leNat (load sctx.readBuf 6 4) = crc.toNat := by
    rw [Holds, length_leBytes] at hcrcAt
    rw [hcrcAt, leNat_leBytes crc.isLt]
  refine ⟨store sctx.readBuf 6 (List.replicate 4 0), ?_, ?_⟩
  · have hat := (holds_append.mp hcleared).2
    rwa [length_headerBytes] at hat
  · have hcrcOk : ¬ leNat (load sctx.readBuf 6 4) ≠ (crc32c 0 (load (store sctx.readBuf 6
        (List.replicate 4 0)) 0 (cmdHeaderSize + body.length))).toNat := by
      rw [hsum, hstored]
      exact not_not.mpr rfl
    exact if_neg hcrcOk

theorem checkCmd_spec {attrs : List (SendAttr × List Byte)}
    (hlen : (attrs.flatMap tlvBytes).length + cmdHeaderSize < BTRFS_SEND_BUF_SIZE)
    (hnd : (attrs.map Prod.fst).Nodup) (huns : .unspec ∉ attrs.map Prod.fst)
    (hholds : Holds sctx.readBuf 0 (cmdBytes cmd (attrs.flatMap tlvBytes))) :
    ∃ sctx', checkCmd sctx cmd.code (attrs.flatMap tlvBytes).length = .ok (0, sctx') ∧
      sctx'.fd = sctx.fd ∧ sctx'.cmd = cmd.code ∧ ∀ attr ∈ attrs, Fetched sctx' attr := by
  obtain ⟨buf, hbody, hcheck⟩ := checkCmd_eq hholds
  have hcount : attrs.length < (attrs.flatMap tlvBytes).length + 1 :=
    Nat.lt_succ_of_le (length_le_flatMap_tlvBytes attrs)
  obtain ⟨sctx', hl, hparsed⟩ := tlvLoop_spec hlen attrs _ 0 { sctx with readBuf := buf } hnd
    huns hbody (Nat.zero_add _) hcount
  refine ⟨{ sctx' with cmd := cmd.code }, ?_, ?_, rfl, hparsed.fetched⟩
  · rw [hcheck, hl]
    rfl
  · rw [hparsed.same]

theorem readCmdBody_spec (chunk : ℕ → ℕ) (sctx : Stream Fd) {suffix : List Byte}
    (hlen : body.length + cmdHeaderSize < BTRFS_SEND_BUF_SIZE)
    (hheader : Holds sctx.readBuf 0 (headerBytes cmd body.length crc))
    (hr : sctx.fd.rest = body ++ suffix) :
    ∃ sctx', readCmdBody (readFd chunk) sctx = checkCmd sctx' cmd.code body.length ∧
      sctx'.fd.rest = suffix ∧ Holds sctx'.readBuf 0 (headerBytes cmd body.length crc ++ body) := by
  obtain ⟨hlenAt, hcmdAt, -⟩ := hheader.header
  rw [Holds, length_leBytes] at hlenAt hcmdAt
  have hcmdLen : leNat (load sctx.readBuf 0 4) = body.length := by
    have hsmall : BTRFS_SEND_BUF_SIZE < 256 ^ 4 := by decide
    rw [hlenAt, leNat_leBytes (by omega)]
  have hcmd : leNat (load sctx.readBuf 4 2) = cmd.code := by rw [hcmdAt, leNat_leBytes cmd.code_lt]
  obtain ⟨sctx', hre, hfd, hbuf⟩ := readBuf_spec chunk sctx hr
  refine ⟨{ sctx' with readBuf := store sctx'.readBuf cmdHeaderSize body }, ?_, hfd, ?_⟩
  · simp only [readCmdBody, hcmdLen, hcmd, not_le.mpr hlen, if_false, hre, bind, Except.bind,
      Int.lt_irrefl, ne_eq, not_true_eq_false]
  · rw [← hbuf] at hheader
    refine holds_append.mpr ⟨hheader.store_of_disjoint (.inl ?_), ?_⟩
    · simp
    · exact holds_store ..

theorem readCmd_eq (chunk : ℕ → ℕ) {sctx : Stream Fd} {cmd : SendCmd} {body suffix : List Byte}
    (hlen : body.length + cmdHeaderSize < BTRFS_SEND_BUF_SIZE)
    (hr : sctx.fd.rest = cmdBytes cmd body ++ suffix) :
    ∃ sctx', readCmd (readFd chunk) sctx = checkCmd sctx' cmd.code body.length ∧
      sctx'.fd.rest = suffix ∧ Holds sctx'.readBuf 0 (cmdBytes cmd body) := by
  rw [cmdBytes, List.append_assoc] at hr
  obtain ⟨sctx₁, hre, hfd, -⟩ := readBuf_spec chunk { sctx with cmdAttrs := fun _ => none } hr
  rw [length_headerBytes] at hre
  obtain ⟨sctx₂, hbody, hfd₂, hholds⟩ := readCmdBody_spec chunk
    { sctx₁ with readBuf := store sctx₁.readBuf 0 _ } hlen (holds_store sctx₁.readBuf 0 _) hfd
  refine ⟨sctx₂, ?_, hfd₂, hholds⟩
  simp only [readCmd, hre, bind, Except.bind, Int.lt_irrefl, ne_eq, not_true_eq_false, if_false]
  exact hbody

theorem readCmd_spec (chunk : ℕ → ℕ) {sctx : Stream Fd} {cmd : SendCmd}
    {attrs : List (SendAttr × List Byte)} {suffix : List Byte}
    (hlen : (attrs.flatMap tlvBytes).length + cmdHeaderSize < BTRFS_SEND_BUF_SIZE)
    (hnd : (attrs.map Prod.fst).Nodup) (huns : .unspec ∉ attrs.map Prod.fst)
    (hr : sctx.fd.rest = cmdBytes cmd (attrs.flatMap tlvBytes) ++ suffix) :
    ∃ sctx', readCmd (readFd chunk) sctx = .ok (0, sctx') ∧ sctx'.fd.rest = suffix ∧
      sctx'.cmd = cmd.code ∧ ∀ attr ∈ attrs, Fetched sctx' attr := by
  obtain ⟨sctx₁, hre, hfd, hholds⟩ := readCmd_eq chunk hlen hr
  obtain ⟨sctx', hcheck, hfd', hcmd, hattrs⟩ := checkCmd_spec hlen hnd huns hholds
  exact ⟨sctx', hre.trans hcheck, by rw [hfd', hfd], hcmd, hattrs⟩

end Btrfs.SendStream
