import Btrfs.Verification.SendStream.Commands
import Btrfs.Verification.Shared.Calls

/-! # Where the attributes of a command lie in the buffer -/

namespace Btrfs.SendStream

open Raid56 Crc32c

variable {σ : Type}

/-! ## What a successful read has read -/

theorem readFd_read (chunk : ℕ → ℕ) (fd : Fd) (len : ℕ) : (readFd chunk).read fd len =
      (.ok (fd.rest.take (min len (max 1 (chunk fd.turn)))),
        ⟨fd.rest.drop (min len (max 1 (chunk fd.turn))), fd.turn + 1⟩) := rfl

variable {len n cmdLen : ℕ} {sctx : Stream σ} {sctx' : Stream Fd}

theorem readBufLoop_ok (chunk : ℕ → ℕ) {fd fd' : Fd} {got got' : List Byte}
    (h : readBufLoop (readFd chunk) len n fd got = .ok (0, got', fd')) (hgot : got.length ≤ len) :
    ∃ bytes, got' = got ++ bytes ∧ fd.rest = bytes ++ fd'.rest ∧ got'.length = len := by
  induction n generalizing fd got with
  | zero => cases h
  | succ n ih =>
    rw [readBufLoop, readFd_read] at h
    by_cases hm : got.length < len
    · generalize hcount : min (len - got.length) (max 1 (chunk fd.turn)) = k at h
      simp only at h
      split_ifs at h with hend
      · cases h
      · have hlen : (got ++ fd.rest.take k).length ≤ len := by
          rw [List.length_append, List.length_take]
          omega
        obtain ⟨bytes, hbytes, hr, hf⟩ := ih h hlen
        refine ⟨fd.rest.take k ++ bytes, ?_, ?_, hf⟩
        · rw [hbytes, List.append_assoc]
        · rw [List.append_assoc, ← hr, List.take_append_drop]
    · rw [if_neg hm] at h
      cases h
      exact ⟨[], (List.append_nil _).symm, rfl, by omega⟩

theorem readBuf_ok (chunk : ℕ → ℕ) {sctx : Stream Fd} {bytes : List Byte}
    (h : readBuf (readFd chunk) sctx len = .ok (0, bytes, sctx')) :
    bytes.length = len ∧ sctx.fd.rest = bytes ++ sctx'.fd.rest ∧ sctx'.cmdAttrs = sctx.cmdAttrs := by
  obtain ⟨⟨ret, got, fd⟩, hl, h⟩ := bind_eq_ok.mp h
  simp only at h
  split_ifs at h with hneg hsh
  · cases h
    exact absurd hneg (Int.lt_irrefl 0)
  · cases h
  · cases h
    obtain ⟨bytes', hbytes', hr, hf⟩ := readBufLoop_ok chunk hl (Nat.zero_le _)
    exact ⟨hf, hbytes' ▸ hr, rfl⟩

theorem checkCmd_ok {sctx' : Stream σ} {cmd : ℕ} (h : checkCmd sctx cmd cmdLen = .ok (0, sctx')) :
    ∃ sctx₂, tlvLoop cmdLen (cmdLen + 1) 0
        { sctx with readBuf := store sctx.readBuf 6 (List.replicate 4 0) } = .ok (0, sctx₂) ∧
      sctx' = { sctx₂ with cmd := cmd } := by
  unfold checkCmd at h
  simp only at h
  split_ifs at h with hcrc
  · cases h
  · match hl : tlvLoop cmdLen (cmdLen + 1) 0
        { sctx with readBuf := store sctx.readBuf 6 (List.replicate 4 0) } with
    | .error _ =>
      rw [hl] at h
      cases h
    | .ok (ret, sctx₂) =>
      simp only [hl] at h
      obtain ⟨hret, hs⟩ := Prod.mk.inj (Except.ok.inj h)
      subst hret
      exact ⟨sctx₂, rfl, hs.symm⟩

/-- A command whose attributes are found: its header, its payload, and the stream that the loop
over the attributes starts with. -/
structure ReadsCmd (bytes hdr payload : List Byte) (sctx sctx' : Stream Fd) : Prop where
  bytes_eq : ∃ suffix, bytes = hdr ++ (payload ++ suffix)
  length_hdr : hdr.length = cmdHeaderSize
  length_payload : payload.length = leNat (hdr.take 4)
  short : payload.length + cmdHeaderSize < BTRFS_SEND_BUF_SIZE
  holds : Holds sctx.readBuf cmdHeaderSize payload
  no_attrs : ∀ code, sctx.cmdAttrs code = none
  loop : ∃ sctx₂, tlvLoop payload.length (payload.length + 1) 0 sctx = .ok (0, sctx₂) ∧
    sctx' = { sctx₂ with cmd := sctx'.cmd }

theorem readCmdBody_ok (chunk : ℕ → ℕ) {sctx sctx' : Stream Fd} {hdr : List Byte}
    (hheader : Holds sctx.readBuf 0 hdr) (hlen : hdr.length = cmdHeaderSize)
    (hattrs : ∀ code, sctx.cmdAttrs code = none)
    (h : readCmdBody (readFd chunk) sctx = .ok (0, sctx')) :
    ∃ payload sctx₁, ReadsCmd (hdr ++ sctx.fd.rest) hdr payload sctx₁ sctx' := by
  have hfield : leNat (load sctx.readBuf 0 4) = leNat (hdr.take 4) := by
    rw [Holds, hlen, show cmdHeaderSize = 4 + 6 from rfl, load_append] at hheader
    rw [← hheader, List.take_left' (length_load ..)]
  unfold readCmdBody at h
  rw [hfield] at h
  simp only at h
  split_ifs at h with hlong
  · cases h
  · obtain ⟨⟨ret, payload, sctx₁⟩, hbody, h⟩ := bind_eq_ok.mp h
    split_ifs at h with hneg hnonzero
    · cases h
      exact absurd hneg (Int.lt_irrefl 0)
    · cases h
    · obtain rfl : ret = 0 := not_not.mp hnonzero
      obtain ⟨hpayload, hr, hs⟩ := readBuf_ok chunk hbody
      obtain ⟨sctx₂, hl, hcmd⟩ := checkCmd_ok h
      rw [← hpayload] at hl hlong
      refine ⟨payload, _, ⟨_, by rw [hr]⟩, hlen, hpayload, not_le.mp hlong, ?_, ?_, sctx₂, hl, ?_⟩
      · refine (holds_store sctx₁.readBuf cmdHeaderSize payload).store_of_disjoint (.inr ?_)
        simp [cmdHeaderSize]
      · intro code
        rw [← hattrs code, ← hs]
      · rw [hcmd]

theorem readCmd_ok (chunk : ℕ → ℕ) {sctx : Stream Fd}
    (h : readCmd (readFd chunk) sctx = .ok (0, sctx')) :
    ∃ hdr payload sctx₁, ReadsCmd sctx.fd.rest hdr payload sctx₁ sctx' := by
  obtain ⟨⟨ret, hdr, sctx₁⟩, hre, h⟩ := bind_eq_ok.mp h
  simp only at h
  split_ifs at h with hneg hnonzero
  · cases h
    exact absurd hneg (Int.lt_irrefl 0)
  · cases h
  · obtain rfl : ret = 0 := not_not.mp hnonzero
    obtain ⟨hlen, hr, hs⟩ := readBuf_ok chunk hre
    have hattrs : ∀ code, sctx₁.cmdAttrs code = none := fun code => by rw [hs]
    obtain ⟨payload, sctx₂, hcmd⟩ := @readCmdBody_ok chunk
      { sctx₁ with readBuf := store sctx₁.readBuf 0 hdr } sctx' hdr
      (holds_store sctx₁.readBuf 0 hdr) hlen hattrs h
    rw [hr]
    exact ⟨hdr, payload, sctx₂, hcmd⟩

/-! ## The attributes -/

theorem SendAttr.exists_code {code : ℕ} (h : code ≤ BTRFS_SEND_A_MAX) :
    ∃ attr : SendAttr, attr.code = code := by
  have hall : ∀ code : Fin 25, (sendAttrs.get code).code = code := by decide
  exact ⟨_, hall ⟨code, Nat.lt_succ_of_le h⟩⟩

/-- The attribute at `hdr` lies in the payload of the command with its header and data. -/
def InPayload (sctx : Stream σ) (cmdLen hdr : ℕ) : Prop :=
  cmdHeaderSize ≤ hdr ∧
    hdr + tlvHeaderSize + leNat (load sctx.readBuf (hdr + 2) 2) ≤ cmdHeaderSize + cmdLen

def WholeTlvs (bytes : List Byte) : Prop :=
  ∃ attrs : List (SendAttr × List Byte), bytes = attrs.flatMap tlvBytes

theorem load_eq_leBytes (buf : ℕ → Byte) (offset len : ℕ) :
    leBytes len (leNat (load buf offset len)) = load buf offset len := by
  have h := leBytes_leNat (load buf offset len)
  rwa [length_load] at h

theorem wholeTlvs_load_iff {buf : ℕ → Byte} {hdr len : ℕ} {attr : SendAttr}
    (ht : leNat (load buf hdr 2) = attr.code) (hpos : 0 < len)
    (hlen : len < BTRFS_SEND_BUF_SIZE) :
    WholeTlvs (load buf hdr len) ↔ tlvHeaderSize + leNat (load buf (hdr + 2) 2) ≤ len ∧
        WholeTlvs (load buf (hdr + (tlvHeaderSize + leNat (load buf (hdr + 2) 2)))
          (len - (tlvHeaderSize + leNat (load buf (hdr + 2) 2)))) := by
  constructor
  · rintro ⟨attrs, hattrs⟩
    cases attrs with
    | nil =>
      have := congrArg List.length hattrs
      simp at this
      omega
    | cons first attrs =>
      rw [List.flatMap_cons] at hattrs
      have hlength := congrArg List.length hattrs
      rw [length_load, List.length_append, length_tlvBytes] at hlength
      have hholds : Holds buf hdr (tlvBytes first ++ attrs.flatMap tlvBytes) := by
        rw [Holds, List.length_append, length_tlvBytes, ← hlength]
        exact hattrs
      obtain ⟨hfirst, hr⟩ := holds_append.mp hholds
      obtain ⟨-, htlvLen, -⟩ := hfirst.tlv (by omega)
      rw [htlvLen]
      refine ⟨by omega, attrs, ?_⟩
      rw [length_tlvBytes] at hr
      rw [← hr]
      congr 1
      omega
  · rintro ⟨hle, attrs, hattrs⟩
    obtain ⟨rest, hsplit⟩ := Nat.exists_eq_add_of_le hle
    refine ⟨(attr, load buf (hdr + tlvHeaderSize) (leNat (load buf (hdr + 2) 2))) :: attrs, ?_⟩
    rw [List.flatMap_cons, ← hattrs, tlvBytes, length_load, ← ht, load_eq_leBytes,
      load_eq_leBytes, hsplit, Nat.add_sub_cancel_left, load_append, load_append,
      show tlvHeaderSize = 2 + 2 from rfl, load_append]
    simp only [List.append_assoc]

/-- The loop over the attributes from `pos` on: what it adds lies in the payload if the payload
goes on with whole attributes, and otherwise the last one sticks out. -/
theorem tlvLoop_ok {pos : ℕ} {sctx' : Stream σ} (hpos : pos ≤ cmdLen)
    (hlen : cmdLen + cmdHeaderSize < BTRFS_SEND_BUF_SIZE)
    (h : tlvLoop cmdLen n pos sctx = .ok (0, sctx')) :
    sctx'.readBuf = sctx.readBuf ∧
      (WholeTlvs (load sctx.readBuf (cmdHeaderSize + pos) (cmdLen - pos)) ∧
          (∀ code hdr, sctx'.cmdAttrs code = some hdr →
            sctx.cmdAttrs code = some hdr ∨ InPayload sctx cmdLen hdr) ∨
        ¬ WholeTlvs (load sctx.readBuf (cmdHeaderSize + pos) (cmdLen - pos)) ∧
          ∃ code hdr, sctx'.cmdAttrs code = some hdr ∧ ¬ InPayload sctx cmdLen hdr) := by
  induction n generalizing pos sctx with
  | zero => cases h
  | succ n ih =>
    rw [tlvLoop] at h
    by_cases hm : pos < cmdLen
    · simp only at h
      split_ifs at h with hbug hinvalid
      · cases h
      · simp only [not_or, not_lt] at hinvalid
        obtain ⟨hnonzero, hmax, -⟩ := hinvalid
        obtain ⟨attr, hattr⟩ := SendAttr.exists_code hmax
        have hiff := @wholeTlvs_load_iff sctx.readBuf (cmdHeaderSize + pos) (cmdLen - pos) attr
          hattr.symm (by omega) (by omega)
        obtain ⟨tlvLen, htlvLen⟩ : ∃ tlvLen,
          tlvLen = leNat (load sctx.readBuf (cmdHeaderSize + pos + 2) 2) := ⟨_, rfl⟩
        rw [← htlvLen] at h hiff
        by_cases hf : pos + (tlvHeaderSize + tlvLen) ≤ cmdLen
        · obtain ⟨hbuf, hsp⟩ := ih hf h
          refine ⟨hbuf, ?_⟩
          have hn : WholeTlvs (load sctx.readBuf (cmdHeaderSize + pos) (cmdLen - pos)) ↔
              WholeTlvs (load sctx.readBuf (cmdHeaderSize + (pos + (tlvHeaderSize + tlvLen)))
                (cmdLen - (pos + (tlvHeaderSize + tlvLen)))) := by
            rw [← Nat.sub_sub, ← Nat.add_assoc cmdHeaderSize pos, hiff]
            have hle : tlvHeaderSize + tlvLen ≤ cmdLen - pos := by omega
            exact and_iff_right hle
          rw [hn]
          rcases hsp with ⟨hwhole, hin⟩ | ⟨hnot, hout⟩
          · refine .inl ⟨hwhole, ?_⟩
            intro code hdr hcode
            rcases hin code hdr hcode with hold | hin
            · simp only at hold
              by_cases hs : code = leNat (load sctx.readBuf (cmdHeaderSize + pos) 2)
              · rw [hs, Function.update_self] at hold
                obtain rfl := Option.some.inj hold
                exact .inr ⟨Nat.le_add_right _ _, by omega⟩
              · rw [Function.update_of_ne hs] at hold
                exact .inl hold
            · exact .inr hin
          · exact .inr ⟨hnot, hout⟩
        · -- the next round ends the loop
          have hend : ∃ m, n = m + 1 := by
            cases n with
            | zero => cases h
            | succ m => exact ⟨m, rfl⟩
          obtain ⟨m, rfl⟩ := hend
          rw [tlvLoop, if_neg (by omega)] at h
          obtain rfl := (Prod.mk.inj (Except.ok.inj h)).2
          refine ⟨rfl, .inr ⟨?_, _, cmdHeaderSize + pos, Function.update_self .., ?_⟩⟩
          · rw [hiff]
            omega
          · rintro ⟨-, hle⟩
            omega
    · rw [if_neg hm] at h
      obtain rfl := (Prod.mk.inj (Except.ok.inj h)).2
      refine ⟨rfl, .inl ⟨⟨[], ?_⟩, fun code hdr hcode => .inl hcode⟩⟩
      rw [show cmdLen - pos = 0 by omega]
      rfl

/-- All attributes of a command, and all that is fetched of them, lie in its payload. -/
structure Contained (sctx : Stream σ) (cmdLen : ℕ) : Prop where
  attrs_in : ∀ code hdr, sctx.cmdAttrs code = some hdr → InPayload sctx cmdLen hdr
  gets_in : ∀ attr place, tlvGet sctx attr = .ok place →
    cmdHeaderSize ≤ place.1 ∧ place.1 + place.2 ≤ cmdHeaderSize + cmdLen

theorem contained_iff : Contained sctx cmdLen ↔
      ∀ code hdr, sctx.cmdAttrs code = some hdr → InPayload sctx cmdLen hdr := by
  refine ⟨Contained.attrs_in, fun h => ⟨h, ?_⟩⟩
  intro attr place hplace
  unfold tlvGet at hplace
  split_ifs at hplace with hcode
  split at hplace
  · cases hplace
  · rename_i hdr hattr
    obtain rfl := Except.ok.inj hplace
    obtain ⟨hlow, hhigh⟩ := h _ hdr hattr
    exact ⟨by omega, hhigh⟩

/-- When `read_cmd` returns 0, the attributes lie in the payload of the command if and only if the
payload is a sequence of whole attributes. -/
theorem readCmd_contained_iff (chunk : ℕ → ℕ) {sctx sctx' : Stream Fd}
    (h : readCmd (readFd chunk) sctx = .ok (0, sctx')) :
    Contained sctx' (leNat (sctx.fd.rest.take 4)) ↔
      WholeTlvs ((sctx.fd.rest.drop cmdHeaderSize).take (leNat (sctx.fd.rest.take 4))) := by
  obtain ⟨hdr, payload, sctx₁, hcmd⟩ := readCmd_ok chunk h
  obtain ⟨suffix, hbytes⟩ := hcmd.bytes_eq
  have hfield : leNat (sctx.fd.rest.take 4) = payload.length := by
    rw [hcmd.length_payload, hbytes, List.take_append_of_le_length]
    rw [hcmd.length_hdr]
    decide
  have hpayload : (sctx.fd.rest.drop cmdHeaderSize).take payload.length = payload := by
    rw [hbytes, List.drop_left' hcmd.length_hdr, List.take_left]
  obtain ⟨sctx₂, hl, hs⟩ := hcmd.loop
  obtain ⟨hbuf, hsp⟩ := tlvLoop_ok (Nat.zero_le _) hcmd.short hl
  have hholds := hcmd.holds
  rw [Nat.add_zero, Nat.sub_zero, hholds] at hsp
  have hin : ∀ place, InPayload sctx' payload.length place ↔
      InPayload sctx₁ payload.length place := by
    intro place
    rw [InPayload, InPayload, hs, hbuf]
  rw [hfield, hpayload, contained_iff, hs]
  rw [hs] at hin
  rcases hsp with ⟨hwhole, hnew⟩ | ⟨hnot, code, place, hattr, hout⟩
  · refine iff_of_true ?_ hwhole
    intro code place hattr
    rcases hnew code place hattr with hold | hnew
    · rw [hcmd.no_attrs] at hold
      cases hold
    · exact (hin place).mpr hnew
  · refine iff_of_false ?_ hnot
    intro hall
    exact hout ((hin place).mp (hall code place hattr))

/-- A stream that starts with these bytes, over an empty buffer. -/
def streamOf (bytes : List Byte) : Stream Fd := ⟨⟨bytes, 0⟩, fun _ => 0, 0, fun _ => none, 1, 0⟩

theorem readCmd_contained_mkfile :
    ∃ sctx', readCmd (readFd fun _ => 3) (streamOf (cmdBytes .mkfile (tlvBytes (.path, [0x61])))) =
        .ok (0, sctx') ∧ Contained sctx' 5 := by
  obtain ⟨sctx', h, -⟩ := @readCmd_spec (fun _ => 3)
    (streamOf (cmdBytes .mkfile (tlvBytes (.path, [0x61])))) .mkfile [(.path, [0x61])] []
    (by decide) (by decide) (by decide) (by simp [streamOf])
  exact ⟨sctx', h, (readCmd_contained_iff (fun _ => 3) h).mpr ⟨[(.path, [0x61])], rfl⟩⟩

/-- A command with four bytes of payload: the header of an attribute with five bytes of data. -/
theorem readCmd_attr_behind_payload :
    ∃ sctx', readCmd (readFd fun _ => 3) (streamOf (cmdBytes .subvol [1, 0, 5, 0])) =
        .ok (0, sctx') ∧
      leNat ((streamOf (cmdBytes .subvol [1, 0, 5, 0])).fd.rest.take 4) = 4 ∧
      sctx'.cmdAttrs 1 = some 10 ∧ ¬ Contained sctx' 4 := by
  obtain ⟨sctx₁, hr, -, hholds⟩ := @readCmd_eq (fun _ => 3)
    (streamOf (cmdBytes .subvol [1, 0, 5, 0])) .subvol [1, 0, 5, 0] [] (by decide)
    (List.append_nil _).symm
  obtain ⟨buf, hbody, hcheck⟩ := checkCmd_eq hholds
  obtain ⟨ht, hlen⟩ := (@holds_append buf cmdHeaderSize [1, 0] [5, 0]).mp hbody
  have ht' : leNat (load buf 10 2) = 1 := congrArg leNat ht
  have hlen' : leNat (load buf 12 2) = 5 := congrArg leNat hlen
  have hl : tlvLoop 4 5 0 { sctx₁ with readBuf := buf } = .ok (0, { sctx₁ with
        readBuf := buf, cmdAttrs := Function.update sctx₁.cmdAttrs 1 (some 10) }) := by
    simp [tlvLoop, ht', hlen', cmdHeaderSize, tlvHeaderSize, BTRFS_SEND_BUF_SIZE, BTRFS_SEND_A_MAX]
  have hattr : Function.update sctx₁.cmdAttrs 1 (some 10) 1 = some 10 := Function.update_self ..
  refine ⟨{ sctx₁ with
    readBuf := buf
    cmdAttrs := Function.update sctx₁.cmdAttrs 1 (some 10)
    cmd := SendCmd.subvol.code }, ?_, rfl, hattr, ?_⟩
  · rw [hr, hcheck]
    simp only [List.length_cons, List.length_nil, hl]
    rfl
  · intro hcontained
    obtain ⟨-, hhigh⟩ := hcontained.attrs_in 1 10 hattr
    rw [hlen'] at hhigh
    exact absurd hhigh (by decide)

end Btrfs.SendStream
