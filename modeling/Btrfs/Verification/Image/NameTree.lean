import Btrfs.Verification.SendStream.Checksum
import Btrfs.Verification.Image.Trees

/-! # Names with a wanted checksum -/

namespace Btrfs.Sanitize

open Crc32c Raid56 Crc

variable {sub val : List Byte}

/-! ## One byte backwards -/

/-- The register before a zero byte, as `crc32c_rev_table` gives it. -/
def unstep (crc : BitVec 32) : BitVec 32 := (crc <<< 8) ^^^ crc32cRevTable.getD (crc >>> 24).toNat 0

theorem crc32cRevTable_steps : ∀ i < 256,
    bitSteps castagnoli 8 (crc32cRevTable.getD i 0) = BitVec.ofNat 32 i <<< 24 := by
  decide +kernel

theorem top_byte_lt (crc : BitVec 32) : (crc >>> 24).toNat < 256 := by
  rw [BitVec.toNat_ushiftRight]
  omega

theorem bitSteps_unstep (crc : BitVec 32) : bitSteps castagnoli 8 (unstep crc) = crc := by
  have hlow : bitSteps castagnoli 8 (crc <<< 8) = crc <<< 8 >>> 8 := by
    apply bitSteps_of_low_zero
    intro i hi
    simp [hi]
  have htable := crc32cRevTable_steps _ (top_byte_lt crc)
  rw [BitVec.ofNat_toNat, BitVec.setWidth_eq] at htable
  rw [unstep, bitSteps_xor, hlow, htable]
  -- the top byte and the other three
  apply BitVec.eq_of_getLsbD_eq
  intro i hi
  simp only [BitVec.getLsbD_xor, BitVec.getLsbD_ushiftRight, BitVec.getLsbD_shiftLeft]
  by_cases htop : i < 24
  · simp [htop, show 8 + i < 32 by omega]
  · simp [htop, hi, show ¬ 8 + i < 32 by omega, show 24 + (i - 24) = i by omega]

/-- What is low enough in the register is only shifted. -/
theorem unstep_xor (x : BitVec 32) {y : BitVec 32} (hy : ∀ i, 24 ≤ i → y.getLsbD i = false) :
    unstep (x ^^^ y) = unstep x ^^^ (y <<< 8) := by
  have htop : (x ^^^ y) >>> 24 = x >>> 24 := by
    apply BitVec.eq_of_getLsbD_eq
    intro i hi
    simp [hy (24 + i) (by omega)]
  rw [unstep, unstep, htop, BitVec.shiftLeft_xor_distrib]
  generalize crc32cRevTable.getD _ 0 = entry
  ac_rfl

/-! ## Four bytes -/

/-- Only the low 32 bits of the two `unsigned long` matter. -/
theorem calcSuffixRound_low (currentCrc desiredCrc : BitVec 64) (i : ℕ) :
    (calcSuffixRound currentCrc desiredCrc i).setWidth 32 =
      unstep (desiredCrc.setWidth 32) ^^^ (currentCrc >>> (i * 8) &&& 0xff#64).setWidth 32 := by
  have hidx : (desiredCrc >>> 24 &&& 0xff#64).toNat = (desiredCrc.setWidth 32 >>> 24).toNat := by
    have hmask : (0xff#64).toNat = 2 ^ 8 - 1 := rfl
    rw [BitVec.toNat_and, hmask, Nat.and_two_pow_sub_one_eq_mod, BitVec.toNat_ushiftRight,
      BitVec.toNat_ushiftRight, BitVec.toNat_setWidth]
    omega
  have hsft : (desiredCrc <<< 8).setWidth 32 = desiredCrc.setWidth 32 <<< 8 := by
    apply BitVec.eq_of_getLsbD_eq
    intro k hk
    simp
  rw [calcSuffixRound, hidx, unstep]
  rw [BitVec.setWidth_xor, BitVec.setWidth_xor, hsft, BitVec.setWidth_setWidth_of_le _ (by decide),
    BitVec.setWidth_eq]

theorem currentByte_low (currentCrc : BitVec 32) (i : ℕ) :
    (currentCrc.setWidth 64 >>> (i * 8) &&& 0xff#64).setWidth 32 =
      (currentCrc >>> (i * 8) &&& 0xff#32) := by
  apply BitVec.eq_of_getLsbD_eq
  intro k hk
  have hmask : (0xff#64).getLsbD k = (0xff#32).getLsbD k := by
    have hall : ∀ k < 32, (0xff#64).getLsbD k = (0xff#32).getLsbD k := by decide
    exact hall k hk
  simp only [BitVec.getLsbD_setWidth, BitVec.getLsbD_and, BitVec.getLsbD_ushiftRight, hk, hmask]
  by_cases hlt : i * 8 + k < 64
  · simp [hlt]
  · simp [BitVec.getLsbD_of_ge currentCrc (i * 8 + k) (by omega)]

theorem unstep_xor_current (crc currentCrc : BitVec 32) (i : ℕ) :
    unstep (crc ^^^ currentCrc >>> ((i + 1) * 8)) ^^^ (currentCrc >>> (i * 8) &&& 0xff#32) =
      unstep crc ^^^ currentCrc >>> (i * 8) := by
  have hsmall : ∀ k, 24 ≤ k → (currentCrc >>> ((i + 1) * 8)).getLsbD k = false := by
    intro k hk
    rw [BitVec.getLsbD_ushiftRight]
    exact BitVec.getLsbD_of_ge _ _ (by omega)
  have hword : currentCrc >>> ((i + 1) * 8) <<< 8 ^^^ (currentCrc >>> (i * 8) &&& 0xff#32) =
      currentCrc >>> (i * 8) := by
    apply BitVec.eq_of_getLsbD_eq
    intro k hk
    rw [BitVec.getLsbD_xor, BitVec.getLsbD_and, low_byte_mask]
    by_cases hlow : k < 8
    · simp [hlow, hk]
    · simp [hlow, hk, show (i + 1) * 8 + (k - 8) = i * 8 + k by omega]
  rw [unstep_xor crc hsmall, BitVec.xor_assoc, hword]

theorem suffixByte_low (crc : BitVec 64) {i : ℕ} (hi : i < 4) :
    (crc >>> (i * 8) &&& 0xff#64).setWidth 8 = (crc.setWidth 32 >>> (i * 8)).setWidth 8 := by
  apply BitVec.eq_of_getLsbD_eq
  intro k hk
  have hmask : (0xff#64).getLsbD k = true := by
    have hall : ∀ k < 8, (0xff#64).getLsbD k = true := by decide
    exact hall k hk
  simp only [BitVec.getLsbD_setWidth, BitVec.getLsbD_and, BitVec.getLsbD_ushiftRight, hmask,
    show i * 8 + k < 32 by omega, decide_true, Bool.true_and, Bool.and_true]

theorem findCollisionCalcSuffix_eq (currentCrc desiredCrc : BitVec 32) :
    findCollisionCalcSuffix (currentCrc.setWidth 64) (desiredCrc.setWidth 64) =
      lowBytes 4 (unstep (unstep (unstep (unstep desiredCrc))) ^^^ currentCrc) := by
  have hrounds : ([3, 2, 1, 0].foldl (calcSuffixRound (currentCrc.setWidth 64))
      (desiredCrc.setWidth 64)).setWidth 32 =
      unstep (unstep (unstep (unstep desiredCrc))) ^^^ currentCrc := by
    have htop : currentCrc >>> (3 * 8) &&& 0xff#32 = currentCrc >>> ((2 + 1) * 8) := by
      apply BitVec.eq_of_getLsbD_eq
      intro k hk
      rw [BitVec.getLsbD_and, low_byte_mask]
      by_cases hlow : k < 8
      · simp [hlow, hk]
      · simp [BitVec.getLsbD_of_ge currentCrc (24 + k) (by omega)]
    simp only [List.foldl, calcSuffixRound_low, currentByte_low]
    rw [htop, unstep_xor_current _ _ 2, unstep_xor_current _ _ 1, unstep_xor_current _ _ 0]
    simp
  rw [findCollisionCalcSuffix, ← hrounds]
  generalize List.foldl _ _ _ = crc
  simp only [List.map, lowBytes]
  rw [suffixByte_low crc (i := 0) (by decide), suffixByte_low crc (i := 1) (by decide),
    suffixByte_low crc (i := 2) (by decide), suffixByte_low crc (i := 3) (by decide)]
  simp

/-- The suffix is the one and only continuation of four bytes with the wanted register. -/
theorem crc32c_eq_iff_suffix {currentCrc desiredCrc : BitVec 32} {bytes : List Byte}
    (h : bytes.length = 4) :
    crc32c currentCrc bytes = desiredCrc ↔
      bytes = findCollisionCalcSuffix (currentCrc.setWidth 64) (desiredCrc.setWidth 64) := by
  have hback : bitSteps castagnoli 32 (unstep (unstep (unstep (unstep desiredCrc)))) = desiredCrc := by
    change bitSteps castagnoli (8 + (8 + (8 + 8))) _ = _
    simp only [bitSteps_add, bitSteps_unstep]
  rw [findCollisionCalcSuffix_eq, crc32c_eq, register_eq_bitSteps castagnoli _ (by omega), h]
  constructor
  · intro hcrc
    rw [← hback] at hcrc
    have hword := bitSteps_injective castagnoli (by decide) 32 hcrc
    rw [← hword, BitVec.xor_comm currentCrc, BitVec.xor_assoc, BitVec.xor_self, BitVec.xor_zero, ← h,
      lowBytes_leWord (by omega)]
  · rintro rfl
    rw [leWord_lowBytes fun i hi => BitVec.getLsbD_of_ge _ _ (by omega), BitVec.xor_comm currentCrc,
      BitVec.xor_assoc, BitVec.xor_self, BitVec.xor_zero]
    exact hback

/-! ## The prefixes in order -/

def Printable (c : Byte) : Prop := 32 ≤ c.toNat ∧ c.toNat ≤ 126 ∧ c ≠ 47#8

instance (c : Byte) : Decidable (Printable c) := inferInstanceAs (Decidable (_ ∧ _ ∧ _))

/-- The place of a character among the printable ones. -/
def charDigit (c : Byte) : ℕ := if c.toNat < 47 then c.toNat - 32 else c.toNat - 33

theorem charDigit_lt : ∀ c, Printable c → charDigit c < 94 := by decide +kernel

theorem charDigit_inj : ∀ c c', Printable c → Printable c' → charDigit c = charDigit c' → c = c' := by
  decide +kernel

theorem bumpChar_spec : ∀ c, Printable c → c ≠ 126#8 →
    Printable (bumpChar c) ∧ charDigit (bumpChar c) = charDigit c + 1 := by
  decide +kernel

theorem isSuffixValid_char : ∀ c : Byte,
    ¬ (c.toInt < 32 ∨ 126 < c.toInt ∨ c = 47#8) ↔ Printable c := by
  decide +kernel

theorem findCollisionIsSuffixValid_iff (suffix : List Byte) :
    findCollisionIsSuffixValid suffix = true ↔ ∀ c ∈ suffix, Printable c := by
  simp only [findCollisionIsSuffixValid, List.all_eq_true, decide_eq_true_eq, isSuffixValid_char]

/-- The number of a prefix, with its first character as the lowest digit. -/
def rank (sub : List Byte) : ℕ := Nat.ofDigits 94 (sub.map charDigit)

theorem rank_cons (c : Byte) (cs : List Byte) : rank (c :: cs) = charDigit c + 94 * rank cs := by
  simp [rank, Nat.ofDigits_cons]

theorem charDigits_lt (h : ∀ c ∈ sub, Printable c) : ∀ d ∈ sub.map charDigit, d < 94 := by
  intro d hd
  obtain ⟨c, hc, rfl⟩ := List.mem_map.mp hd
  exact charDigit_lt c (h c hc)

theorem rank_lt (h : ∀ c ∈ sub, Printable c) : rank sub < 94 ^ sub.length := by
  have hlt := Nat.ofDigits_lt_base_pow_length (b := 94) (by decide) (charDigits_lt h)
  rwa [List.length_map] at hlt

theorem rank_inj {a b : List Byte} (ha : ∀ c ∈ a, Printable c) (hb : ∀ c ∈ b, Printable c)
    (hlen : a.length = b.length) (h : rank a = rank b) : a = b := by
  have hdigits : a.map charDigit = b.map charDigit :=
    Nat.ofDigits_inj_of_len_eq (by decide) (by simpa using hlen) (charDigits_lt ha)
      (charDigits_lt hb) h
  refine List.ext_getElem hlen fun i hi hi' => ?_
  apply charDigit_inj _ _ (ha _ (List.getElem_mem hi)) (hb _ (List.getElem_mem hi'))
  have hdigit := congrArg (fun l => l[i]?) hdigits
  simpa [hi, hi'] using hdigit

theorem rank_spaces (n : ℕ) : rank (List.replicate n 32#8) = 0 := by
  induction n with
  | zero => rfl
  | succ n ih =>
    rw [List.replicate_succ, rank_cons, ih]
    rfl

theorem nextSub_spec (h : ∀ c ∈ sub, Printable c) :
    match nextSub sub with
    | none => rank sub + 1 = 94 ^ sub.length
    | some sub' => (∀ c ∈ sub', Printable c) ∧ sub'.length = sub.length ∧ rank sub' = rank sub + 1 := by
  induction sub with
  | nil => rfl
  | cons c cs ih =>
    obtain ⟨hc, hcs⟩ := List.forall_mem_cons.mp h
    have hn := ih hcs
    rw [nextSub]
    by_cases hl : c = 126#8
    · have hdigit : charDigit c = 93 := by
        rw [hl]
        rfl
      rw [if_pos hl]
      cases hca : nextSub cs with
      | none =>
        rw [hca] at hn
        change rank (c :: cs) + 1 = 94 ^ (cs.length + 1)
        rw [rank_cons]
        omega
      | some cs' =>
        rw [hca] at hn
        obtain ⟨hprint, hlen, hrank⟩ := hn
        refine ⟨List.forall_mem_cons.mpr ⟨by decide, hprint⟩, congrArg (· + 1) hlen, ?_⟩
        have hz : charDigit 32#8 = 0 := rfl
        rw [rank_cons, rank_cons]
        omega
    · rw [if_neg hl]
      obtain ⟨hbump, hdigit⟩ := bumpChar_spec c hc hl
      refine ⟨List.forall_mem_cons.mpr ⟨hbump, hcs⟩, rfl, ?_⟩
      rw [rank_cons, rank_cons]
      omega

/-! ## The search -/

/-- A name that can stand for another one: of the same length and with the same checksum. -/
structure IsCollision (val other : List Byte) : Prop where
  length_eq : other.length = val.length
  printable : ∀ c ∈ other, Printable c
  crc_eq : crc32c nameSeed other = crc32c nameSeed val
  ne : other ≠ val

theorem IsCollision.take {other : List Byte} (h : IsCollision val other) {n : ℕ}
    (hn : n ≤ val.length) : (∀ c ∈ other.take n, Printable c) ∧ (other.take n).length = n := by
  refine ⟨fun c hc => h.printable c (List.mem_of_mem_take hc), ?_⟩
  simp [h.length_eq, Nat.min_eq_left hn]

def suffixFor (val sub : List Byte) : List Byte :=
  findCollisionCalcSuffix ((crc32c nameSeed sub).setWidth 64) ((crc32c nameSeed val).setWidth 64)

theorem length_suffixFor (val sub : List Byte) : (suffixFor val sub).length = 4 := rfl

theorem crc32c_append (crc : BitVec 32) (a b : List Byte) :
    crc32c crc (a ++ b) = crc32c (crc32c crc a) b := List.foldl_append

theorem isCollision_append_iff {bytes : List Byte} (hsub : ∀ c ∈ sub, Printable c)
    (hlen : sub.length + 4 = val.length) (hbytes : bytes.length = 4) :
    IsCollision val (sub ++ bytes) ↔ bytes = suffixFor val sub ∧
      findCollisionIsSuffixValid (suffixFor val sub) = true ∧ sub ++ suffixFor val sub ≠ val := by
  have hcrc : crc32c nameSeed (sub ++ bytes) = crc32c nameSeed val ↔ bytes = suffixFor val sub := by
    rw [crc32c_append]
    exact crc32c_eq_iff_suffix hbytes
  rw [findCollisionIsSuffixValid_iff]
  constructor
  · intro h
    obtain rfl := hcrc.mp h.crc_eq
    exact ⟨rfl, (List.forall_mem_append.mp h.printable).2, h.ne⟩
  · rintro ⟨rfl, hval, hne⟩
    refine ⟨?_, List.forall_mem_append.mpr ⟨hsub, hval⟩, hcrc.mpr rfl, hne⟩
    rw [List.length_append, hbytes, hlen]

/-- From a prefix on, the loop ends with the first collision, or there is none. -/
theorem reverseLoop_spec {rounds : ℕ} (hsub : ∀ c ∈ sub, Printable c)
    (hlength : sub.length + 4 = val.length) (hrounds : 94 ^ sub.length ≤ rank sub + rounds) :
    ∃ found buf, reverseLoop val ((crc32c nameSeed val).setWidth 64) rounds sub = .ok (found, buf) ∧
      buf.length = val.length ∧ (found = true → IsCollision val buf) ∧
      (found = false → ∀ other, IsCollision val other → rank (other.take sub.length) < rank sub) := by
  induction rounds generalizing sub with
  | zero =>
    have := rank_lt hsub
    omega
  | succ rounds ih =>
    change ∃ found buf, (if findCollisionIsSuffixValid (suffixFor val sub) = true ∧
      sub ++ suffixFor val sub ≠ val then _ else _) = _ ∧ _
    have hbuf : (sub ++ suffixFor val sub).length = val.length := by
      rw [List.length_append, length_suffixFor, hlength]
    by_cases hhit : findCollisionIsSuffixValid (suffixFor val sub) = true ∧
        sub ++ suffixFor val sub ≠ val
    · rw [if_pos hhit]
      refine ⟨true, _, rfl, hbuf, fun _ => ?_, nofun⟩
      exact (isCollision_append_iff hsub hlength rfl).mpr ⟨rfl, hhit⟩
    · rw [if_neg hhit]
      -- a collision with this prefix would have been a hit
      have hother : ∀ other, IsCollision val other → rank (other.take sub.length) ≠ rank sub := by
        intro other hcoll hrank
        obtain ⟨hprint, hlen⟩ := hcoll.take (n := sub.length) (by omega)
        have ht := rank_inj hprint hsub hlen hrank
        have hd : (other.drop sub.length).length = 4 := by
          rw [List.length_drop, hcoll.length_eq]
          omega
        rw [← List.take_append_drop sub.length other, ht,
          isCollision_append_iff hsub hlength hd] at hcoll
        exact hhit hcoll.2
      have hn := nextSub_spec hsub
      cases hc : nextSub sub with
      | none =>
        rw [hc] at hn
        refine ⟨false, _, rfl, hbuf, nofun, fun _ other hcoll => ?_⟩
        obtain ⟨hprint, hlen⟩ := hcoll.take (n := sub.length) (by omega)
        have hlt := rank_lt hprint
        have hne := hother other hcoll
        rw [hlen] at hlt
        omega
      | some sub' =>
        rw [hc] at hn
        obtain ⟨hprint, hlen, hrank⟩ := hn
        obtain ⟨found, buf, hrun, hlen', hfound, hno⟩ := ih hprint (by omega) (by
          rw [hlen]
          omega)
        refine ⟨found, buf, hrun, hlen', hfound, fun hfalse other hcoll => ?_⟩
        have hlt := hno hfalse other hcoll
        have hne := hother other hcoll
        rw [hlen] at hlt
        omega

theorem findCollisionReverseCrc32c_spec (h : 4 < val.length) (sub : List Byte) :
    ∃ found buf, findCollisionReverseCrc32c val sub = .ok (found, buf) ∧ buf.length = val.length ∧
      (found = true → IsCollision val buf) ∧ (found = false → ∀ other, ¬ IsCollision val other) := by
  have hspaces : ∀ c ∈ List.replicate (val.length - 4) 32#8, Printable c := by
    intro c hc
    rw [List.eq_of_mem_replicate hc]
    decide
  have hlen : (List.replicate (val.length - 4) 32#8).length + 4 = val.length := by
    rw [List.length_replicate]
    omega
  have hrank := rank_spaces (val.length - 4)
  have hrounds : 94 ^ (List.replicate (val.length - 4) 32#8).length ≤
      rank (List.replicate (val.length - 4) 32#8) + 94 ^ (val.length - 4) := by
    simp
  obtain ⟨found, buf, hrun, hbuf, hfound, hn⟩ := reverseLoop_spec hspaces hlen hrounds
  refine ⟨found, buf, ?_, hbuf, hfound, fun hfalse other hcoll => ?_⟩
  · rw [findCollisionReverseCrc32c, if_neg (by omega)]
    exact hrun
  · have hlt := hn hfalse other hcoll
    omega

/-- The suffix is the only one that leads from one register to another, and the search finds a
collision exactly when there is one. -/
theorem reverseCrc32c_sound_complete :
    (∀ (currentCrc desiredCrc : BitVec 32) (data bytes : List Byte),
      crc32c nameSeed data = currentCrc → bytes.length = 4 →
        (crc32c nameSeed (data ++ bytes) = desiredCrc ↔
          bytes = findCollisionCalcSuffix (currentCrc.setWidth 64) (desiredCrc.setWidth 64))) ∧
    ∀ val sub : List Byte, 4 < val.length →
      ∃ found buf, findCollisionReverseCrc32c val sub = .ok (found, buf) ∧
        (found = true ↔ ∃ other, IsCollision val other) := by
  constructor
  · rintro currentCrc desiredCrc data bytes rfl hbytes
    rw [crc32c_append]
    exact crc32c_eq_iff_suffix hbytes
  · intro val sub hval
    obtain ⟨found, buf, hc, -, hfound, hn⟩ := findCollisionReverseCrc32c_spec hval sub
    refine ⟨found, buf, hc, fun hf => ⟨buf, hfound hf⟩, ?_⟩
    rintro ⟨other, hcoll⟩
    cases found with
    | true => rfl
    | false => exact absurd hcoll (hn rfl other)

theorem reverseCrc32c_hello : crc32c nameSeed ([104#8, 101#8] ++ findCollisionCalcSuffix
      ((crc32c nameSeed [104#8, 101#8]).setWidth 64) ((0#32).setWidth 64)) = 0#32 ∧
    ∃ found buf, findCollisionReverseCrc32c [104#8, 101#8, 108#8, 108#8, 111#8] [] =
        .ok (found, buf) ∧
      (found = true ↔ ∃ other, IsCollision [104#8, 101#8, 108#8, 108#8, 111#8] other) :=
  ⟨(reverseCrc32c_sound_complete.1 _ _ _ _ rfl rfl).mpr rfl,
    reverseCrc32c_sound_complete.2 _ [] (by decide)⟩

/-! ## Names that replace names

`name_cmp` cuts the longer of two names, so that a name and a beginning of it compare equal. No entry
of the tree is a beginning of another one, but a name that is searched can get the entry of a shorter
or a longer name. -/

open RbTree

/-! ## The comparison -/

/-- One of the names is a beginning of the other one. -/
def Comparable (a b : List Byte) : Prop := a <+: b ∨ b <+: a

theorem memcmp_take (a b : List Byte) :
    memcmp (a.take (min a.length b.length)) (b.take (min a.length b.length)) = memcmp a b := by
  induction a generalizing b with
  | nil => simp [memcmp]
  | cons x a ih =>
    cases b with
    | nil => simp [memcmp]
    | cons y b => simp [memcmp, ih]

theorem nameCmp_eq (entry ins : List Byte) : nameCmp entry ins = memcmp ins entry :=
  memcmp_take ins entry

theorem memcmp_swap (a b : List Byte) : memcmp a b = -memcmp b a := by
  induction a generalizing b with
  | nil => cases b <;> rfl
  | cons x a ih =>
    cases b with
    | nil => rfl
    | cons y b =>
      rw [memcmp, memcmp]
      by_cases hxy : x = y
      · rw [if_pos hxy, if_pos hxy.symm, ih]
      · rw [if_neg hxy, if_neg (Ne.symm hxy), Int.neg_sub]

theorem byte_sub_ne_zero {x y : Byte} (h : x ≠ y) : (x.toNat : ℤ) - y.toNat ≠ 0 := by
  intro hz
  exact h (BitVec.eq_of_toNat_eq (by omega))

theorem memcmp_eq_zero_iff (a b : List Byte) : memcmp a b = 0 ↔ Comparable a b := by
  induction a generalizing b with
  | nil => simp [memcmp, Comparable]
  | cons x a ih =>
    cases b with
    | nil => simp [memcmp, Comparable]
    | cons y b =>
      rw [memcmp, Comparable]
      by_cases hxy : x = y
      · simp [hxy, ih, Comparable]
      · simp [hxy, Ne.symm hxy, byte_sub_ne_zero hxy]

theorem memcmp_trans {a b c : List Byte} (hab : memcmp a b < 0) (hbc : memcmp b c < 0) :
    memcmp a c < 0 := by
  induction a generalizing b c with
  | nil => cases b <;> cases hab
  | cons x a ih =>
    cases b with
    | nil => cases hab
    | cons y b =>
      cases c with
      | nil => cases hbc
      | cons z c =>
        rw [memcmp] at hab hbc ⊢
        by_cases hxy : x = y
        · rw [if_pos hxy] at hab
          by_cases hyz : y = z
          · rw [if_pos hyz] at hbc
            rw [if_pos (hxy.trans hyz)]
            exact ih hab hbc
          · rw [if_neg hyz] at hbc
            rw [hxy, if_neg hyz]
            exact hbc
        · rw [if_neg hxy] at hab
          by_cases hyz : y = z
          · rw [← hyz, if_neg hxy]
            exact hab
          · rw [if_neg hyz] at hbc
            have hxz : x ≠ z := by
              rintro rfl
              omega
            rw [if_neg hxz]
            omega

/-! ## The tree -/

/-- Entries in ascending order, none a beginning of another one. -/
structure NameTree (tree : RbNode Name) : Prop where
  valid : Valid tree
  ordered : (inorder tree).Pairwise fun a b => memcmp a.val b.val < 0

theorem nameTree_nil : NameTree .nil := ⟨valid_nil, .nil⟩

section

variable {tree : RbNode Name} (h : NameTree tree)

include h

theorem NameTree.consistent (name : List Byte) :
    Consistent (fun entry : Name => nameCmp entry.val name) (inorder tree) := by
  refine h.ordered.imp ?_
  intro a b hab
  simp only [nameCmp_eq]
  constructor
  · intro hb
    rw [memcmp_swap] at hb ⊢
    have := memcmp_trans hab (by omega : memcmp b.val name < 0)
    omega
  · intro ha
    exact memcmp_trans ha hab

theorem NameTree.eq_of_comparable {a b : Name} (ha : a ∈ inorder tree) (hb : b ∈ inorder tree)
    (hab : Comparable a.val b.val) : a = b := by
  have hp : (inorder tree).Pairwise fun a b => memcmp a.val b.val ≠ 0 :=
    h.ordered.imp fun hlt => hlt.ne
  have hsymm : Std.Symm fun a b : Name => memcmp a.val b.val ≠ 0 := by
    refine ⟨fun a b hne => ?_⟩
    rw [memcmp_swap]
    omega
  by_contra hne
  exact hp.forall ha hb hne ((memcmp_eq_zero_iff _ _).mpr hab)

theorem NameTree.treeSearch_spec (name : List Byte) :
    match treeSearch (fun entry : Name => nameCmp entry.val name) tree with
    | some e => e ∈ inorder tree ∧ Comparable e.val name
    | none => ∀ e ∈ inorder tree, ¬ Comparable e.val name := by
  have hz : ∀ e : Name, nameCmp e.val name = 0 ↔ Comparable e.val name := by
    intro e
    rw [nameCmp_eq, memcmp_eq_zero_iff]
    exact Or.comm
  rw [treeSearch_rbSearch]
  obtain ⟨n, hc, rfl, hn⟩ | ⟨below, above, next, hcut, hc, -⟩ := rbSearch_spec (h.consistent name)
  · rw [hc]
    exact ⟨n.entry_mem, (hz _).mp hn⟩
  · rw [hc]
    intro e he hco
    exact hcut.ne_zero e he ((hz e).mpr hco)

theorem NameTree.treeInsert_spec (ins : Name)
    (hn : ∀ e ∈ inorder tree, ¬ Comparable e.val ins.val) :
    ∃ tree', treeInsert (fun entry : Name => nameCmp entry.val ins.val) tree ins = .ok tree' ∧
      NameTree tree' ∧ ∀ e, e ∈ inorder tree' ↔ e = ins ∨ e ∈ inorder tree := by
  obtain ⟨⟨e, he, hz⟩, -⟩ | ⟨tree', below, above, hcut, hc, hval, horder⟩ :=
    rbInsert_spec ins h.valid (h.consistent ins.val)
  · rw [nameCmp_eq, memcmp_eq_zero_iff] at hz
    exact absurd hz.symm (hn e he)
  · refine ⟨tree', treeInsert_of_rbInsert hc, ⟨hval, ?_⟩, ?_⟩
    · rw [horder]
      apply hcut.insert h.ordered
      · intro e _ hgt
        rw [nameCmp_eq, memcmp_swap] at hgt
        omega
      · intro e _ hlt
        rwa [nameCmp_eq] at hlt
    · rw [horder, hcut.append]
      simp only [List.mem_append, List.mem_cons]
      tauto

end

/-! ## One call -/

def Found (name : List Byte) : Prop := ∃ buf, findCollisionReverseCrc32c name [] = .ok (true, buf)

theorem findCollisionReverseCrc32c_cases (name sub : List Byte) :
    ∃ found buf, findCollisionReverseCrc32c name sub = .ok (found, buf) ∧
      (found = true → IsCollision name buf) ∧ (found = false → ¬ Found name) := by
  by_cases hsh : name.length ≤ 4
  · have hc : ∀ buf, findCollisionReverseCrc32c name buf = .ok (false, buf) := fun buf => by
      rw [findCollisionReverseCrc32c, if_pos hsh]
    refine ⟨false, sub, hc sub, Bool.noConfusion, ?_⟩
    rintro - ⟨buf, hfound⟩
    rw [hc] at hfound
    cases hfound
  · obtain ⟨found, buf, hc, -, hfound, -⟩ :=
      findCollisionReverseCrc32c_spec (Nat.lt_of_not_le hsh) sub
    refine ⟨found, buf, hc, hfound, ?_⟩
    rintro rfl ⟨buf', hfound'⟩
    rw [findCollisionReverseCrc32c, if_neg hsh] at hc hfound'
    rw [hc] at hfound'
    cases hfound'

/-- An entry with the name that replaces its own. -/
structure GoodEntry (e : Name) : Prop where
  length_eq : e.sub.length = e.val.length
  collision : Found e.val → IsCollision e.val e.sub

structure GoodTree (tree : RbNode Name) : Prop extends NameTree tree where
  good : ∀ e ∈ inorder tree, GoodEntry e

theorem goodTree_nil : GoodTree .nil := ⟨nameTree_nil, by simp⟩

variable {st : NameState} {name : List Byte} {names subs : List (List Byte)}

/-- What a call does: it returns the name of an entry that compares equal, or makes an entry. -/
theorem GoodTree.findCollision_cases (h : GoodTree st.tree) (rand : ℕ → ℤ) (name : List Byte) :
    (∃ e ∈ inorder st.tree, Comparable e.val name ∧ findCollision rand st name = .ok (e.sub, st)) ∨
      (∀ e ∈ inorder st.tree, ¬ Comparable e.val name) ∧
        ∃ e st', e.val = name ∧ findCollision rand st name = .ok (e.sub, st') ∧ GoodTree st'.tree ∧
          ∀ e', e' ∈ inorder st'.tree ↔ e' = e ∨ e' ∈ inorder st.tree := by
  have hsearch := h.treeSearch_spec name
  rw [findCollision]
  cases hc : treeSearch (fun entry : Name => nameCmp entry.val name) st.tree with
  | some e =>
    rw [hc] at hsearch
    exact .inl ⟨e, hsearch.1, hsearch.2, rfl⟩
  | none =>
    rw [hc] at hsearch
    obtain ⟨found, buf, hca, hfound, hn⟩ :=
      findCollisionReverseCrc32c_cases name (List.replicate name.length 0#8)
    obtain ⟨sub, draws, hsub, hg⟩ : ∃ sub draws, (if found then (buf, st.draws)
          else ((List.range name.length).map fun i => garbageChar (rand (st.draws + i)),
            st.draws + name.length)) = (sub, draws) ∧ GoodEntry ⟨name, sub⟩ := by
      cases found with
      | true => exact ⟨buf, _, rfl, (hfound rfl).length_eq, fun _ => hfound rfl⟩
      | false => exact ⟨_, _, rfl, by simp, fun hf => absurd hf (hn rfl)⟩
    obtain ⟨tree', hinside, hnames, hmem⟩ := h.treeInsert_spec ⟨name, sub⟩ hsearch
    refine .inr ⟨hsearch, ⟨name, sub⟩, ⟨tree', draws⟩, rfl, ?_, ⟨hnames, ?_⟩, hmem⟩
    · simp only [hca, hsub, hinside, bind, Except.bind]
      rfl
    · intro e he
      obtain rfl | he := (hmem e).mp he
      · exact hg
      · exact h.good e he

/-! ## All calls -/

/-- What is wanted of the calls for `names` that returned `subs`. -/
structure Substitutes (names subs : List (List Byte)) : Prop where
  length_le : ∀ p ∈ names.zip subs, p.1.length ≤ p.2.length
  same : ∀ p ∈ names.zip subs, ∀ q ∈ names.zip subs, p.1 = q.1 → p.2 = q.2
  collision : ∀ p ∈ names.zip subs, Found p.1 → IsCollision p.1 (p.2.take p.1.length)

/-- No name gets an entry that is shorter: `entries` are the names with an entry so far. -/
def LengthsKept : List (List Byte) → List (List Byte) → Prop
  | _, [] => True
  | entries, name :: names =>
    (∀ v ∈ entries, v <+: name → v = name) ∧
      ((∃ v ∈ entries, Comparable v name) → LengthsKept entries names) ∧
      ((∀ v ∈ entries, ¬ Comparable v name) → LengthsKept (name :: entries) names)

theorem findCollisions_cons {rand : ℕ → ℤ} {st' : NameState} {sub : List Byte}
    (hc : findCollision rand st name = .ok (sub, st'))
    (hrun : findCollisions rand st' names = .ok subs) :
    findCollisions rand st (name :: names) = .ok (sub :: subs) := by
  simp only [findCollisions, hc, hrun, bind, Except.bind]
  rfl

theorem GoodTree.findCollisions_spec (h : GoodTree st.tree) (rand : ℕ → ℤ)
    (names : List (List Byte)) :
    ∃ subs tree, findCollisions rand st names = .ok subs ∧ subs.length = names.length ∧
      GoodTree tree ∧ (∀ e ∈ inorder st.tree, e ∈ inorder tree) ∧
      (∀ e ∈ inorder tree, e ∈ inorder st.tree ∨ e.val ∈ names) ∧
      ∀ p ∈ names.zip subs, ∃ e ∈ inorder tree, Comparable e.val p.1 ∧ p.2 = e.sub := by
  induction names generalizing st with
  | nil => exact ⟨[], st.tree, rfl, rfl, h, fun _ he => he, fun _ he => .inl he, List.forall_mem_nil _⟩
  | cons name names ih =>
    obtain ⟨e, he, hco, hc⟩ | ⟨-, e, st', hval, hc, hst', hmem⟩ := h.findCollision_cases rand name
    · obtain ⟨subs, tree, hrun, hlen, ht, hsub, hnew, hresult⟩ := ih h
      refine ⟨e.sub :: subs, tree, ?_, congrArg (· + 1) hlen, ht, hsub, ?_, ?_⟩
      · exact findCollisions_cons hc hrun
      · exact fun e' he' => (hnew e' he').imp_right (List.mem_cons_of_mem _)
      · exact List.forall_mem_cons.mpr ⟨⟨e, hsub e he, hco, rfl⟩, hresult⟩
    · obtain ⟨subs, tree, hrun, hlen, ht, hsub, hnew, hresult⟩ := ih hst'
      have he : e ∈ inorder tree := hsub e ((hmem e).mpr (.inl rfl))
      refine ⟨e.sub :: subs, tree, ?_, congrArg (· + 1) hlen, ht,
        fun e' he' => hsub e' ((hmem e').mpr (.inr he')), ?_, ?_⟩
      · exact findCollisions_cons hc hrun
      · intro e' he'
        obtain hold | hn := hnew e' he'
        · obtain rfl | hold := (hmem e').mp hold
          · exact .inr (hval ▸ by simp)
          · exact .inl hold
        · exact .inr (by simp [hn])
      · refine List.forall_mem_cons.mpr ⟨⟨e, he, ?_, rfl⟩, hresult⟩
        rw [hval]
        exact .inl (List.prefix_refl _)

theorem NameTree.length_le_iff {tree : RbNode Name} (h : NameTree tree) {e : Name}
    (he : e ∈ inorder tree) (hc : Comparable e.val name) :
    name.length ≤ e.val.length ↔ ∀ e' ∈ inorder tree, e'.val <+: name → e'.val = name := by
  constructor
  · intro hle e' he' hbegin
    have hn : name <+: e.val := by
      obtain hc | hc := hc
      · rw [hc.eq_of_length_le hle]
      · exact hc
    obtain rfl := h.eq_of_comparable he' he (.inl (hbegin.trans hn))
    exact hbegin.eq_of_length_le hn.length_le
  · intro hall
    obtain hc | hc := hc
    · rw [hall e he hc]
    · exact hc.length_le

/-- The returned names are long enough exactly when no name gets a shorter entry. -/
theorem GoodTree.length_le_iff_lengthsKept (h : GoodTree st.tree) (rand : ℕ → ℤ)
    {entries : List (List Byte)} (hentries : ∀ v, v ∈ entries ↔ ∃ e ∈ inorder st.tree, e.val = v)
    (hrun : findCollisions rand st names = .ok subs) :
    (∀ p ∈ names.zip subs, p.1.length ≤ p.2.length) ↔ LengthsKept entries names := by
  induction names generalizing st entries subs with
  | nil => exact iff_of_true (by simp) trivial
  | cons name names ih =>
    have hforall : ∀ P : List Byte → Prop, (∀ v ∈ entries, P v) ↔ ∀ e ∈ inorder st.tree, P e.val := by
      intro P
      constructor
      · exact fun hP e he => hP e.val ((hentries _).mpr ⟨e, he, rfl⟩)
      · rintro hP v hv
        obtain ⟨e, he, rfl⟩ := (hentries v).mp hv
        exact hP e he
    rw [LengthsKept]
    obtain ⟨e, he, hc, hca⟩ | ⟨hn, e, st', hval, hca, hst', hmem⟩ := h.findCollision_cases rand name
    · obtain ⟨subs', -, hrun', -⟩ := h.findCollisions_spec rand names
      obtain rfl := Except.ok.inj (hrun.symm.trans (findCollisions_cons hca hrun'))
      have hent : ∃ v ∈ entries, Comparable v name := ⟨e.val, (hentries _).mpr ⟨e, he, rfl⟩, hc⟩
      have hvoid : ¬ ∀ v ∈ entries, ¬ Comparable v name := fun hall => by
        obtain ⟨v, hv, hc⟩ := hent
        exact hall v hv hc
      rw [List.zip_cons_cons, List.forall_mem_cons, ih h hentries hrun', (h.good e he).length_eq,
        h.length_le_iff he hc, hforall fun v => v <+: name → v = name]
      exact and_congr_right fun _ => ⟨fun hk => ⟨fun _ => hk, fun hall => absurd hall hvoid⟩,
        fun hk => hk.1 hent⟩
    · obtain ⟨subs', -, hrun', -⟩ := hst'.findCollisions_spec rand names
      obtain rfl := Except.ok.inj (hrun.symm.trans (findCollisions_cons hca hrun'))
      have hentries' : ∀ v, v ∈ name :: entries ↔ ∃ e ∈ inorder st'.tree, e.val = v := by
        intro v
        rw [List.mem_cons, hentries]
        constructor
        · rintro (rfl | ⟨e', he', rfl⟩)
          · exact ⟨e, (hmem e).mpr (.inl rfl), hval⟩
          · exact ⟨e', (hmem e').mpr (.inr he'), rfl⟩
        · rintro ⟨e', he', rfl⟩
          obtain rfl | he' := (hmem e').mp he'
          · exact .inl hval
          · exact .inr ⟨e', he', rfl⟩
      have hent : ∀ v ∈ entries, ¬ Comparable v name := (hforall _).mpr hn
      have hg := hst'.good e ((hmem e).mpr (.inl rfl))
      rw [List.zip_cons_cons, List.forall_mem_cons, ih hst' hentries' hrun']
      constructor
      · rintro ⟨-, hk⟩
        refine ⟨fun v hv hbegin => absurd (.inl hbegin) (hent v hv), ?_, fun _ => hk⟩
        rintro ⟨v, hv, hc⟩
        exact absurd hc (hent v hv)
      · rintro ⟨-, -, hk⟩
        refine ⟨?_, hk hent⟩
        rw [hg.length_eq, hval]

def PrefixFree (names : List (List Byte)) : Prop := ∀ a ∈ names, ∀ b ∈ names, a <+: b → a = b

/-- Calls of `find_collision` on a new tree always return. The returned names are long enough exactly
when no name gets a shorter entry, and everything holds when no name is a proper beginning of
another one. -/
theorem findCollisions_substitutes (rand : ℕ → ℤ) (draws : ℕ) (names : List (List Byte)) :
    ∃ subs, findCollisions rand ⟨.nil, draws⟩ names = .ok subs ∧ subs.length = names.length ∧
      ((∀ p ∈ names.zip subs, p.1.length ≤ p.2.length) ↔ LengthsKept [] names) ∧
      (PrefixFree names → Substitutes names subs) := by
  have hnil : GoodTree (NameState.tree ⟨.nil, draws⟩) := goodTree_nil
  obtain ⟨subs, tree, hrun, hlen, ht, -, hnew, hresult⟩ := hnil.findCollisions_spec rand names
  refine ⟨subs, hrun, hlen, hnil.length_le_iff_lengthsKept rand (by simp) hrun, ?_⟩
  intro hf
  -- the entry of a name is its own
  have hown : ∀ p ∈ names.zip subs, ∃ e ∈ inorder tree, e.val = p.1 ∧ p.2 = e.sub := by
    intro p hp
    obtain ⟨e, he, hc, hsub⟩ := hresult p hp
    have hn : e.val ∈ names := (hnew e he).resolve_left nofun
    have hp1 : p.1 ∈ names := (List.of_mem_zip hp).1
    refine ⟨e, he, ?_, hsub⟩
    obtain hc | hc := hc
    · exact hf _ hn _ hp1 hc
    · exact (hf _ hp1 _ hn hc).symm
  refine ⟨?_, ?_, ?_⟩
  · intro p hp
    obtain ⟨e, he, hval, hsub⟩ := hown p hp
    rw [hsub, (ht.good e he).length_eq, hval]
  · intro p hp q hq hpq
    obtain ⟨e, he, hval, hsub⟩ := hown p hp
    obtain ⟨e', he', hval', hsub'⟩ := hown q hq
    have hs : e.val = e'.val := by rw [hval, hval', hpq]
    rw [hsub, hsub', ht.eq_of_comparable he he' (.inl (hs ▸ List.prefix_refl _))]
  · intro p hp hfound
    obtain ⟨e, he, hval, hsub⟩ := hown p hp
    have hg := ht.good e he
    rw [← hval] at hfound ⊢
    rw [hsub, List.take_of_length_le hg.length_eq.le]
    exact hg.collision hfound

/-- `ab`, `cd` and `ab` again. -/
theorem findCollisions_distinct : ∃ subs,
    findCollisions (fun i => i) ⟨.nil, 0⟩ [[97#8, 98#8], [99#8, 100#8], [97#8, 98#8]] = .ok subs ∧
      Substitutes [[97#8, 98#8], [99#8, 100#8], [97#8, 98#8]] subs := by
  obtain ⟨subs, hrun, -, -, hsub⟩ := findCollisions_substitutes (fun i => i) 0
    [[97#8, 98#8], [99#8, 100#8], [97#8, 98#8]]
  have hf : PrefixFree [[97#8, 98#8], [99#8, 100#8], [97#8, 98#8]] := by
    rw [PrefixFree]
    decide
  exact ⟨subs, hrun, hsub hf⟩

/-- After `a`, the name `ab` gets the buffer of one byte of `a`. -/
theorem findCollisions_short_entry :
    findCollisions (fun _ => 0) ⟨.nil, 0⟩ [[97#8], [97#8, 98#8]] = .ok [[33#8], [33#8]] ∧
      ¬ Substitutes [[97#8], [97#8, 98#8]] [[33#8], [33#8]] := by
  refine ⟨by decide +kernel, fun h => ?_⟩
  exact absurd (h.length_le ([97#8, 98#8], [33#8]) (by decide)) (by decide)

end Btrfs.Sanitize
