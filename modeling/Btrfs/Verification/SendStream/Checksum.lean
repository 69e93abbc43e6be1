import Btrfs.Model.Crc32c
import Btrfs.Verification.Shared.Crc

/-! # The table of `crc32c.c` computes the Castagnoli code -/

namespace Btrfs.Crc32c

open Raid56

/-- The Castagnoli polynomial, with its bits reversed. -/
def castagnoli : BitVec 32 := 0x82f63b78#32

theorem crc32cTable_eq : ∀ i < 256,
    crc32cTable.getD i 0 = Crc.bitSteps castagnoli 8 (BitVec.ofNat 32 i) := by
  decide +kernel

theorem low_byte_mask (i : ℕ) : (0xff#32 : BitVec 32).getLsbD i = decide (i < 8 ∧ i < 32) := by
  by_cases h : i < 32
  · have hall : ∀ i < 32, (0xff#32 : BitVec 32).getLsbD i = decide (i < 8 ∧ i < 32) := by decide
    exact hall i h
  · rw [BitVec.getLsbD_of_ge _ _ (not_lt.mp h)]
    simp [h]

theorem shift_xor_byte (crc : BitVec 32) (data : Byte) :
    (crc ^^^ data.setWidth 32) >>> 8 = crc >>> 8 := by
  ext i hi
  simp only [BitVec.getElem_ushiftRight, BitVec.getLsbD_xor, BitVec.getLsbD_setWidth]
  rw [BitVec.getLsbD_of_ge data _ (by omega)]
  simp

theorem crc32cByte_eq (crc : BitVec 32) (data : Byte) :
    crc32cByte crc data = Crc.byteStep castagnoli crc data := by
  have hlt : ((crc ^^^ data.setWidth 32) &&& 0xff#32).toNat < 256 := by
    rw [BitVec.toNat_and]
    exact Nat.lt_of_le_of_lt Nat.and_le_right (by decide)
  have hsteps := Crc.bitSteps_eight castagnoli (crc ^^^ data.setWidth 32) 0xff#32 low_byte_mask
  rw [shift_xor_byte] at hsteps
  have htable := crc32cTable_eq _ hlt
  rw [BitVec.ofNat_toNat, BitVec.setWidth_eq] at htable
  calc crc32cByte crc data
      = crc32cTable.getD ((crc ^^^ data.setWidth 32) &&& 0xff#32).toNat 0 ^^^ (crc >>> 8) :=
        crc32cByte.eq_1 crc data
    _ = Crc.bitSteps castagnoli 8 ((crc ^^^ data.setWidth 32) &&& 0xff#32) ^^^ (crc >>> 8) :=
        congrArg (· ^^^ (crc >>> 8)) htable
    _ = Crc.byteStep castagnoli crc data := hsteps.symm

theorem crc32c_eq (crc : BitVec 32) (data : List Byte) :
    crc32c crc data = Crc.register castagnoli crc data := by
  have hb : crc32cByte = Crc.byteStep castagnoli := by
    funext crc b
    exact crc32cByte_eq crc b
  exact congrArg (fun step => data.foldl step crc) hb

end Btrfs.Crc32c
