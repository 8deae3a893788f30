import EthPanel.Lib.Division
import EthPanel.Host.Flasher
import Mathlib.Algebra.BigOperators.Group.Finset.Basic

/-!
# The standard CRC-32

The CRC-32 of the catalogues, by polynomial division and with no register in it
(`standardCrc32`): the message as a polynomial over GF(2), moved up by 32 and started from all
ones, its remainder by the generator, reflected and complemented. The bit-serial loop of
`ota/crc32.c` computes it, and so does the table loop of `zlib.crc32`.
-/

namespace EthPanel

open Polynomial

/-- The bits of a message: of each byte the least significant first. -/
def messageBits (data : List UInt8) : List Bool :=
  data.flatMap fun b => (List.range 8).map b.toBitVec.getLsbD

/-- `M(x)`: the first bit is the coefficient of the highest power. -/
noncomputable def messagePoly (data : List UInt8) : (ZMod 2)[X] :=
  Lfsr.bitsPoly (messageBits data)

/-- `I(x) = x^31 + ... + x + 1`. -/
noncomputable def initPoly : (ZMod 2)[X] := ∑ i ∈ Finset.range 32, X ^ i

noncomputable def crcGenerator : (ZMod 2)[X] :=
  X ^ 32 + X ^ 26 + X ^ 23 + X ^ 22 + X ^ 16 + X ^ 12 + X ^ 11 + X ^ 10 + X ^ 8 + X ^ 7 + X ^ 5
    + X ^ 4 + X ^ 2 + X + 1

/-- The coefficients below `x^32` as a word: bit `i` is that of `x^i`. -/
noncomputable def coeffWord (p : (ZMod 2)[X]) : BitVec 32 :=
  (BitVec.ofBoolListLE ((List.range 32).map fun i => decide (p.coeff i = 1))).setWidth 32

noncomputable def standardCrc32 (data : List UInt8) : BitVec 32 :=
  ~~~ (coeffWord ((messagePoly data * X ^ 32 + initPoly * X ^ (8 * data.length))
        %ₘ crcGenerator)).reverse

/-! ## The constants of the source -/

/-- `0xEDB88320` is the generator, its powers from the top bit down. -/
theorem gen_crcPoly : Lfsr.gen crcPoly = crcGenerator := by
  have hbits : Lfsr.lowBits 32 crcPoly =
      [false, false, false, false, false, true, false, false, true, true, false, false, false,
        false, false, true, false, false, false, true, true, true, false, true, true, false, true,
        true, false, true, true, true] := by decide
  rw [Lfsr.gen, Lfsr.reg, hbits]
  simp [Lfsr.bitsPoly, crcGenerator]
  ring

/-- `0xFFFFFFFF` is `I(x)`. -/
theorem reg_allOnes : Lfsr.reg (0xFFFFFFFF#32) = initPoly := by
  ext i
  have hones : (0xFFFFFFFF#32) = BitVec.allOnes 32 := by decide
  rw [hones, Lfsr.coeff_reg, initPoly, finsetSum_coeff]
  simp only [coeff_X_pow, Finset.sum_ite_eq, Finset.mem_range]
  split
  · rw [BitVec.getLsbD_allOnes, decide_eq_true (by omega : 32 - 1 - i < 32)]
    rfl
  · rfl

theorem coeffWord_reg (c : BitVec 32) : (coeffWord (Lfsr.reg c)).reverse = c := by
  refine BitVec.eq_of_getLsbD_eq fun i hi => ?_
  have hidx : 32 - 1 - (32 - 1 - i) = i := by omega
  have hlt : 32 - 1 - i < 32 := by omega
  have hcoeff : (Lfsr.reg c).coeff (32 - 1 - i) = ((c.getLsbD i).toNat : ZMod 2) := by
    rw [Lfsr.coeff_reg, if_pos hlt, hidx]
  rw [BitVec.getLsbD_reverse, BitVec.getMsbD_eq_getLsbD, coeffWord, BitVec.getLsbD_setWidth,
    BitVec.getLsbD_ofBoolListLE, List.getD_eq_getElem?_getD, List.getElem?_map,
    List.getElem?_range hlt, Option.map_some, Option.getD_some, hcoeff]
  cases c.getLsbD i <;> simp [hi, hlt]

/-! ## The loop -/

theorem flatMap_lowBits (data : List UInt8) :
    (data.map fun b => b.toUInt32.toBitVec).flatMap (Lfsr.lowBits 8) = messageBits data := by
  rw [List.flatMap_map, messageBits]
  refine congrArg (fun f => data.flatMap f) (funext fun b => ?_)
  refine List.map_congr_left fun i hi => ?_
  have hlt : i < 8 := List.mem_range.mp hi
  simp [show i < 32 by omega]

theorem reg_foldl_crcByte (data : List UInt8) :
    Lfsr.reg (data.foldl crcByte 0xFFFFFFFF).toBitVec
      = (messagePoly data * X ^ 32 + initPoly * X ^ (8 * data.length)) %ₘ crcGenerator := by
  have hbyte : ∀ x ∈ data.map (fun b => b.toUInt32.toBitVec), ∀ i, 8 ≤ i →
      x.getLsbD i = false := by
    intro x hx i hi
    obtain ⟨b, _, rfl⟩ := List.mem_map.mp hx
    have hb : b.toBitVec.getLsbD i = false := BitVec.getLsbD_of_ge _ _ hi
    simp [hb]
  have hinit : (0xFFFFFFFF : UInt32).toBitVec = 0xFFFFFFFF#32 := rfl
  rw [foldl_crcByte_toBitVec, Lfsr.reg_feed (by decide) hbyte, flatMap_lowBits, gen_crcPoly, hinit,
    reg_allOnes, List.length_map, messagePoly]

/-- **The loop of the source is the polynomial division.** -/
theorem otaCrc32_toBitVec (data : List UInt8) :
    (otaCrc32 data).toBitVec = standardCrc32 data := by
  have hones : (0xFFFFFFFF : UInt32).toBitVec = BitVec.allOnes 32 := by decide
  rw [standardCrc32, ← reg_foldl_crcByte, coeffWord_reg, otaCrc32, UInt32.toBitVec_xor, hones,
    BitVec.xor_allOnes]

theorem zlibCrc32_toBitVec (data : List UInt8) :
    (zlibCrc32 data).toBitVec = standardCrc32 data := by
  rw [zlibCrc32_eq, otaCrc32_toBitVec]

/-- **`ota_crc32` is the standard CRC-32**, so a host whose `zlib.crc32` is that function finds
what the device finds, for a chunk and for an image. -/
theorem otaCrc32_standard (zlib : List UInt8 → UInt32)
    (hz : ∀ data, (zlib data).toBitVec = standardCrc32 data) (data : List UInt8) :
    (otaCrc32 data).toBitVec = standardCrc32 data ∧ zlib data = otaCrc32 data := by
  refine ⟨otaCrc32_toBitVec data, UInt32.toBitVec_inj.mp ?_⟩
  rw [hz, otaCrc32_toBitVec]

theorem otaCrc32_standard_zlib :
    (otaCrc32 [0x2A]).toBitVec = standardCrc32 [0x2A] ∧ zlibCrc32 [0x2A] = otaCrc32 [0x2A] :=
  otaCrc32_standard zlibCrc32 zlibCrc32_toBitVec [0x2A]

end EthPanel
