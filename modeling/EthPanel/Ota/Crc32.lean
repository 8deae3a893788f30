import EthPanel.Lib.Lfsr

/-!
# `ota/crc32.c`

The reflected CRC-32, bit by bit, as the bootloader and the application compute it over a
chunk, over the image in the slot and over a boot-state record.

`crcBit` is one turn of the inner loop: the mask is the source's
`(uint32_t)(-(int32_t)(crc & 1u))`, all ones when the low bit is set. `crcBit_toBitVec` says it
is a step of the feedback register of `Lib/Lfsr.lean`, and everything else here is read off
that.
-/

namespace EthPanel

/-- `for k: crc = (crc >> 1) ^ (0xEDB88320u & (uint32_t)(-(int32_t)(crc & 1u)))`. -/
def crcBit (crc : UInt32) : UInt32 :=
  (crc >>> 1) ^^^ (0xEDB88320 &&& (-(crc &&& 1).toInt32).toUInt32)

/-- One byte: `crc ^= data[i]`, then the eight turns. -/
def crcByte (crc : UInt32) (b : UInt8) : UInt32 := crcBit^[8] (crc ^^^ b.toUInt32)

/-- `ota_crc32(data, len)`, the buffer given as the list of its bytes. -/
def otaCrc32 (data : List UInt8) : UInt32 := data.foldl crcByte 0xFFFFFFFF ^^^ 0xFFFFFFFF

/-- The check value every CRC-32 catalogue gives: that of the digits `123456789`. -/
example : otaCrc32 [0x31, 0x32, 0x33, 0x34, 0x35, 0x36, 0x37, 0x38, 0x39] = 0xCBF43926 := by
  decide +kernel

/-! ## The register -/

/-- The source's polynomial constant. -/
def crcPoly : BitVec 32 := 0xEDB88320#32

theorem and_one_cases (crc : UInt32) :
    crc &&& 1 = if crc.toBitVec.getLsbD 0 then 1 else 0 := by
  refine UInt32.toBitVec_inj.mp (BitVec.eq_of_getLsbD_eq fun i hi => ?_)
  cases hc : crc.toBitVec.getLsbD 0 <;> simp <;> grind

theorem crcBit_toBitVec (crc : UInt32) :
    (crcBit crc).toBitVec = Lfsr.step crcPoly crc.toBitVec := by
  unfold crcBit Lfsr.step
  rw [and_one_cases]
  cases hc : crc.toBitVec.getLsbD 0 with
  | false => simp
  | true =>
    -- The mask is all ones, so the AND is the polynomial.
    have hmask : (0xEDB88320 &&& (-(1 : UInt32).toInt32).toUInt32 : UInt32) = 0xEDB88320 := by
      decide
    simp only [if_true, hmask, crcPoly]
    simp

theorem crcBit_iterate_toBitVec (n : ℕ) (crc : UInt32) :
    (crcBit^[n] crc).toBitVec = Lfsr.steps crcPoly n crc.toBitVec := by
  induction n generalizing crc with
  | zero => rfl
  | succ n ih => rw [Function.iterate_succ_apply, ih, crcBit_toBitVec, Lfsr.steps_succ]

theorem crcByte_toBitVec (crc : UInt32) (b : UInt8) :
    (crcByte crc b).toBitVec = Lfsr.steps crcPoly 8 (crc.toBitVec ^^^ b.toUInt32.toBitVec) := by
  rw [crcByte, crcBit_iterate_toBitVec, UInt32.toBitVec_xor]

/-! ## Nothing is lost in the register -/

theorem crcBit_iterate_injective (n : ℕ) : Function.Injective (crcBit^[n]) := by
  intro c d h
  have hb : Lfsr.steps crcPoly n c.toBitVec = Lfsr.steps crcPoly n d.toBitVec := by
    rw [← crcBit_iterate_toBitVec, ← crcBit_iterate_toBitVec, h]
  exact UInt32.toBitVec_inj.mp (Lfsr.steps_injective (by decide) n hb)

/-- For one byte, two running values come together only if they were equal. -/
theorem crcByte_injective (b : UInt8) : Function.Injective fun crc => crcByte crc b := by
  intro c d h
  exact (UInt32.xor_left_inj _).mp (crcBit_iterate_injective 8 h)

/-- … and from one running value, two bytes never do. -/
theorem crcByte_injective_byte (crc : UInt32) : Function.Injective (crcByte crc) := by
  intro b d h
  have := (UInt32.xor_right_inj _).mp (crcBit_iterate_injective 8 h)
  simpa using congrArg UInt32.toUInt8 this

theorem foldl_crcByte_injective (bs : List UInt8) :
    Function.Injective fun crc => bs.foldl crcByte crc := by
  induction bs with
  | nil => exact fun _ _ h => h
  | cons b bs ih => exact fun _ _ h => crcByte_injective b (ih h)

/-- **One altered byte is always seen**: two buffers that differ in exactly one byte have
different CRCs. -/
theorem otaCrc32_ne_of_byte_ne (pre post : List UInt8) {b d : UInt8} (h : b ≠ d) :
    otaCrc32 (pre ++ b :: post) ≠ otaCrc32 (pre ++ d :: post) := by
  intro heq
  unfold otaCrc32 at heq
  have hfold := (UInt32.xor_left_inj _).mp heq
  rw [List.foldl_append, List.foldl_append, List.foldl_cons, List.foldl_cons] at hfold
  exact h (crcByte_injective_byte _ (foldl_crcByte_injective post hfold))

/-! ## Bursts -/

/-- Two buffers of one length that differ, and only within four consecutive bytes. -/
structure Burst (a b : List UInt8) : Prop where
  length : a.length = b.length
  ne : a ≠ b
  window : ∃ k, ∀ i, a[i]? ≠ b[i]? → k ≤ i ∧ i < k + 4

theorem foldl_crcByte_toBitVec (bs : List UInt8) (crc : UInt32) :
    (bs.foldl crcByte crc).toBitVec
      = Lfsr.feed crcPoly 8 crc.toBitVec (bs.map fun b => b.toUInt32.toBitVec) := by
  unfold Lfsr.feed
  induction bs generalizing crc with
  | nil => rfl
  | cons b bs ih => rw [List.foldl_cons, ih, crcByte_toBitVec, List.map_cons, List.foldl_cons]

/-- Up to four bytes fit in the register. -/
theorem foldl_crcByte_window {bs ds : List UInt8} (hlen : bs.length = ds.length)
    (hfit : bs.length ≤ 4) {crc : UInt32} (h : bs.foldl crcByte crc = ds.foldl crcByte crc) :
    bs = ds := by
  have hbyte : ∀ cs : List UInt8, ∀ x ∈ cs.map (fun b => b.toUInt32.toBitVec), ∀ i, 8 ≤ i →
      x.getLsbD i = false := by
    intro cs x hx i hi
    obtain ⟨b, _, rfl⟩ := List.mem_map.mp hx
    have hb : b.toBitVec.getLsbD i = false := BitVec.getLsbD_of_ge _ _ hi
    simp [hb]
  have heq := congrArg UInt32.toBitVec h
  rw [foldl_crcByte_toBitVec, foldl_crcByte_toBitVec] at heq
  have hmap := Lfsr.feed_injective (by decide) (by simpa using hlen) (hbyte bs) (hbyte ds)
    (by rw [List.length_map]; omega) heq
  refine (List.map_inj_right fun b d hbd => ?_).mp hmap
  simpa using congrArg UInt32.toUInt8 (UInt32.toBitVec_inj.mp hbd)

/-- A burst is a window of up to four bytes with the same bytes before and after it. -/
theorem Burst.split {a b : List UInt8} (h : Burst a b) :
    ∃ pre x y post, a = pre ++ (x ++ post) ∧ b = pre ++ (y ++ post) ∧ x.length = y.length ∧
      x.length ≤ 4 := by
  obtain ⟨k, hk⟩ := h.window
  have hout : ∀ i, i < k ∨ k + 4 ≤ i → a[i]? = b[i]? := by
    intro i hi
    by_contra hne
    have := hk i hne
    omega
  have hpre : a.take k = b.take k := by
    refine List.ext_getElem? fun i => ?_
    rw [List.getElem?_take, List.getElem?_take]
    split
    · exact hout i (Or.inl ‹_›)
    · rfl
  have hpost : a.drop (k + 4) = b.drop (k + 4) := by
    refine List.ext_getElem? fun i => ?_
    rw [List.getElem?_drop, List.getElem?_drop]
    exact hout _ (Or.inr (by omega))
  have hsplit : ∀ c : List UInt8, c = c.take k ++ ((c.drop k).take 4 ++ c.drop (k + 4)) := by
    intro c
    rw [← List.drop_drop, List.take_append_drop, List.take_append_drop]
  refine ⟨a.take k, (a.drop k).take 4, (b.drop k).take 4, a.drop (k + 4), hsplit a, ?_, ?_, ?_⟩
  · rw [hpre, hpost]
    exact hsplit b
  · rw [List.length_take, List.length_take, List.length_drop, List.length_drop, h.length]
  · rw [List.length_take]
    omega

/-- **A burst of up to 32 bits is always seen.** -/
theorem otaCrc32_ne_of_burst {a b : List UInt8} (h : Burst a b) : otaCrc32 a ≠ otaCrc32 b := by
  obtain ⟨pre, x, y, post, rfl, rfl, hlen, hfit⟩ := h.split
  intro heq
  unfold otaCrc32 at heq
  have hfold := (UInt32.xor_left_inj _).mp heq
  rw [List.foldl_append, List.foldl_append, List.foldl_append, List.foldl_append] at hfold
  obtain rfl := foldl_crcByte_window hlen hfit (foldl_crcByte_injective post hfold)
  exact h.ne rfl

@[simp] theorem otaCrc32_nil : otaCrc32 [] = 0 := by decide

/-! ## The byte step from a table -/

/-- The byte step is a table word for the low octet of `crc ^ b` and `crc` moved down eight. -/
theorem crcByte_eq_table (crc : UInt32) (b : UInt8) :
    crcByte crc b = crcBit^[8] ((crc ^^^ b.toUInt32) &&& 0xFF) ^^^ (crc >>> 8) := by
  apply UInt32.toBitVec_inj.mp
  have hmask : ∀ i < 32, (0xFF#32).getLsbD i = decide (i < 8) := by decide
  have hbyte : b.toUInt32.toBitVec >>> 8 = 0#32 := by
    refine BitVec.eq_of_getLsbD_eq fun i _ => ?_
    simp
  rw [crcByte_toBitVec, Lfsr.steps_split 8 0xFF#32 hmask, BitVec.ushiftRight_xor_distrib, hbyte,
    BitVec.xor_zero, UInt32.toBitVec_xor, crcBit_iterate_toBitVec]
  rfl

end EthPanel
