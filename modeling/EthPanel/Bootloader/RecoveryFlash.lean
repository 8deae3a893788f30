import EthPanel.Bootloader.RecoveryLoop

/-!
# Which flash the receiver writes

The bootloader protects itself by arithmetic alone: `erase_slot` and `program_chunk` add
`APP_OFFSET` to what a header said, and the bounds checks before them are all that keeps the
sum inside the slot. Here is what those checks are worth.

An accepted BEGN erases whole sectors of the slot (`eraseSlot_inSlot`). A DATA frame programs
whole pages of the slot exactly when its offset is page-aligned and `off + len` did not wrap
(`programChunk_inSlot_iff`): the check of `recovery_run` tests the wrapped sum and tests no
alignment. `recovery_slotLaw_iff` carries this to whole runs.
-/

namespace EthPanel

open Lts

/-! ## Ranges -/

/-- The unit the chip works in. -/
def FlashOp.unit : FlashOp → ℕ
  | .erase _ _ => flashSector.toNat
  | .program _ _ => flashPageSize.toNat

/-- The range is made of whole units and lies in the app slot. -/
structure FlashOp.InSlot (op : FlashOp) : Prop where
  lower : appOffset.toNat ≤ op.lo
  upper : op.lo + op.size ≤ bootstateAOffset.toNat
  aligned : op.lo % op.unit = 0 ∧ op.size % op.unit = 0

theorem FlashOp.InSlot.not_covers {op : FlashOp} (h : op.InSlot) {i : ℕ}
    (hi : i < appOffset.toNat ∨ bootstateAOffset.toNat ≤ i) : ¬ op.Covers i := by
  have h₁ := h.lower
  have h₂ := h.upper
  unfold FlashOp.Covers
  omega

/-! ## `erase_slot` -/

theorem begnRefused_eq_false {len : UInt32} (h : begnRefused len = false) :
    1 ≤ len ∧ len ≤ appMaxSize := by
  simp only [begnRefused, Bool.or_eq_false_iff, beq_eq_false_iff_ne, ne_eq,
    decide_eq_false_iff_not, gt_iff_lt, UInt32.not_lt] at h
  refine ⟨UInt32.le_iff_toNat_le.mpr (Nat.pos_iff_ne_zero.mpr fun h0 => h.1 ?_), h.2⟩
  exact UInt32.toNat_inj.mp h0

theorem nsec_toNat {len : UInt32} (h : len ≤ appMaxSize) :
    ((len + flashSector - 1) / flashSector).toNat = (len.toNat + 4095) / 4096 := by
  have hle := UInt32.le_iff_toNat_le.mp h
  rw [appMaxSize_toNat] at hle
  rw [UInt32.toNat_div, UInt32.toNat_sub, UInt32.toNat_add, flashSector_toNat,
    show UInt32.toNat 1 = 1 from rfl]
  omega

theorem eraseSlot_lo {len : UInt32} (h : len ≤ appMaxSize) {op : FlashOp}
    (hop : op ∈ eraseSlot len) :
    ∃ i, i < (len.toNat + 4095) / 4096 ∧ op.lo = appOffset.toNat + i * 4096 ∧ op.size = 4096 ∧
      op.unit = 4096 ∧ ∀ f, op.apply f = Mem.fill 0xFF (appOffset.toNat + i * 4096) 4096 f := by
  have hle := UInt32.le_iff_toNat_le.mp h
  rw [appMaxSize_toNat] at hle
  simp only [eraseSlot, List.mem_map, List.mem_range, nsec_toNat h] at hop
  obtain ⟨i, hi, rfl⟩ := hop
  have hlo : (appOffset + i.toUInt32 * flashSector).toNat = appOffset.toNat + i * 4096 := by
    rw [UInt32.toNat_add, UInt32.toNat_mul, Nat.toUInt32, UInt32.toNat_ofNat', flashSector_toNat,
      appOffset_toNat]
    omega
  refine ⟨i, hi, hlo, rfl, rfl, fun f => ?_⟩
  show Mem.fill 0xFF (appOffset + i.toUInt32 * flashSector).toNat 4096 f = _
  rw [hlo]

/-- **An accepted BEGN erases whole sectors of the slot**, the last one included. -/
theorem eraseSlot_inSlot {len : UInt32} (h : begnRefused len = false) {op : FlashOp}
    (hop : op ∈ eraseSlot len) : op.InSlot := by
  have hlen := (begnRefused_eq_false h).2
  obtain ⟨i, hi, hlo, hsize, hunit, _⟩ := eraseSlot_lo hlen hop
  have hle := UInt32.le_iff_toNat_le.mp hlen
  rw [appMaxSize_toNat] at hle
  refine ⟨by omega, ?_, ?_⟩
  · rw [hlo, hsize, appOffset_toNat, bootstateAOffset_toNat]
    omega
  · rw [hlo, hsize, hunit, appOffset_toNat]
    omega

theorem applyOps_of_erased {ops : List FlashOp} {i : ℕ}
    (herase : ∀ op ∈ ops, op.Covers i → ∀ f, op.apply f i = 0xFF)
    (hcov : ∃ op ∈ ops, op.Covers i) : ∀ f, applyOps ops f i = 0xFF := by
  induction ops with
  | nil => obtain ⟨_, hop, _⟩ := hcov; cases hop
  | cons op ops ih =>
    intro f
    rw [applyOps_cons]
    by_cases hlater : ∃ op ∈ ops, op.Covers i
    · exact ih (fun op hop => herase op (List.mem_cons_of_mem _ hop)) hlater _
    · have hop : op.Covers i := by
        obtain ⟨op', hop', hcov'⟩ := hcov
        rcases List.mem_cons.mp hop' with rfl | hmem
        · exact hcov'
        · exact absurd ⟨op', hmem, hcov'⟩ hlater
      rw [applyOps_of_not_covers fun o ho hc => hlater ⟨o, ho, hc⟩]
      exact herase op List.mem_cons_self hop f

theorem eraseSlot_blank {len : UInt32} (h : len ≤ appMaxSize) (f : Flash) {i : ℕ}
    (hi : i < (len.toNat + 4095) / 4096 * 4096) :
    applyOps (eraseSlot len) f (appOffset.toNat + i) = 0xFF := by
  refine applyOps_of_erased (fun op hop hc f => ?_) ?_ f
  · obtain ⟨j, _, hlo, hsize, _, happly⟩ := eraseSlot_lo h hop
    obtain ⟨h₁, h₂⟩ := hc
    rw [hlo] at h₁ h₂
    rw [hsize] at h₂
    rw [happly]
    exact Mem.fill_of_mem h₁ h₂
  · have hle := UInt32.le_iff_toNat_le.mp h
    rw [appMaxSize_toNat] at hle
    have hmem : FlashOp.erase (appOffset + (i / 4096).toUInt32 * flashSector) flashSector
        ∈ eraseSlot len := by
      refine List.mem_map.mpr ⟨i / 4096, List.mem_range.mpr ?_, rfl⟩
      rw [nsec_toNat h]
      omega
    refine ⟨_, hmem, ?_⟩
    have hlo : (appOffset + (i / 4096).toUInt32 * flashSector).toNat
        = appOffset.toNat + i / 4096 * 4096 := by
      rw [UInt32.toNat_add, UInt32.toNat_mul, Nat.toUInt32, UInt32.toNat_ofNat', flashSector_toNat,
        appOffset_toNat]
      omega
    simp only [FlashOp.Covers, FlashOp.lo, FlashOp.size, hlo, flashSector_toNat]
    omega

/-! ## `program_chunk` -/

theorem pageMask (x : UInt32) : x &&& ~~~(flashPageSize - 1) = (x >>> 8) <<< 8 := by
  have hmask : ∀ i < 32, (~~~(flashPageSize - 1)).toBitVec.getLsbD i = decide (8 ≤ i) := by decide
  refine UInt32.toBitVec_inj.mp (BitVec.eq_of_getLsbD_eq fun i hi => ?_)
  rw [UInt32.toBitVec_and, BitVec.getLsbD_and, hmask i hi]
  by_cases h : 8 ≤ i
  · have hadd : 8 + (i - 8) = i := by omega
    simp [h, hi, hadd]
  · simp [h]

theorem pageLen_toNat {len : UInt32} (h : len.toNat ≤ 1024) :
    (pageLen len).toNat = (len.toNat + 255) / 256 * 256 := by
  have hsum : (len + (flashPageSize - 1)).toNat = len.toNat + 255 := by
    rw [UInt32.toNat_add, show (flashPageSize - 1).toNat = 255 from by decide]
    exact Nat.mod_eq_of_lt (by omega)
  unfold pageLen
  rw [pageMask, UInt32.toNat_shiftLeft, UInt32.toNat_shiftRight, hsum]
  simp [Nat.shiftLeft_eq, Nat.shiftRight_eq_div_pow]
  omega

theorem programChunk_size (off : UInt32) {len : UInt32} {chunk : List UInt8} (h : len.toNat ≤ 1024)
    (hc : chunk.length = len.toNat) :
    (programChunk off chunk len).size = (len.toNat + 255) / 256 * 256 := by
  simp only [programChunk, FlashOp.size, List.length_append, List.length_replicate, hc,
    pageLen_toNat h]
  omega

/-- **What the bounds check leaves open.** An accepted DATA frame programs whole pages of the
slot exactly when its offset is page-aligned and the sum in the check did not wrap. -/
theorem programChunk_inSlot_iff {off len : UInt32} {chunk : List UInt8}
    (h : dataRefused off len = false) (hc : chunk.length = len.toNat) :
    (programChunk off chunk len).InSlot ↔
      off.toNat % 256 = 0 ∧ off.toNat + len.toNat < 2 ^ 32 := by
  obtain ⟨h₁, h₂, h₃⟩ := dataRefused_eq_false h
  have hsize := programChunk_size off h₂ hc
  have hlo : (programChunk off chunk len).lo = (appOffset.toNat + off.toNat) % 2 ^ 32 :=
    UInt32.toNat_add _ _
  have hunit : (programChunk off chunk len).unit = 256 := rfl
  have hoff := off.toNat_lt
  rw [appMaxSize_toNat] at h₃
  rw [appOffset_toNat] at hlo
  constructor
  · rintro ⟨hl, hu, ha, _⟩
    rw [hunit] at ha
    rw [hlo] at hl ha
    rw [hlo, hsize] at hu
    rw [appOffset_toNat] at hl
    rw [bootstateAOffset_toNat] at hu
    omega
  · rintro ⟨ha, hw⟩
    refine ⟨?_, ?_, ?_⟩
    · rw [hlo, appOffset_toNat]; omega
    · rw [hlo, hsize, bootstateAOffset_toNat]; omega
    · rw [hlo, hsize, hunit]; omega

/-- What programming a chunk within the slot does to a byte of the slot: the padding moves no
bit. -/
theorem programChunk_apply (off : UInt32) {len : UInt32} {chunk : List UInt8} (f : Flash)
    (hc : chunk.length = len.toNat) (hfit : off.toNat + len.toNat ≤ appMaxSize.toNat) (i : ℕ) :
    (programChunk off chunk len).apply f (appOffset.toNat + i)
      = if h : off.toNat ≤ i ∧ i < off.toNat + chunk.length then
          f (appOffset.toNat + i) &&& chunk[i - off.toNat]
        else f (appOffset.toNat + i) := by
  rw [appMaxSize_toNat] at hfit
  have hlo : (appOffset + off).toNat = appOffset.toNat + off.toNat := by
    rw [UInt32.toNat_add, appOffset_toNat]
    omega
  unfold programChunk
  show Mem.merge (· &&& ·) (appOffset + off).toNat _ f _ = _
  rw [hlo]
  have hidx : appOffset.toNat + i - (appOffset.toNat + off.toNat) = i - off.toNat := by omega
  by_cases h : off.toNat ≤ i ∧ i < off.toNat + chunk.length
  · rw [dif_pos h, Mem.merge_of_mem (by omega) (by rw [List.length_append]; omega)]
    simp only [hidx]
    rw [List.getElem_append_left (by omega)]
  · rw [dif_neg h]
    refine Mem.merge_of_identity (fun b => UInt8.and_neg_one) fun hi hle => ?_
    rw [List.getElem_append_right (by omega)]
    exact List.getElem_replicate _

/-! ## Whole runs -/

/-- A DATA frame that is acted on within the slot: page-aligned, and its end below `2^32`. -/
def Frame.PageInSlot : Frame → Prop
  | .data off len _ => off.toNat % 256 = 0 ∧ off.toNat + len.toNat < 2 ^ 32
  | _ => True

/-- **The step lemma**: what a turn erases or programs lies in the slot exactly when the frame
it read is so placed. -/
theorem slotOps_inSlot_iff {rx rest : List Rx} {fr : Frame}
    (h : readFrame rx = some (fr, rest)) : (∀ op ∈ slotOps fr, op.InSlot) ↔ fr.PageInSlot := by
  cases fr with
  | begn len crc =>
    refine iff_of_true (fun op hop => ?_) trivial
    simp only [slotOps] at hop
    cases hlen : begnRefused len <;> simp only [hlen] at hop
    · exact eraseSlot_inSlot hlen hop
    · cases hop
  | data off len chunk =>
    obtain ⟨h₁, h₂⟩ := readFrame_data h
    simp only [slotOps, List.mem_singleton, forall_eq]
    exact programChunk_inSlot_iff h₁ h₂
  | _ => exact iff_of_true (fun op hop => by cases hop) trivial

/-- **Within its own turn the receiver moves no byte of the boot-state**: an erase stays in the
slot, and what a DATA frame programs past its payload is `0xFF`. -/
theorem slotOps_keeps {rx rest : List Rx} {fr : Frame} (h : readFrame rx = some (fr, rest))
    {i : ℕ} (hi : bootstateAOffset.toNat ≤ i) {op : FlashOp} (hop : op ∈ slotOps fr) :
    op.Keeps i := by
  cases fr with
  | begn len crc =>
    simp only [slotOps] at hop
    cases hlen : begnRefused len <;> simp only [hlen] at hop
    · exact FlashOp.keeps_of_not_covers ((eraseSlot_inSlot hlen hop).not_covers (Or.inr hi))
    · cases hop
  | data off len chunk =>
    obtain ⟨h₁, h₂⟩ := readFrame_data h
    obtain ⟨_, h₃, h₄⟩ := dataRefused_eq_false h₁
    have hoff := off.toNat_lt
    have hlo : (appOffset + off).toNat = (appOffset.toNat + off.toNat) % 2 ^ 32 :=
      UInt32.toNat_add _ _
    rw [appOffset_toNat] at hlo
    rw [appMaxSize_toNat] at h₄
    rw [bootstateAOffset_toNat] at hi
    simp only [slotOps, List.mem_singleton] at hop
    subst hop
    refine FlashOp.keeps_program fun hk hle => ?_
    rw [List.getElem_append_right (by omega)]
    exact List.getElem_replicate _
  | _ => cases hop

theorem sectors_execFrame {s : Recv} {rx rest : List Rx} {fr : Frame}
    (h : readFrame rx = some (fr, rest)) (hs : savedRecord s fr = none) :
    sectors (execFrame s fr).1.flash = sectors s.flash := by
  rw [execFrame_flash_of_none hs]
  exact sectors_congr fun i hi => applyOps_of_keeps fun op hop => slotOps_keeps h hi hop

/-- The immutability law of one run of the receiver, from flash `f₀` over input `rx`. -/
structure SlotLaw (f₀ : Flash) (rx : List Rx) (l : List Frame) (c : RecvConf) : Prop where
  /-- Every range erased or programmed is whole units of the slot. -/
  ranges : ∀ fr ∈ l, ∀ op ∈ slotOps fr, op.InSlot
  /-- No byte of the bootloader changes. -/
  bootloader : ∀ i < appOffset.toNat, c.1.flash i = f₀ i
  /-- The boot-state sectors change in no turn but one that ends in `boot_state_write`. -/
  bootState : ∀ pre fr post c₁ c₂, l = pre ++ fr :: post →
    Run RecvStep (Recv.start f₀, rx) pre c₁ → RecvStep c₁ fr c₂ → savedRecord c₁.1 fr = none →
    ∀ i, bootstateAOffset.toNat ≤ i → c₂.1.flash i = c₁.1.flash i

theorem RecvStep.below_appOffset {c c' : RecvConf} {fr : Frame} (h : RecvStep c fr c')
    (hops : ∀ op ∈ slotOps fr, op.InSlot) {i : ℕ} (hi : i < appOffset.toNat) :
    c'.1.flash i = c.1.flash i := by
  rw [h.2.2]
  cases hs : savedRecord c.1 fr with
  | none =>
    rw [execFrame_flash_of_none hs]
    exact applyOps_of_not_covers fun op hop => (hops op hop).not_covers (Or.inl hi)
  | some st =>
    rw [(execFrame_flash_of_some hs).2.2.2]
    exact (CutWrite.of_complete _ _).below (Nat.lt_trans hi (by decide))

/-- **When the slot is all the receiver writes.** A run keeps the immutability law exactly when
every DATA frame it acts on is page-aligned and ends below `2^32`. -/
theorem recovery_slotLaw_iff {f₀ : Flash} {rx : List Rx} {l : List Frame} {c : RecvConf}
    (r : Run RecvStep (Recv.start f₀, rx) l c) :
    SlotLaw f₀ rx l c ↔ ∀ fr ∈ l, fr.PageInSlot := by
  have hread : ∀ fr ∈ l, (∀ op ∈ slotOps fr, op.InSlot) ↔ fr.PageInSlot := by
    intro fr hfr
    obtain ⟨_, _, _, _, _, _, hstep, _⟩ := r.step_of_mem hfr
    exact slotOps_inSlot_iff hstep.2.1
  constructor
  · intro h fr hfr
    exact (hread fr hfr).mp (h.ranges fr hfr)
  · intro h
    have hops : ∀ fr ∈ l, ∀ op ∈ slotOps fr, op.InSlot := by
      intro fr hfr
      exact (hread fr hfr).mpr (h fr hfr)
    refine ⟨hops, ?_, ?_⟩
    · intro i hi
      exact r.invariant_of_forall (I := fun c => c.1.flash i = f₀ i)
        (fun _ _ _ hI hop hstep => (hstep.below_appOffset hop hi).trans hI) hops rfl
    · intro pre fr post c₁ c₂ hl _ hstep hs i hi
      have hfr : fr ∈ l := by rw [hl]; simp
      rw [hstep.2.2, execFrame_flash_of_none hs]
      exact applyOps_of_not_covers fun op hop => (hops fr hfr op hop).not_covers (Or.inr hi)

theorem recovery_slotLaw_iff_firstPage :
    SlotLaw (fun _ => 0xFF)
      (sent ([0x44, 0x41, 0x54, 0x41] ++ le32 0 ++ le32 1 ++ le32 0x09B9265B ++ [0x2A]))
      [.data 0 1 [0x2A]]
      ((execFrame (Recv.start fun _ => 0xFF) (.data 0 1 [0x2A])).1, []) :=
  (recovery_slotLaw_iff (.single ⟨rfl, by decide +kernel, rfl⟩)).mpr fun fr hfr => by
    rw [List.mem_singleton.mp hfr]
    exact ⟨by decide, by decide⟩

/-- A DATA frame of 256 zero bytes for offset `2^32 - 256`, its chunk CRC right. -/
def wrapFrame : List Rx :=
  sent ([0x44, 0x41, 0x54, 0x41] ++ le32 0xFFFFFF00 ++ le32 256 ++ le32 0x0D968558 ++
    List.replicate 256 0)

theorem wrapFrame_step : RecvStep (Recv.start fun _ => 0xFF, wrapFrame)
    (.data 0xFFFFFF00 256 (List.replicate 256 0))
    ((execFrame (Recv.start fun _ => 0xFF) (.data 0xFFFFFF00 256 (List.replicate 256 0))).1, []) :=
  ⟨rfl, by decide +kernel, rfl⟩

/-- **The check can be wrapped past**: one well-formed DATA frame clears the bootloader's last
page, so no law holds of every input. -/
theorem slotLaw_wrap : ¬ ∀ (f₀ : Flash) (rx : List Rx) (l : List Frame) (c : RecvConf),
    Run RecvStep (Recv.start f₀, rx) l c → SlotLaw f₀ rx l c := by
  intro h
  have hlaw := h _ _ _ _ (.single wrapFrame_step)
  have hbyte := hlaw.bootloader 0x3FF00 (by decide)
  revert hbyte
  decide +kernel

end EthPanel
