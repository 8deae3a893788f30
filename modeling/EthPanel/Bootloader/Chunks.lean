import EthPanel.Bootloader.RecoveryFlash

/-!
# Chunks in any order

Between the BEGN and the END! of one image the host may send a chunk again, out of order or
overlapping another, and the receiver may refuse some. NOR flash only clears bits, and every chunk
of the same image clears the same ones, so what is in the slot depends on which bytes some chunk
has brought and on nothing else (`Filled`).
-/

namespace EthPanel

open Lts

/-- A turn that brings a part of `image`, or nothing. -/
def Frame.PartOf (image : List UInt8) : Frame → Prop
  | .data off len chunk => off.toNat % flashPageSize.toNat = 0 ∧
      off.toNat + len.toNat ≤ image.length ∧ chunk = (image.drop off.toNat).take len.toNat
  | .dataNak _ | .dataCut | .sync | .idle => True
  | _ => False

/-- The turn programs byte `i` of the slot. -/
def Frame.Brings : Frame → ℕ → Prop
  | .data off len _, i => off.toNat ≤ i ∧ i < off.toNat + len.toNat
  | _, _ => False

def Brought (l : List Frame) (i : ℕ) : Prop := ∃ fr ∈ l, fr.Brings i

/-- The whole sectors that `erase_slot` erases for an image of `n` bytes. -/
def erasedSize (n : ℕ) : ℕ := (n + (flashSector.toNat - 1)) / flashSector.toNat * flashSector.toNat

/-- Flash `g` is flash `f` with the bytes of `image` programmed that `brought` names. -/
structure Filled (image : List UInt8) (f : Flash) (brought : ℕ → Prop) (g : Flash) : Prop where
  written : ∀ i (h : i < image.length), brought i → g (appOffset.toNat + i) = image[i]
  kept : ∀ j, (∀ i < image.length, brought i → j ≠ appOffset.toNat + i) → g j = f j

theorem Filled.nothing (image : List UInt8) (f : Flash) : Filled image f (Brought []) f := by
  refine ⟨?_, ?_⟩
  · rintro i _ ⟨fr, hfr, _⟩
    cases hfr
  · exact fun _ _ => rfl

/-- A turn that programs nothing brings nothing. -/
theorem Filled.idle {image : List UInt8} {f g : Flash} {l : List Frame} {fr : Frame}
    (h : Filled image f (Brought l) g) (hfr : ∀ i, ¬ fr.Brings i) :
    Filled image f (Brought (l ++ [fr])) g := by
  have hsame : ∀ i, Brought (l ++ [fr]) i ↔ Brought l i := by
    intro i
    simp only [Brought, List.mem_append, List.mem_singleton]
    constructor
    · rintro ⟨fr', hmem | rfl, hbr⟩
      · exact ⟨fr', hmem, hbr⟩
      · exact absurd hbr (hfr i)
    · rintro ⟨fr', hmem, hbr⟩
      exact ⟨fr', Or.inl hmem, hbr⟩
  refine ⟨?_, ?_⟩
  · intro i hi hbr
    exact h.written i hi ((hsame i).mp hbr)
  · intro j hj
    exact h.kept j fun i hi hbr => hj i hi ((hsame i).mpr hbr)

/-- **A chunk of the image, whatever came before it.** A byte that is there already is ANDed with
itself, any other with `0xFF`. -/
theorem Filled.chunk {image : List UInt8} {f g : Flash} {l : List Frame} {off len : UInt32}
    {chunk : List UInt8} (h : Filled image f (Brought l) g)
    (hblank : ∀ i < image.length, f (appOffset.toNat + i) = 0xFF)
    (hmax : image.length ≤ appMaxSize.toNat) (hlen : chunk.length = len.toNat)
    (hpart : (Frame.data off len chunk).PartOf image) :
    Filled image f (Brought (l ++ [.data off len chunk]))
      ((programChunk off chunk len).apply g) := by
  obtain ⟨_, hfit, hchunk⟩ := hpart
  have happly := programChunk_apply off g hlen (by omega)
  have hbyte : ∀ i (hi : i < image.length) (hin : off.toNat ≤ i ∧ i < off.toNat + chunk.length),
      chunk[i - off.toNat] = image[i] := by
    intro i hi hin
    simp only [hchunk, List.getElem_take, List.getElem_drop]
    congr 1
    omega
  have hsplit : ∀ i, Brought (l ++ [.data off len chunk]) i ↔
      Brought l i ∨ off.toNat ≤ i ∧ i < off.toNat + chunk.length := by
    intro i
    simp only [Brought, List.mem_append, List.mem_singleton, or_and_right, exists_or,
      exists_eq_left, Frame.Brings, hlen]
  refine ⟨?_, ?_⟩
  · intro i hi hbr
    rw [happly]
    by_cases hin : off.toNat ≤ i ∧ i < off.toNat + chunk.length
    · rw [dif_pos hin, hbyte i hi hin]
      by_cases hold : Brought l i
      · rw [h.written i hi hold, UInt8.and_self]
      · have hkept : g (appOffset.toNat + i) = 0xFF := by
          refine (h.kept _ fun i' _ hbr' heq => hold ?_).trans (hblank i hi)
          rw [Nat.add_left_cancel heq]
          exact hbr'
        rw [hkept]
        exact UInt8.neg_one_and
    · rw [dif_neg hin]
      exact h.written i hi (((hsplit i).mp hbr).resolve_right hin)
  · intro j hj
    have hold : g j = f j := h.kept j fun i hi hbr => hj i hi ((hsplit i).mpr (Or.inl hbr))
    rw [← hold]
    by_cases hlow : j < appOffset.toNat
    · refine FlashOp.apply_of_not_covers fun hc => ?_
      have hlo : (programChunk off chunk len).lo = appOffset.toNat + off.toNat := by
        show (appOffset + off).toNat = _
        rw [appMaxSize_toNat] at hmax
        rw [UInt32.toNat_add, appOffset_toNat]
        omega
      have := hc.1
      omega
    · obtain ⟨i, rfl⟩ : ∃ i, j = appOffset.toNat + i := ⟨j - appOffset.toNat, by omega⟩
      rw [happly, dif_neg]
      intro hin
      exact hj i (by omega) ((hsplit i).mpr (Or.inr hin)) rfl

theorem Filled.step {image : List UInt8} {f : Flash} {l : List Frame} {c c' : RecvConf} {fr : Frame}
    (h : Filled image f (Brought l) c.1.flash)
    (hblank : ∀ i < image.length, f (appOffset.toNat + i) = 0xFF)
    (hmax : image.length ≤ appMaxSize.toNat) (hs : RecvStep c fr c') (hpart : fr.PartOf image) :
    Filled image f (Brought (l ++ [fr])) c'.1.flash := by
  rw [hs.2.2]
  cases fr with
  | data off len chunk => exact h.chunk hblank hmax (readFrame_data hs.2.1).2 hpart
  | dataNak off => exact h.idle fun _ hbr => hbr
  | dataCut => exact h.idle fun _ hbr => hbr
  | sync => exact h.idle fun _ hbr => hbr
  | idle => exact h.idle fun _ hbr => hbr
  | begnCut len => exact hpart.elim
  | begn len crc => exact hpart.elim
  | end' => exact hpart.elim
  | go => exact hpart.elim

theorem Filled.run {image : List UInt8} {f : Flash} {c c' : RecvConf} {l k : List Frame}
    (hblank : ∀ i < image.length, f (appOffset.toNat + i) = 0xFF)
    (hmax : image.length ≤ appMaxSize.toNat) (r : Run RecvStep c k c')
    (hk : ∀ fr ∈ k, fr.PartOf image) (h : Filled image f (Brought l) c.1.flash) :
    Filled image f (Brought (l ++ k)) c'.1.flash := by
  induction r generalizing l with
  | nil _ => rwa [List.append_nil]
  | @cons c₁ c₂ c₃ fr k hs _ ih =>
    have hnext := h.step hblank hmax hs (hk fr List.mem_cons_self)
    have hrest := ih (fun fr' hfr' => hk fr' (List.mem_cons_of_mem _ hfr')) hnext
    rwa [List.append_assoc] at hrest

/-- The locals that `END!` looks at are those BEGN set. -/
theorem locals_of_partOf {c c' : RecvConf} {fr : Frame} {image : List UInt8}
    (hs : RecvStep c fr c') (hpart : fr.PartOf image) :
    c'.1.appLen = c.1.appLen ∧ c'.1.appCrc = c.1.appCrc := by
  rw [hs.2.2]
  cases fr with
  | data off len chunk => exact ⟨rfl, rfl⟩
  | dataNak off => exact ⟨rfl, rfl⟩
  | dataCut => exact ⟨rfl, rfl⟩
  | sync => exact ⟨rfl, rfl⟩
  | idle => exact ⟨rfl, rfl⟩
  | begnCut len => exact hpart.elim
  | begn len crc => exact hpart.elim
  | end' => exact hpart.elim
  | go => exact hpart.elim

theorem locals_of_parts {c c' : RecvConf} {l : List Frame} {image : List UInt8}
    (r : Run RecvStep c l c') (hl : ∀ fr ∈ l, fr.PartOf image) :
    c'.1.appLen = c.1.appLen ∧ c'.1.appCrc = c.1.appCrc :=
  r.invariant_of_forall
    (I := fun c' : RecvConf => c'.1.appLen = c.1.appLen ∧ c'.1.appCrc = c.1.appCrc)
    (fun _ _ _ hI (hpart : Frame.PartOf image _) hs =>
      ⟨(locals_of_partOf hs hpart).1.trans hI.1, (locals_of_partOf hs hpart).2.trans hI.2⟩)
    hl ⟨rfl, rfl⟩

/-- **Chunk writes commute and are idempotent.** After an accepted BEGN for `image`, whatever
chunks of it are accepted, in whatever order and however often: what they cover holds the image,
the rest of the erased sectors is still blank, nothing else has changed; and `END!` passes once
they cover all of it. -/
theorem chunks_land {s : Recv} {rx : List Rx} {len crc : UInt32} {image : List UInt8}
    {c₀ c : RecvConf} {l : List Frame} (hbegn : RecvStep (s, rx) (.begn len crc) c₀)
    (hoker : (execFrame s (.begn len crc)).2 = Reply.oker.bytes) (hlen : image.length = len.toNat)
    (r : Run RecvStep c₀ l c) (hl : ∀ fr ∈ l, fr.PartOf image) :
    (∀ i (h : i < image.length), Brought l i → c.1.flash (appOffset.toNat + i) = image[i]) ∧
    (∀ i < erasedSize image.length, ¬ Brought l i → c.1.flash (appOffset.toNat + i) = 0xFF) ∧
    (∀ j, j < appOffset.toNat ∨ appOffset.toNat + erasedSize image.length ≤ j →
      c.1.flash j = s.flash j) ∧
    (crc = otaCrc32 image → (∀ i < image.length, Brought l i) →
      (execFrame c.1 .end').2 = Reply.done.bytes) := by
  have hok := (execFrame_oker_iff s len crc).mp hoker
  have hmax := (begnRefused_eq_false hok).2
  have hsize : erasedSize image.length = (len.toNat + 4095) / 4096 * 4096 := by
    rw [erasedSize, flashSector_toNat, hlen]
  have hfit : image.length ≤ erasedSize image.length := by omega
  -- The erase, and what it leaves alone.
  have hc₀ : c₀.1 = ⟨applyOps (eraseSlot len) s.flash, len, crc, s.up⟩ := by
    rw [hbegn.2.2]
    simp [execFrame, hok]
  have hblank : ∀ i < erasedSize image.length, c₀.1.flash (appOffset.toNat + i) = 0xFF := by
    intro i hi
    rw [hc₀]
    exact eraseSlot_blank hmax s.flash (hsize ▸ hi)
  have hframe : ∀ j, j < appOffset.toNat ∨ appOffset.toNat + erasedSize image.length ≤ j →
      c₀.1.flash j = s.flash j := by
    intro j hj
    rw [hc₀]
    refine applyOps_of_not_covers fun op hop hc => ?_
    obtain ⟨k, hk, hlo, hsz, _⟩ := eraseSlot_lo hmax hop
    obtain ⟨h₁, h₂⟩ := hc
    omega
  have hland : Filled image c₀.1.flash (Brought l) c.1.flash :=
    Filled.run (l := []) (fun i hi => hblank i (by omega))
      (hlen ▸ UInt32.le_iff_toNat_le.mp hmax) r hl (.nothing image _)
  refine ⟨hland.written, ?_, ?_, ?_⟩
  · intro i hi hbr
    refine (hland.kept _ ?_).trans (hblank i hi)
    intro i' _ hbr' heq
    obtain rfl := Nat.add_left_cancel heq
    exact hbr hbr'
  · intro j hj
    refine (hland.kept j ?_).trans (hframe j hj)
    intro i hi _ heq
    omega
  · intro hcrc hall
    obtain ⟨happLen, happCrc⟩ := locals_of_parts r hl
    rw [hc₀] at happLen happCrc
    have hslot : slotBytes c.1.flash c.1.appLen = image := by
      rw [slotBytes, happLen]
      show Mem.read _ _ len.toNat = image
      rw [← hlen]
      exact Mem.read_eq_iff.mpr fun i hi => hland.written i hi (hall i hi)
    have himage : imageOk c.1 = true := by
      rw [imageOk, hslot, happCrc, beq_iff_eq]
      exact hcrc.symm
    simp only [execFrame, himage, if_true]

/-- A two-byte image: its first byte, a chunk with a bad CRC, and all of it. -/
def overlapRun : List UInt8 :=
  Magic.begn.bytes ++ le32 2 ++ le32 (otaCrc32 [0x2A, 0x2B]) ++
    (Magic.data.bytes ++ le32 0 ++ le32 1 ++ le32 (otaCrc32 [0x2A]) ++ [0x2A]) ++
    (Magic.data.bytes ++ le32 0 ++ le32 2 ++ le32 0 ++ [0x2A, 0x2C]) ++
    (Magic.data.bytes ++ le32 0 ++ le32 2 ++ le32 (otaCrc32 [0x2A, 0x2B]) ++ [0x2A, 0x2B])

def overlapFrames : List Frame := [.data 0 1 [0x2A], .dataNak 0, .data 0 2 [0x2A, 0x2B]]

theorem chunks_land_overlap : ∃ c : RecvConf, c.2 = [] ∧
    c.1.flash appOffset.toNat = 0x2A ∧ (execFrame c.1 .end').2 = Reply.done.bytes := by
  have hbegn : RecvStep (Recv.start fun _ => 0xFF, sent overlapRun)
      (.begn 2 (otaCrc32 [0x2A, 0x2B]))
      ((execFrame (Recv.start fun _ => 0xFF) (.begn 2 (otaCrc32 [0x2A, 0x2B]))).1,
        sent (overlapRun.drop 12)) := ⟨rfl, by decide +kernel, rfl⟩
  have hrun : Run RecvStep
      ((execFrame (Recv.start fun _ => 0xFF) (.begn 2 (otaCrc32 [0x2A, 0x2B]))).1,
        sent (overlapRun.drop 12)) overlapFrames (_, []) :=
    .cons (t := (_, sent (overlapRun.drop 29))) ⟨rfl, by decide +kernel, rfl⟩
      (.cons (t := (_, sent (overlapRun.drop 47))) ⟨rfl, by decide +kernel, rfl⟩
        (.cons ⟨rfl, by decide +kernel, rfl⟩ (.nil _)))
  have hparts : ∀ fr ∈ overlapFrames, fr.PartOf [0x2A, 0x2B] := by
    intro fr hfr
    rcases List.mem_cons.mp hfr with rfl | hfr
    · exact ⟨rfl, by decide, rfl⟩
    rcases List.mem_cons.mp hfr with rfl | hfr
    · exact trivial
    · obtain rfl := List.mem_singleton.mp hfr
      exact ⟨rfl, by decide, rfl⟩
  have hbrought : ∀ i < 2, Brought overlapFrames i := by
    intro i hi
    exact ⟨.data 0 2 [0x2A, 0x2B], by simp [overlapFrames], by simp [Frame.Brings, hi]⟩
  obtain ⟨hwritten, _, _, hdone⟩ := chunks_land hbegn (by decide +kernel) rfl hrun hparts
  exact ⟨_, rfl, hwritten 0 (by decide) (hbrought 0 (by decide)), hdone rfl hbrought⟩

end EthPanel
