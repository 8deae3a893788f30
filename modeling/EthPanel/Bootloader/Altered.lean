import EthPanel.Bootloader.Boot
import EthPanel.Bootloader.RecoveryLoop

/-!
# Altered bytes are refused

The three places that compare a CRC: the chunk check and the image check of `recovery_run`, and
the re-check of `decide_boot_app`. Each compares with the CRC of what was meant, so each refuses
whatever `ota_crc32` tells from it; a burst of up to four bytes is always told
(`otaCrc32_ne_of_burst`).
-/

namespace EthPanel

/-- A DATA frame whose payload does not match the CRC in its header, or that is out of bounds. -/
theorem readFrame_data_altered {off len crc : UInt32} {payload : List UInt8}
    (hlen : payload.length = len.toNat) (hcrc : otaCrc32 payload ≠ crc) (rx : List Rx) :
    ∃ rest, readFrame (sent (Magic.data.bytes ++ le32 off ++ le32 len ++ le32 crc ++ payload) ++ rx)
      = some (.dataNak off, rest) := by
  cases hb : dataRefused off len with
  | false => exact ⟨rx, (readFrame_data_sent crc hb hlen rx).trans (if_neg hcrc)⟩
  | true =>
    refine ⟨sent payload ++ rx, ?_⟩
    unfold readFrame
    simp only [sent_append, List.append_assoc, readCommand_sent, readData, readU32_sent, hb,
      if_true]

theorem execFrame_end_altered {s : Recv} (h : otaCrc32 (slotBytes s.flash s.appLen) ≠ s.appCrc) :
    execFrame s .end' = (s, Reply.ecrc.bytes) := by
  have hbad : imageOk s = false := by
    unfold imageOk
    rw [beq_eq_false_iff_ne]
    exact h
  simp only [execFrame, hbad, Bool.false_eq_true, if_false]

/-- **A burst is always refused**: where `b` stands for `a`, a payload is answered DNAK and not
programmed, an image in the slot is answered ECRC at `END!`, and recovery is entered in place of
it. -/
theorem burst_refused {a b : List UInt8} (h : Burst a b) :
    otaCrc32 a ≠ otaCrc32 b ∧
    (∀ (s : Recv) (off len : UInt32) (rx : List Rx), a.length = len.toNat → ∃ rest,
      readFrame (sent (Magic.data.bytes ++ le32 off ++ le32 len ++ le32 (otaCrc32 a) ++ b) ++ rx)
        = some (.dataNak off, rest) ∧
      execFrame s (.dataNak off) = (s, Reply.dnak.bytes ++ le32 off)) ∧
    (∀ s : Recv, s.appCrc = otaCrc32 a → slotBytes s.flash s.appLen = b →
      execFrame s .end' = (s, Reply.ecrc.bytes)) ∧
    (∀ (scratch : UInt32) (f : Flash) (st : BootState), bootStateRead f = some st →
      st.appCrc32 = otaCrc32 a → slotBytes f st.appLen = b →
      (decideBootApp scratch f).boots = false) := by
  have hne : otaCrc32 b ≠ otaCrc32 a := (otaCrc32_ne_of_burst h).symm
  refine ⟨hne.symm, ?_, ?_, ?_⟩
  · intro s off len rx hlen
    obtain ⟨rest, hread⟩ := readFrame_data_altered (h.length.symm.trans hlen) hne rx
    exact ⟨rest, hread, rfl⟩
  · intro s hcrc hslot
    refine execFrame_end_altered ?_
    rw [hslot, hcrc]
    exact hne
  · intro scratch f st hread hcrc hslot
    refine decideBootApp_mismatch scratch hread ?_
    rw [hslot, hcrc]
    exact hne

/-- Two bytes of five altered. -/
theorem burst_refused_twoBytes : ∃ rest, readFrame (sent (Magic.data.bytes ++ le32 0 ++ le32 5 ++
    le32 (otaCrc32 [1, 2, 3, 4, 5]) ++ [1, 9, 3, 8, 5]) ++ []) = some (.dataNak 0, rest) ∧
    execFrame (Recv.start fun _ => 0xFF) (.dataNak 0)
      = (Recv.start fun _ => 0xFF, Reply.dnak.bytes ++ le32 0) := by
  have hburst : Burst [1, 2, 3, 4, 5] [1, 9, 3, 8, 5] := by
    refine ⟨rfl, by decide, 1, fun i hi => ?_⟩
    match i, hi with
    | 0, hi => exact absurd rfl hi
    | 1, _ | 2, _ | 3, _ | 4, _ => decide
    | i + 5, hi => exact absurd rfl hi
  exact (burst_refused hburst).2.1 _ 0 5 [] rfl

end EthPanel
