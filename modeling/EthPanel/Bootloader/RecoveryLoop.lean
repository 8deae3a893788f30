import EthPanel.Bootloader.Recovery

/-!
# What the receiver's loop reads

Facts about the reading half of the loop, and about the loop as a whole: every turn uses up
some input, so the fuel of `serve` is never short, and what `serve` does is a run of `RecvStep`
(`serveN_run`); what a reading function makes of input that holds just what it asks for; and
what the checks before a DATA frame is accepted guarantee (`readFrame_data`).
-/

namespace EthPanel

open Lts

/-- Bytes that arrive with no deadline between them. -/
abbrev sent (bs : List UInt8) : List Rx := bs.map Rx.byte

/-! ## Reading uses up input -/

theorem readExact_got {n : ℕ} {rx rest : List Rx} {bs : List UInt8}
    (h : readExact n rx = .got bs rest) : bs.length = n ∧ rest.length ≤ rx.length := by
  induction n generalizing rx rest bs with
  | zero =>
    simp only [readExact, ReadResult.got.injEq] at h
    obtain ⟨rfl, rfl⟩ := h
    exact ⟨rfl, Nat.le_refl _⟩
  | succ n ih =>
    match rx, h with
    | .byte b :: rx, h =>
      simp only [readExact] at h
      split at h
      · rename_i bs' rest' hr
        simp only [ReadResult.got.injEq] at h
        obtain ⟨rfl, rfl⟩ := h
        obtain ⟨h₁, h₂⟩ := ih hr
        exact ⟨by rw [List.length_cons, h₁], Nat.le_succ_of_le h₂⟩
      · cases h
      · cases h

theorem readExact_timedOut {n : ℕ} {rx rest : List Rx} (h : readExact n rx = .timedOut rest) :
    rest.length ≤ rx.length := by
  induction n generalizing rx rest with
  | zero => cases h
  | succ n ih =>
    match rx, h with
    | .timeout :: rx, h =>
      simp only [readExact, ReadResult.timedOut.injEq] at h
      exact h ▸ Nat.le_succ _
    | .byte b :: rx, h =>
      simp only [readExact] at h
      split at h
      · cases h
      · rename_i rest' hr
        simp only [ReadResult.timedOut.injEq] at h
        exact h ▸ Nat.le_succ_of_le (ih hr)
      · cases h

theorem readU32_got {v : UInt32} {rx rest : List Rx} (h : readU32 rx = .got v rest) :
    rest.length ≤ rx.length := by
  unfold readU32 at h
  repeat' split at h
  all_goals grind [→ readExact_got, → readExact_timedOut]

theorem readU32_timedOut {rx rest : List Rx} (h : readU32 rx = .timedOut rest) :
    rest.length ≤ rx.length := by
  unfold readU32 at h
  repeat' split at h
  all_goals grind [→ readExact_got, → readExact_timedOut]

theorem scanCommand_byte (w : List UInt8) (n : ℕ) (b : UInt8) (rx : List Rx) :
    (∃ m, scanCommand w n (.byte b :: rx) = .got m rx) ∨
      ∃ w' n', scanCommand w n (.byte b :: rx) = scanCommand w' n' rx := by
  simp only [scanCommand]
  generalize (if n < 4 then n + 1 else n) = k
  by_cases hk : k = 4
  · rw [if_pos hk]
    cases cmdMagics.find? fun m => m.bytes == w.tail ++ [b] with
    | some m => exact Or.inl ⟨m, rfl⟩
    | none => exact Or.inr ⟨_, _, rfl⟩
  · rw [if_neg hk]
    exact Or.inr ⟨_, _, rfl⟩

theorem scanCommand_got {w : List UInt8} {n : ℕ} {rx rest : List Rx} {m : Magic}
    (h : scanCommand w n rx = .got m rest) : rest.length < rx.length := by
  induction rx generalizing w n with
  | nil => cases h
  | cons x rx ih =>
    cases x with
    | timeout => cases h
    | byte b =>
      rcases scanCommand_byte w n b rx with ⟨m', hm⟩ | ⟨w', n', hm⟩
      · rw [hm, ReadResult.got.injEq] at h
        exact h.2 ▸ Nat.lt_succ_self _
      · exact Nat.lt_succ_of_lt (ih (hm ▸ h))

theorem scanCommand_timedOut {w : List UInt8} {n : ℕ} {rx rest : List Rx}
    (h : scanCommand w n rx = .timedOut rest) : rest.length < rx.length := by
  induction rx generalizing w n with
  | nil => cases h
  | cons x rx ih =>
    cases x with
    | timeout =>
      simp only [scanCommand, ReadResult.timedOut.injEq] at h
      exact h ▸ Nat.lt_succ_self _
    | byte b =>
      rcases scanCommand_byte w n b rx with ⟨m', hm⟩ | ⟨w', n', hm⟩
      · rw [hm] at h
        cases h
      · exact Nat.lt_succ_of_lt (ih (hm ▸ h))

theorem readBegn_rest {rx rest : List Rx} {fr : Frame} (h : readBegn rx = some (fr, rest)) :
    rest.length ≤ rx.length := by
  unfold readBegn at h
  repeat' split at h
  all_goals grind [→ readU32_got, → readU32_timedOut]

theorem readData_rest {rx rest : List Rx} {fr : Frame} (h : readData rx = some (fr, rest)) :
    rest.length ≤ rx.length := by
  unfold readData at h
  repeat' split at h
  all_goals grind [→ readU32_got, → readU32_timedOut, → readExact_got, → readExact_timedOut]

/-- **Every turn uses up some input.** -/
theorem readFrame_rest {rx rest : List Rx} {fr : Frame} (h : readFrame rx = some (fr, rest)) :
    rest.length < rx.length := by
  unfold readFrame readCommand at h
  repeat' split at h
  all_goals grind [→ readExact_got, → readExact_timedOut, → scanCommand_got,
    → scanCommand_timedOut, → readBegn_rest, → readData_rest]

/-! ## Reading whole frames -/

@[simp] theorem sent_append (bs cs : List UInt8) : sent (bs ++ cs) = sent bs ++ sent cs :=
  List.map_append

theorem readCommand_sent (m : Magic) (rx : List Rx) :
    readCommand (sent m.bytes ++ rx) = .got m rx := by
  cases m <;> rfl

theorem readExact_sent (bs : List UInt8) (rx : List Rx) :
    readExact bs.length (sent bs ++ rx) = .got bs rx := by
  induction bs with
  | nil => rfl
  | cons b bs ih =>
    rw [List.length_cons, sent, List.map_cons, List.cons_append, readExact, ih]

theorem readU32_sent (v : UInt32) (rx : List Rx) : readU32 (sent (le32 v) ++ rx) = .got v rx := by
  unfold readU32
  rw [show readExact 4 (sent (le32 v) ++ rx) = .got (le32 v) rx from readExact_sent (le32 v) rx]
  simp only [le32, ofLe32_le32]

theorem readFrame_begn (len crc : UInt32) (rx : List Rx) :
    readFrame (sent (Magic.begn.bytes ++ le32 len ++ le32 crc) ++ rx) =
      some (.begn len crc, rx) := by
  unfold readFrame
  simp only [sent_append, List.append_assoc, readCommand_sent, readBegn, readU32_sent]

theorem readFrame_sync {bs : List UInt8} (h : bs.length = 4) (rx : List Rx) :
    readFrame (sent (Magic.rp2b.bytes ++ bs) ++ rx) = some (.sync, rx) := by
  unfold readFrame
  rw [sent_append, List.append_assoc, readCommand_sent]
  simp only [← h, readExact_sent]

/-- A whole DATA frame within bounds: acted on if its payload matches the CRC it announced. -/
theorem readFrame_data_sent {off len : UInt32} (crc : UInt32) {payload : List UInt8}
    (hb : dataRefused off len = false) (hlen : payload.length = len.toNat) (rx : List Rx) :
    readFrame (sent (Magic.data.bytes ++ le32 off ++ le32 len ++ le32 crc ++ payload) ++ rx)
      = if otaCrc32 payload = crc then some (.data off len payload, rx)
        else some (.dataNak off, rx) := by
  unfold readFrame
  simp only [sent_append, List.append_assoc, readCommand_sent, readData, readU32_sent, hb,
    Bool.false_eq_true, if_false, ← hlen, readExact_sent]
  by_cases h : otaCrc32 payload = crc <;> simp [h]

theorem readFrame_end (rx : List Rx) :
    readFrame (sent Magic.end'.bytes ++ rx) = some (.end', rx) := by
  unfold readFrame
  rw [readCommand_sent]

theorem readFrame_go (rx : List Rx) : readFrame (sent Magic.go.bytes ++ rx) = some (.go, rx) := by
  unfold readFrame
  rw [readCommand_sent]

/-! ## What a turn has checked -/

/-- **A DATA frame that is acted on** passed the bounds check, has the length it announced, and
matched a chunk CRC. -/
theorem readFrame_data {rx rest : List Rx} {off len : UInt32} {chunk : List UInt8}
    (h : readFrame rx = some (.data off len chunk, rest)) :
    dataRefused off len = false ∧ chunk.length = len.toNat := by
  have hdata : ∀ rx, readData rx = some (.data off len chunk, rest) →
      dataRefused off len = false ∧ chunk.length = len.toNat := by
    intro rx h
    unfold readData at h
    repeat' split at h
    all_goals grind [→ readExact_got]
  have hbegn : ∀ rx, readBegn rx ≠ some (.data off len chunk, rest) := by
    intro rx h
    unfold readBegn at h
    repeat' split at h
    all_goals simp at h
  unfold readFrame at h
  repeat' split at h
  all_goals first | exact hdata _ h | exact absurd h (hbegn _) | simp at h

/-- The bounds check, as arithmetic: what the two tests on `len` settle, and what is left of
the third once its sum has wrapped. -/
theorem dataRefused_eq_false {off len : UInt32} (h : dataRefused off len = false) :
    0 < len.toNat ∧ len.toNat ≤ 1024 ∧ (off.toNat + len.toNat) % 2 ^ 32 ≤ appMaxSize.toNat := by
  simp only [dataRefused, Bool.or_eq_false_iff, beq_eq_false_iff_ne, ne_eq,
    decide_eq_false_iff_not, gt_iff_lt, UInt32.not_lt, UInt32.le_iff_toNat_le,
    otaChunkSize_toNat, UInt32.toNat_add] at h
  obtain ⟨⟨h₁, h₂⟩, h₃⟩ := h
  refine ⟨?_, h₂, h₃⟩
  rw [Nat.pos_iff_ne_zero]
  exact fun h0 => h₁ (UInt32.toNat_inj.mp h0)

/-! ## What a turn does to flash -/

theorem execFrame_flash (s : Recv) (fr : Frame) :
    (execFrame s fr).1.flash = applyOps (frameOps s fr) s.flash := by
  cases fr with
  | begnCut len => cases len <;> rfl
  | begn len crc =>
    cases h : begnRefused len <;> simp [execFrame, frameOps, slotOps, savedRecord, h]
  | end' =>
    cases h : imageOk s <;> simp [execFrame, frameOps, slotOps, savedRecord, h, bootStateWrite]
  | _ => rfl

theorem execFrame_flash_of_none {s : Recv} {fr : Frame} (h : savedRecord s fr = none) :
    (execFrame s fr).1.flash = applyOps (slotOps fr) s.flash := by
  rw [execFrame_flash, frameOps, h, Option.elim, List.append_nil]

theorem execFrame_flash_of_some {s : Recv} {fr : Frame} {st : BootState}
    (h : savedRecord s fr = some st) :
    fr = .end' ∧ imageOk s = true ∧ st = endRecord s ∧
      (execFrame s fr).1.flash = bootStateWrite s.flash st := by
  cases fr <;> simp only [savedRecord, reduceCtorEq] at h
  cases hok : imageOk s <;> rw [hok] at h
  · cases h
  · obtain rfl : endRecord s = st := by simpa using h
    refine ⟨rfl, rfl, rfl, ?_⟩
    simp [execFrame, hok]

/-! ## Replies -/

theorem execFrame_oker_iff (s : Recv) (len crc : UInt32) :
    (execFrame s (.begn len crc)).2 = Reply.oker.bytes ↔ begnRefused len = false := by
  cases h : begnRefused len <;> simp [execFrame, h, Reply.bytes]

theorem execFrame_done_iff (s : Recv) (fr : Frame) :
    (execFrame s fr).2 = Reply.done.bytes ↔ fr = .end' ∧ imageOk s = true := by
  cases fr with
  | begnCut len => cases len <;> simp [execFrame, Reply.bytes]
  | begn len crc => cases h : begnRefused len <;> simp [execFrame, h, Reply.bytes]
  | end' => cases h : imageOk s <;> simp [execFrame, h, Reply.bytes]
  | _ => simp [execFrame, Reply.bytes]

theorem savedRecord_ne_none_iff (s : Recv) (fr : Frame) :
    savedRecord s fr ≠ none ↔ fr = .end' ∧ imageOk s = true := by
  cases fr with
  | end' => cases h : imageOk s <;> simp [savedRecord, h]
  | _ => simp [savedRecord]

/-! ## The loop is a run -/

theorem RecvStep.deterministic (c : RecvConf) (fr : Frame) (c' c'' : RecvConf)
    (h : RecvStep c fr c') (h' : RecvStep c fr c'') : c' = c'' := by
  have hrest := h.2.1.symm.trans h'.2.1
  simp only [Option.some.injEq, Prod.mk.injEq, true_and] at hrest
  exact Prod.ext (h.2.2.trans h'.2.2.symm) hrest

theorem serveN_run (n : ℕ) (s : Recv) (rx : List Rx) (hup : (serveN n s rx).recv.up = true) :
    Run RecvStep (s, rx) (serveN n s rx).frames ((serveN n s rx).recv, (serveN n s rx).rest) := by
  induction n generalizing s rx with
  | zero => exact .nil _
  | succ n ih =>
    unfold serveN at hup ⊢
    by_cases hs : s.up = true
    · rw [if_pos hs] at hup ⊢
      cases hfr : readFrame rx with
      | none => exact .nil _
      | some p =>
        obtain ⟨fr, rest⟩ := p
        simp only [hfr] at hup ⊢
        exact .cons ⟨hs, hfr, rfl⟩ (ih _ _ hup)
    · rw [if_neg hs] at hup
      exact absurd hup hs

/-- Fuel beyond the input's length changes nothing. -/
theorem serveN_eq {n m : ℕ} {s : Recv} {rx : List Rx} (hn : rx.length ≤ n) (hm : rx.length ≤ m) :
    serveN n s rx = serveN m s rx := by
  have hnil : ∀ n s, serveN n s [] = ⟨s, [], [], []⟩ := by
    intro n s
    cases n with
    | zero => rfl
    | succ n =>
      unfold serveN
      cases s.up <;> rfl
  induction n generalizing m s rx with
  | zero =>
    obtain rfl := List.length_eq_zero_iff.mp (Nat.le_zero.mp hn)
    rw [hnil, hnil]
  | succ n ih =>
    cases m with
    | zero =>
      obtain rfl := List.length_eq_zero_iff.mp (Nat.le_zero.mp hm)
      rw [hnil, hnil]
    | succ m =>
      unfold serveN
      cases hfr : readFrame rx with
      | none => rfl
      | some p =>
        obtain ⟨fr, rest⟩ := p
        have hlt := readFrame_rest hfr
        simp only [@ih m (execFrame s fr).1 rest (by omega) (by omega)]

theorem serve_turn {s : Recv} {rx rest : List Rx} {fr : Frame} (hup : s.up = true)
    (h : readFrame rx = some (fr, rest)) :
    serve s rx = { serve (execFrame s fr).1 rest with
      frames := fr :: (serve (execFrame s fr).1 rest).frames
      replies := (execFrame s fr).2 ++ (serve (execFrame s fr).1 rest).replies } := by
  have hlt := readFrame_rest h
  obtain ⟨n, hn⟩ : ∃ n, rx.length = n + 1 := ⟨rx.length - 1, by omega⟩
  have hrest : serveN n (execFrame s fr).1 rest = serve (execFrame s fr).1 rest :=
    serveN_eq (by omega) (Nat.le_refl _)
  rw [serve, hn, serveN, if_pos hup]
  simp only [h, hrest]

theorem serve_down {s : Recv} (rx : List Rx) (hup : s.up = false) :
    serve s rx = ⟨s, [], [], []⟩ := by
  unfold serve
  cases rx with
  | nil => rfl
  | cons x rx => simp only [List.length_cons, serveN, hup, Bool.false_eq_true, if_false]

theorem serve_timeouts {s : Recv} (hup : s.up = true) (n : ℕ) :
    serve s (List.replicate n .timeout) = ⟨s, List.replicate n .idle, [], []⟩ := by
  induction n with
  | zero => rfl
  | succ n ih =>
    have hidle : readFrame (List.replicate (n + 1) .timeout)
        = some (.idle, List.replicate n .timeout) := rfl
    rw [serve_turn hup hidle]
    simp only [execFrame, ih, List.replicate_succ, List.nil_append]

/-- The turns in an input, as a receiver in its loop reads them. -/
def readFramesN : ℕ → List Rx → List Frame
  | 0, _ => []
  | n + 1, rx =>
    match readFrame rx with
    | none => []
    | some (.go, _) => [.go]
    | some (fr, rest) => fr :: readFramesN n rest

def readFrames (rx : List Rx) : List Frame := readFramesN rx.length rx

/-- Only `GO!!` leaves the loop. -/
theorem execFrame_up {s : Recv} {fr : Frame} (h : fr ≠ .go) : (execFrame s fr).1.up = s.up := by
  cases fr with
  | go => exact absurd rfl h
  | begnCut len => cases len <;> rfl
  | begn len crc => cases hr : begnRefused len <;> simp [execFrame, hr]
  | end' => cases hok : imageOk s <;> simp [execFrame, hok]
  | _ => rfl

/-- **The turns `serve` takes are those in its input.** -/
theorem serveN_readFramesN (n : ℕ) (s : Recv) (rx : List Rx) :
    (serveN n s rx).frames = if s.up then readFramesN n rx else [] := by
  induction n generalizing s rx with
  | zero => exact (ite_self _).symm
  | succ n ih =>
    unfold serveN readFramesN
    cases hup : s.up with
    | false => rfl
    | true =>
      cases hfr : readFrame rx with
      | none => rfl
      | some p =>
        obtain ⟨fr, rest⟩ := p
        simp only [if_true, ih]
        by_cases hgo : fr = .go
        · subst hgo
          rfl
        · rw [execFrame_up hgo, hup]
          cases fr with
          | go => exact absurd rfl hgo
          | _ => rfl

/-- The effects and replies of a list of turns. -/
def execFrames (s : Recv) : List Frame → Recv × List UInt8
  | [] => (s, [])
  | fr :: l =>
    ((execFrames (execFrame s fr).1 l).1, (execFrame s fr).2 ++ (execFrames (execFrame s fr).1 l).2)

/-- **What `serve` has done is what its frames do**, and each of them was read. -/
theorem serveN_frames (n : ℕ) (s : Recv) (rx : List Rx) :
    ((serveN n s rx).recv, (serveN n s rx).replies) = execFrames s (serveN n s rx).frames ∧
      ∀ fr ∈ (serveN n s rx).frames, ∃ rx' rest, readFrame rx' = some (fr, rest) := by
  induction n generalizing s rx with
  | zero => exact ⟨rfl, by simp [serveN]⟩
  | succ n ih =>
    unfold serveN
    cases s.up with
    | false => exact ⟨rfl, by simp⟩
    | true =>
      cases hfr : readFrame rx with
      | none => exact ⟨rfl, by simp⟩
      | some p =>
        obtain ⟨fr, rest⟩ := p
        obtain ⟨hexec, hread⟩ := ih (execFrame s fr).1 rest
        refine ⟨?_, ?_⟩
        · simp only [if_true, execFrames, ← hexec]
        · intro fr' hfr'
          simp only [if_true, List.mem_cons] at hfr'
          rcases hfr' with rfl | hmem
          · exact ⟨rx, rest, hfr⟩
          · exact hread fr' hmem

end EthPanel
