import EthPanel.Bootloader.RecoveryFlash
import EthPanel.Host.OtaSim

/-!
# The receiver and its stand-in

`Sims` ties the two together: the simulator's slot holds what the first `app_len` bytes of the
device's slot are. A turn keeps it, and is answered alike, as long as it does not run into what the
simulator leaves out: the length check of BEGN, the bounds check of DATA, and bits that programming
cannot set (`TurnOk`). In runs of such turns the two agree to the end (`otaSim_mirrors`).
-/

namespace EthPanel

open Lts

/-! ## What the simulator takes for granted -/

/-- The header of the DATA frame that comes next. -/
def headerAhead (rx : List Rx) : Option (UInt32 × UInt32 × UInt32) :=
  match readCommand rx with
  | .got .data rx =>
    match readU32 rx with
    | .got off rx =>
      match readU32 rx with
      | .got len rx =>
        match readU32 rx with
        | .got ccrc _ => some (off, len, ccrc)
        | _ => none
      | _ => none
    | _ => none
  | _ => none

theorem headerAhead_bytes {bs r : List UInt8} (hcmd : readCommand (sent bs) = .got .data (sent r))
    (h : 12 ≤ r.length) : headerAhead (sent bs) = some (hdrOff r, hdrLen r, hdrCrc r) := by
  obtain ⟨hoff, hlen, hcrc⟩ := readHeader_bytes h
  simp only [headerAhead, hcmd, hoff, hlen, hcrc]

/-- A chunk of an allowed size, within the slot. -/
def InSlot (off len : UInt32) : Prop :=
  0 < len.toNat ∧ len.toNat ≤ otaChunkSize.toNat ∧ off.toNat + len.toNat ≤ appMaxSize.toNat

theorem InSlot.not_refused {off len : UInt32} (h : InSlot off len) :
    dataRefused off len = false := by
  obtain ⟨hpos, hlen, hfit⟩ := h
  have hmax := appMaxSize_toNat
  simp only [dataRefused, Bool.or_eq_false_iff, beq_eq_false_iff_ne, ne_eq, decide_eq_false_iff_not,
    gt_iff_lt, UInt32.not_lt, UInt32.le_iff_toNat_le, UInt32.toNat_add]
  refine ⟨⟨?_, hlen⟩, ?_⟩
  · rintro rfl
    exact absurd hpos (by decide)
  · rw [Nat.mod_eq_of_lt (by omega)]
    exact hfit

/-- Of the bytes that belong to the image, none asks for a bit that is no longer set. -/
def Recv.Writable (s : Recv) (off : UInt32) (chunk : List UInt8) : Prop :=
  ∀ i (h : i < chunk.length), off.toNat + i < s.appLen.toNat →
    s.flash (appOffset.toNat + (off.toNat + i)) &&& chunk[i] = chunk[i]

/-- A turn that does not run into what the simulator leaves out. -/
def TurnOk (c : RecvConf) : Frame → Prop
  | .begn len _ => 0 < len.toNat ∧ len ≤ appMaxSize
  | .dataNak _ => ∀ off len ccrc, headerAhead c.2 = some (off, len, ccrc) →
    InSlot off len ∨ len = 0 ∧ ccrc ≠ 0
  | .data off len chunk => InSlot off len ∧ c.1.Writable off chunk
  | _ => True

/-- The first `app_len` bytes of the slot at each DONE. -/
def doneImages (s : Recv) : List Frame → List (List UInt8)
  | [] => []
  | fr :: l =>
    (if (execFrame s fr).2 = Reply.done.bytes then
      [slotBytes (execFrame s fr).1.flash (execFrame s fr).1.appLen] else []) ++
    doneImages (execFrame s fr).1 l

/-! ## Holding the same -/

/-- The simulator's slot holds the beginning of the device's. -/
structure Sims (s : Recv) (d : SimDevice) : Prop where
  appLen : d.appLen = s.appLen
  appCrc : d.appCrc = s.appCrc
  small : s.appLen ≤ appMaxSize
  slot : ∀ i < s.appLen.toNat, d.slot[i]? = some (s.flash (appOffset.toNat + i))

theorem Sims.start (f : Flash) : Sims (.start f) .new := by
  refine ⟨rfl, rfl, ?_, fun i hi => absurd hi (Nat.not_lt_zero i)⟩
  show (0 : UInt32) ≤ appMaxSize
  decide

theorem Sims.image {s : Recv} {d : SimDevice} (h : Sims s d) :
    d.slot.take d.appLen.toNat = slotBytes s.flash s.appLen := by
  refine List.ext_getElem? fun i => ?_
  rw [h.appLen, slotBytes, Mem.read, List.getElem?_take, List.getElem?_map]
  split
  · rename_i hi
    rw [h.slot i hi, List.getElem?_range hi]
    rfl
  · rename_i hi
    rw [List.getElem?_eq_none (by simpa using hi)]
    rfl

theorem getElem?_ensure {d : SimDevice} {stop i : ℕ} {b : UInt8} (h : d.slot[i]? = some b) :
    (d.ensure stop).slot[i]? = some b := by
  obtain ⟨hi, _⟩ := List.getElem?_eq_some_iff.mp h
  exact (List.getElem?_append_left hi).trans h

theorem length_ensure (d : SimDevice) (stop : ℕ) : stop ≤ (d.ensure stop).slot.length := by
  simp only [SimDevice.ensure, List.length_append, List.length_replicate]
  omega

/-- A slice assignment within the list. -/
theorem getElem?_write {d : SimDevice} {off : ℕ} {payload : List UInt8}
    (h : off + payload.length ≤ d.slot.length) (i : ℕ) : (d.write off payload).slot[i]? =
      if off ≤ i ∧ i < off + payload.length then payload[i - off]? else d.slot[i]? := by
  have htake : (d.slot.take off).length = off := by
    rw [List.length_take]
    omega
  show (d.slot.take off ++ (payload ++ d.slot.drop (off + payload.length)))[i]? = _
  by_cases hlo : off ≤ i
  · rw [List.getElem?_append_right (by omega), htake]
    by_cases hhi : i < off + payload.length
    · rw [if_pos ⟨hlo, hhi⟩, List.getElem?_append_left (by omega)]
    · rw [if_neg fun hin => hhi hin.2, List.getElem?_append_right (by omega), List.getElem?_drop]
      congr 1
      omega
  · rw [if_neg fun hin => hlo hin.1, List.getElem?_append_left (by omega), List.getElem?_take,
      if_pos (by omega)]

/-- **A chunk that asks only for bits still set** is written alike by overwriting and by
clearing. -/
theorem Sims.data {s : Recv} {d : SimDevice} (h : Sims s d) {off len : UInt32} {chunk : List UInt8}
    (hlen : chunk.length = len.toNat) (hfit : off.toNat + len.toNat ≤ appMaxSize.toNat)
    (hw : s.Writable off chunk) : Sims (execFrame s (.data off len chunk)).1
      ((d.ensure (off.toNat + len.toNat)).write off.toNat chunk) := by
  refine ⟨h.appLen, h.appCrc, h.small, fun i hi => ?_⟩
  change i < s.appLen.toNat at hi
  have hroom := length_ensure d (off.toNat + len.toNat)
  rw [getElem?_write (by omega)]
  show _ = some ((programChunk off chunk len).apply s.flash (appOffset.toNat + i))
  rw [programChunk_apply off s.flash hlen hfit]
  by_cases hin : off.toNat ≤ i ∧ i < off.toNat + chunk.length
  · have hbit := hw (i - off.toNat) (by omega) (by omega)
    rw [show off.toNat + (i - off.toNat) = i by omega] at hbit
    rw [if_pos hin, dif_pos hin, hbit, List.getElem?_eq_getElem]
  · rw [if_neg hin, dif_neg hin]
    exact getElem?_ensure (h.slot i hi)

theorem Sims.begn (s : Recv) (d : SimDevice) {len : UInt32} (crc : UInt32)
    (hlen : begnRefused len = false) : Sims (execFrame s (.begn len crc)).1
      (SimDevice.ensure ⟨d.slot, len, crc, d.committed⟩ len.toNat).erase := by
  have hmax := (begnRefused_eq_false hlen).2
  rw [execFrame]
  simp only [hlen, Bool.false_eq_true, if_false]
  refine ⟨rfl, rfl, hmax, fun i hi => ?_⟩
  change i < len.toNat at hi
  -- Both sides are erased where the image is to be.
  show (List.replicate len.toNat 0xFF ++ _)[i]? =
    some (applyOps (eraseSlot len) s.flash (appOffset.toNat + i))
  rw [eraseSlot_blank hmax _ (by omega), List.getElem?_append_left (by simpa using hi),
    List.getElem?_replicate, if_pos hi]

/-- Saving a boot-state moves no byte of the slot. -/
theorem Sims.saved {s : Recv} {d : SimDevice} (h : Sims s d) (st : BootState)
    (image : Option (List UInt8)) :
    Sims { s with flash := bootStateWrite s.flash st } { d with committed := image } := by
  refine ⟨h.appLen, h.appCrc, h.small, fun i hi => ?_⟩
  have hmax := UInt32.le_iff_toNat_le.mp h.small
  change i < s.appLen.toNat at hi
  show d.slot[i]? = some (bootStateWrite s.flash st (appOffset.toNat + i))
  rw [appMaxSize_toNat] at hmax
  rw [(CutWrite.of_complete s.flash st).below
    (by rw [appOffset_toNat, bootstateAOffset_toNat]; omega)]
  exact h.slot i hi

/-! ## One turn -/

/-- What a turn of the device and one of the simulator have in common. -/
structure SameTurn (s : Recv) (fr : Frame) (rx : List Rx) (t : SimTurn) : Prop where
  rest : rx = sent t.rest
  reply : t.reply = (execFrame s fr).2
  goesOn : t.goesOn = (execFrame s fr).1.up
  sims : Sims (execFrame s fr).1 t.dev
  commit : t.reply = Reply.done.bytes → t.dev.committed =
    some (slotBytes (execFrame s fr).1.flash (execFrame s fr).1.appLen)

section Turn

variable {s : Recv} {d : SimDevice} (hup : s.up = true)

include hup

theorem sameTurn_begn {bs : List UInt8} {fr : Frame} {rx rx' : List Rx}
    (hread : readBegn (sent bs) = some (fr, rx)) (hok : TurnOk (s, rx') fr) :
    ∃ t, simBegn d bs = some t ∧ SameTurn s fr rx t := by
  rw [readBegn_bytes] at hread
  by_cases hlen : 8 ≤ bs.length
  · rw [if_pos hlen, Option.some.injEq, Prod.mk.injEq] at hread
    obtain ⟨rfl, rfl⟩ := hread
    rw [simBegn_bytes d hlen]
    generalize unpack32 (bs.take 4) = len at hok ⊢
    generalize unpack32 ((bs.drop 4).take 4) = crc at hok ⊢
    obtain ⟨hpos, hmax⟩ := hok
    have hrefused : begnRefused len = false := by
      simp only [begnRefused, Bool.or_eq_false_iff, beq_eq_false_iff_ne, decide_eq_false_iff_not,
        gt_iff_lt, UInt32.not_lt]
      refine ⟨?_, hmax⟩
      rintro rfl
      exact absurd hpos (by decide)
    refine ⟨_, rfl, rfl, ?_, ?_, Sims.begn s d crc hrefused, fun hdone => ?_⟩
    · exact ((execFrame_oker_iff s len crc).mpr hrefused).symm
    · rw [execFrame_up (by simp)]
      exact hup.symm
    · simp [Reply.bytes] at hdone
  · rw [if_neg hlen] at hread
    cases hread

variable (h : Sims s d)

include h

theorem sameTurn_nak (off : UInt32) (bs : List UInt8) :
    SameTurn s (.dataNak off) (sent bs) ⟨d, Reply.dnak.bytes ++ le32 off, true, bs⟩ := by
  refine ⟨rfl, rfl, hup.symm, h, fun hdone => ?_⟩
  simp [Reply.bytes] at hdone

theorem sameTurn_data {bs r : List UInt8} {fr : Frame} {rx : List Rx}
    (hcmd : readCommand (sent bs) = .got .data (sent r))
    (hread : readData (sent r) = some (fr, rx)) (hok : TurnOk (s, sent bs) fr) :
    ∃ t, simData d r = some t ∧ SameTurn s fr rx t := by
  by_cases hhdr : 12 ≤ r.length
  · have hahead := headerAhead_bytes hcmd hhdr
    rw [simData_payload d hhdr, zlibCrc32_eq]
    cases hbounds : dataRefused (hdrOff r) (hdrLen r) with
    | true =>
      rw [readData_refused hhdr hbounds, Option.some.injEq, Prod.mk.injEq] at hread
      obtain ⟨rfl, rfl⟩ := hread
      -- Of the refused frames only an empty one is left, and its CRC is not that of no bytes.
      rcases hok _ _ _ hahead with hin | ⟨hlen, hcrc⟩
      · rw [hin.not_refused] at hbounds
        cases hbounds
      · have hnone : otaCrc32 [] = 0 := by decide
        rw [hlen, show UInt32.toNat 0 = 0 from rfl, if_pos (Nat.zero_le _), List.take_zero,
          List.drop_zero, hnone, if_neg (Ne.symm hcrc)]
        exact ⟨_, rfl, sameTurn_nak hup h _ _⟩
    | false =>
      rw [readData_payload hhdr hbounds] at hread
      by_cases hall : (hdrLen r).toNat ≤ (r.drop 12).length
      · rw [if_pos hall, Option.some.injEq, Prod.mk.injEq] at hread
        obtain ⟨hfr, rfl⟩ := hread
        rw [if_pos hall]
        by_cases hcrc : otaCrc32 ((r.drop 12).take (hdrLen r).toNat) = hdrCrc r
        · rw [if_pos hcrc] at hfr ⊢
          subst hfr
          obtain ⟨⟨_, _, hfit⟩, hw⟩ := hok
          refine ⟨_, rfl, rfl, rfl, hup.symm, h.data ?_ hfit hw, fun hdone => ?_⟩
          · rw [List.length_take]
            omega
          · simp [Reply.bytes] at hdone
        · rw [if_neg hcrc] at hfr ⊢
          subst hfr
          exact ⟨_, rfl, sameTurn_nak hup h _ _⟩
      · rw [if_neg hall] at hread
        cases hread
  · rw [readData_short hhdr] at hread
    cases hread

theorem sameTurn_end (bs : List UInt8) : SameTurn s .end' (sent bs) (simEnd d bs) := by
  rw [simEnd]
  simp only [h.image, zlibCrc32_eq]
  cases hok : imageOk s with
  | true =>
    have hcrc : otaCrc32 (slotBytes s.flash s.appLen) = s.appCrc := beq_iff_eq.mp hok
    rw [if_pos (hcrc.trans h.appCrc.symm)]
    have hexec : execFrame s .end' =
        ({ s with flash := bootStateWrite s.flash (endRecord s) }, Reply.done.bytes) := by
      rw [execFrame, if_pos hok]
    refine ⟨rfl, ?_, ?_, ?_, fun _ => ?_⟩
    · rw [hexec]
    · rw [hexec]
      exact hup.symm
    · rw [hexec]
      exact h.saved (endRecord s) _
    · rw [hexec]
      exact congrArg some (slotBytes_bootStateWrite h.small).symm
  | false =>
    have hcrc : ¬ otaCrc32 (slotBytes s.flash s.appLen) = s.appCrc := by
      intro heq
      rw [imageOk, heq, beq_self_eq_true] at hok
      cases hok
    have hexec : execFrame s .end' = (s, Reply.ecrc.bytes) := by
      rw [execFrame, hok, if_neg (by simp)]
    rw [if_neg (h.appCrc ▸ hcrc)]
    refine ⟨rfl, ?_, ?_, ?_, fun hdone => ?_⟩
    · rw [hexec]
    · rw [hexec]
      exact hup.symm
    · rw [hexec]
      exact h
    · simp [Reply.bytes] at hdone

/-- **The step lemma.** -/
theorem sameTurn {bs : List UInt8} {fr : Frame} {rx : List Rx}
    (hread : readFrame (sent bs) = some (fr, rx)) (hok : TurnOk (s, sent bs) fr) :
    ∃ t, simTurn d bs = some t ∧ SameTurn s fr rx t := by
  rcases simReadCommand_eq bs with ⟨hcmd, _⟩ | ⟨m, r, hcmd, hsim⟩
  · rw [readFrame, hcmd] at hread
    cases hread
  · rw [readFrame, hcmd] at hread
    rw [simTurn, hsim]
    cases m with
    | rp2b =>
      simp only [readExact_bytes] at hread
      by_cases hlen : 4 ≤ r.length
      · simp only [if_pos hlen, Option.some.injEq, Prod.mk.injEq] at hread
        obtain ⟨rfl, rfl⟩ := hread
        refine ⟨⟨d, Reply.blok.bytes ++ (le32 simSlotSize ++ le32 simChunk), true, r.drop 4⟩, ?_,
          rfl, ?_, hup.symm, h, fun hdone => ?_⟩
        · simp only [if_true, simReadExact_of_le hlen]
        · exact (List.append_assoc _ _ _).symm
        · simp [Reply.bytes] at hdone
      · simp only [if_neg hlen] at hread
        cases hread
    | begn => exact sameTurn_begn hup hread hok
    | data => exact sameTurn_data hup h hcmd hread hok
    | end' =>
      obtain ⟨rfl, rfl⟩ := Prod.mk.inj (Option.some.inj hread)
      exact ⟨_, rfl, sameTurn_end hup h r⟩
    | go =>
      obtain ⟨rfl, rfl⟩ := Prod.mk.inj (Option.some.inj hread)
      refine ⟨⟨d, Reply.bye.bytes, false, r⟩, rfl, rfl, rfl, rfl,
        ⟨h.appLen, h.appCrc, h.small, h.slot⟩, fun hdone => ?_⟩
      simp [Reply.bytes] at hdone

end Turn

/-- **While the device waits, so does the simulator.** -/
theorem simTurn_waiting {bs : List UInt8} (d : SimDevice) (hread : readFrame (sent bs) = none) :
    simTurn d bs = none := by
  rcases simReadCommand_eq bs with ⟨_, hsim⟩ | ⟨m, r, hcmd, hsim⟩
  · rw [simTurn, hsim]
  · rw [readFrame, hcmd] at hread
    rw [simTurn, hsim]
    cases m with
    | rp2b =>
      simp only [readExact_bytes] at hread
      by_cases hlen : 4 ≤ r.length
      · simp [hlen] at hread
      · simp only [if_true, simReadExact_of_not_le hlen]
    | begn =>
      show simBegn d r = none
      simp only [readBegn_bytes] at hread
      by_cases hlen : 8 ≤ r.length
      · simp [hlen] at hread
      · rw [simBegn, simReadExact_of_not_le hlen]
    | data =>
      show simData d r = none
      change readData (sent r) = none at hread
      by_cases hhdr : 12 ≤ r.length
      · rw [simData_payload d hhdr]
        -- A refused header would have been answered, and so would a payload that is there.
        cases hbounds : dataRefused (hdrOff r) (hdrLen r) with
        | true =>
          rw [readData_refused hhdr hbounds] at hread
          cases hread
        | false =>
          rw [readData_payload hhdr hbounds] at hread
          by_cases hall : (hdrLen r).toNat ≤ (r.drop 12).length
          · rw [if_pos hall] at hread
            cases hread
          · rw [if_neg hall]
      · rw [simData, simReadExact_of_not_le hhdr]
    | end' => cases hread
    | go => cases hread

/-! ## Whole runs -/

/-- What the device has done in the frames `l` that brought it to `c`, and what the simulator does
with the same bytes. -/
structure SameSession (s : Recv) (l : List Frame) (c : RecvConf) (d : SimDevice) (bs : List UInt8) :
    Prop where
  replies : (simServe l.length d bs).replies = (execFrames s l).2
  commits : (simServe l.length d bs).commits = doneImages s l
  rest : c.2 = sent (simServe l.length d bs).rest
  /-- Where the device waits or has rebooted, the simulator is done too. -/
  ends : (c.1.up = true → readFrame c.2 = none) →
    ∀ n, l.length ≤ n → simServe n d bs = simServe l.length d bs

theorem simServe_waiting {d : SimDevice} {bs : List UInt8} (h : simTurn d bs = none) (n : ℕ) :
    simServe n d bs = ⟨d, [], [], bs⟩ := by
  cases n with
  | zero => rfl
  | succ n => rw [simServe, h]

section Serve

variable {s : Recv} {fr : Frame} {d : SimDevice} {bs : List UInt8} {t : SimTurn}

theorem simServe_goesOn (hturn : simTurn d bs = some t) (hgo : t.goesOn = true) (n : ℕ) :
    simServe (n + 1) d bs = { simServe n t.dev t.rest with
      replies := t.reply ++ (simServe n t.dev t.rest).replies
      commits := t.commits ++ (simServe n t.dev t.rest).commits } := by
  rw [simServe, hturn]
  simp only [hgo, if_true]

theorem simServe_stops (hturn : simTurn d bs = some t) (hgo : t.goesOn = false) (n : ℕ) :
    simServe (n + 1) d bs = ⟨t.dev, t.reply, t.commits, t.rest⟩ := by
  rw [simServe, hturn]
  simp only [hgo, Bool.false_eq_true, if_false]

theorem SameTurn.doneImages {rx : List Rx} (h : SameTurn s fr rx t) (l : List Frame) :
    doneImages s (fr :: l) = t.commits ++ doneImages (execFrame s fr).1 l := by
  rw [EthPanel.doneImages, SimTurn.commits, ← h.reply]
  by_cases hdone : t.reply = Reply.done.bytes
  · rw [if_pos hdone, if_pos hdone, h.commit hdone]
    rfl
  · rw [if_neg hdone, if_neg hdone]

theorem SameSession.cons {l : List Frame} {c : RecvConf} {rx : List Rx}
    (hturn : simTurn d bs = some t) (hgo : t.goesOn = true) (h : SameTurn s fr rx t)
    (hmore : SameSession (execFrame s fr).1 l c t.dev t.rest) :
    SameSession s (fr :: l) c d bs := by
  have hserve := simServe_goesOn hturn hgo
  refine ⟨?_, ?_, ?_, fun hwait n hn => ?_⟩
  · rw [List.length_cons, hserve, execFrames, ← hmore.replies, h.reply]
  · rw [List.length_cons, hserve, h.doneImages, ← hmore.commits]
  · rw [List.length_cons, hserve, hmore.rest]
  · cases n with
    | zero => cases hn
    | succ n =>
      rw [List.length_cons, hserve, hserve, hmore.ends hwait n (Nat.le_of_succ_le_succ hn)]

/-- After a reboot there is no further turn. -/
theorem SameSession.last {rx : List Rx} (hturn : simTurn d bs = some t) (hgo : t.goesOn = false)
    (h : SameTurn s fr rx t) : SameSession s [fr] ((execFrame s fr).1, rx) d bs := by
  have hserve := simServe_stops hturn hgo
  refine ⟨?_, ?_, ?_, fun _ n hn => ?_⟩
  · rw [List.length_singleton, hserve, h.reply]
    exact (List.append_nil _).symm
  · rw [List.length_singleton, hserve, h.doneImages]
    exact (List.append_nil _).symm
  · rw [List.length_singleton, hserve]
    exact h.rest
  · cases n with
    | zero => cases hn
    | succ n => rw [List.length_singleton, hserve, hserve]

end Serve

/-- **The run lemma.** -/
theorem SameSession.of_run {c₀ c : RecvConf} {l : List Frame}
    (r : Run (Guarded RecvStep TurnOk) c₀ l c) : ∀ {d : SimDevice} {bs : List UInt8},
    c₀.1.up = true → Sims c₀.1 d → c₀.2 = sent bs → SameSession c₀.1 l c d bs := by
  induction r with
  | nil c₀ =>
    intro d bs hup _ hbs
    refine ⟨rfl, rfl, hbs, fun hwait n _ => ?_⟩
    exact simServe_waiting (simTurn_waiting d (hbs ▸ hwait hup)) n
  | @cons c₀ c₁ c₂ fr l hstep r ih =>
    intro d bs hup hsims hbs
    obtain ⟨s₀, rx₀⟩ := c₀
    obtain ⟨s₁, rx₁⟩ := c₁
    obtain ⟨⟨_, hread, hexec⟩, hok⟩ := hstep
    dsimp only at hbs hread hexec hup hsims ih ⊢
    subst hbs hexec
    obtain ⟨t, hturn, hsame⟩ := sameTurn hup hsims hread hok
    cases hgo : t.goesOn with
    | true => exact .cons hturn hgo hsame (ih (hsame.goesOn ▸ hgo) hsame.sims hsame.rest)
    | false =>
      have hdown : (execFrame s₀ fr).1.up = false := hsame.goesOn ▸ hgo
      cases r with
      | nil => exact .last hturn hgo hsame
      | cons hstep _ =>
        rw [hstep.1.1] at hdown
        cases hdown

/-- **The stand-in stands in**, in every run of turns that do not run into what it leaves out: the
two send the same replies, commit the same image at every DONE, and stop at the same byte. -/
theorem otaSim_mirrors {f : Flash} {bs : List UInt8} {l : List Frame} {c : RecvConf}
    (r : Run (Guarded RecvStep TurnOk) (Recv.start f, sent bs) l c) :
    SameSession (Recv.start f) l c .new bs :=
  SameSession.of_run r rfl (Sims.start f) rfl

/-- An update of one byte, as the host sends it. -/
def oneByteUpdate : List UInt8 :=
  Magic.begn.bytes ++ le32 1 ++ le32 (otaCrc32 [0x2A]) ++
    (Magic.data.bytes ++ le32 0 ++ le32 1 ++ le32 (otaCrc32 [0x2A]) ++ [0x2A]) ++
    Magic.end'.bytes ++ Magic.go.bytes

theorem otaSim_mirrors_oneByte : ∃ c : RecvConf, SameSession (Recv.start fun _ => 0xFF)
    [.begn 1 (otaCrc32 [0x2A]), .data 0 1 [0x2A], .end', .go] c .new oneByteUpdate := by
  have hwrite : ∀ s : Recv, s.flash appOffset.toNat = 0xFF → s.Writable 0 [0x2A] := by
    intro s hblank i hi _
    obtain rfl : i = 0 := by simpa using hi
    show s.flash appOffset.toNat &&& 0x2A = 0x2A
    rw [hblank]
    decide
  refine ⟨_, otaSim_mirrors
    (.cons (t := (_, sent (oneByteUpdate.drop 12))) ⟨⟨rfl, by decide +kernel, rfl⟩,
      ⟨by decide, by decide⟩⟩
    (.cons (t := (_, sent (oneByteUpdate.drop 29))) ⟨⟨rfl, by decide +kernel, rfl⟩, ?_⟩
    (.cons (t := (_, sent (oneByteUpdate.drop 33))) ⟨⟨rfl, by decide +kernel, rfl⟩, trivial⟩
    (.cons (t := (_, [])) ⟨⟨rfl, by decide +kernel, rfl⟩, trivial⟩ (.nil _)))))⟩
  exact ⟨⟨by decide, by decide, by decide⟩, hwrite _ (by decide +kernel)⟩

/-- **The simulator accepts an image of no bytes**, which the device refuses. -/
theorem mirrors_emptyBegn : ¬ ∀ (bs : List UInt8) (l : List Frame) (c : RecvConf),
    Run RecvStep (Recv.start fun _ => 0xFF, sent bs) l c →
    SameSession (Recv.start fun _ => 0xFF) l c .new bs := by
  intro h
  have hstep : RecvStep (Recv.start fun _ => 0xFF, sent (Magic.begn.bytes ++ le32 0 ++ le32 0))
      (.begn 0 0) ((execFrame (Recv.start fun _ => 0xFF) (.begn 0 0)).1, []) :=
    ⟨rfl, by decide, rfl⟩
  have hreplies := (h _ _ _ (.single hstep)).replies
  revert hreplies
  decide

end EthPanel
