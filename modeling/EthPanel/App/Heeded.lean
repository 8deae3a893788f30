import EthPanel.App.Main
import EthPanel.App.Request

/-!
# `main.c`: what the loop has read, it has done

From one moment of the loop to a later one, with no client connecting in between, the line buffer
and the settings are what the bytes read make of them, whatever else the passes did: `Heeded` is
about any part of a run (`Heeded.run`). Lines that the device takes for some requests are answered
and done, all of them or up to an ota (`taken`).
-/

namespace EthPanel

open Lts

/-! ## What the loop has read -/

/-- All that `net_read` brings. -/
def bytesRead (l : List MainEvent) : List UInt8 := l.flatMap MainEvent.bytes

/-- The line is an `ota` command. -/
def LineOut.asksUpdate : LineOut UInt8 → Bool
  | .dispatch line => (protoParse (CString.ofBuf line).bytes).1 &&
      decide ((protoParse (CString.ofBuf line).bytes).2.type = .ota)
  | .lineTooLong => false

theorem dispatch_asksUpdate (a : App) (line : List UInt8) :
    (dispatch a (.ofBuf line)).1.rebooting = (a.rebooting || LineOut.asksUpdate (.dispatch line)) ∧
      (LineOut.asksUpdate (.dispatch line) = true →
        (dispatch a (.ofBuf line)).2 = [.ack "ota"]) := by
  simp only [dispatch, LineOut.asksUpdate]
  cases protoParse (CString.ofBuf line).bytes with
  | mk found c =>
    cases found with
    | false => simp
    | true =>
      cases htype : c.type with
      | ota => simp [htype, sendAck_eq (show "ota" ∈ ackCmds by decide)]
      | ring => simp [htype]
      | lamp => by_cases hon : c.on = 0 ∨ c.on = 1 <;> simp [htype, hon]
      | config =>
        by_cases hms : 1 ≤ c.debounceMs ∧ c.debounceMs ≤ 1000 <;> simp [htype, hms]
      | _ => simp [htype]

theorem actAll_asksUpdate (a : App) {outs : List (LineOut UInt8)} (hone : outs.length ≤ 1) :
    (actAll a outs).1.rebooting = (a.rebooting || outs.any LineOut.asksUpdate) ∧
      (outs.any LineOut.asksUpdate = true → (actAll a outs).2 = [.ack "ota"]) := by
  rcases outs with _ | ⟨out, _ | ⟨out', outs⟩⟩
  · simp [actAll]
  · cases out with
    | dispatch line =>
      obtain ⟨hreboot, hack⟩ := dispatch_asksUpdate a line
      refine ⟨?_, fun hask => ?_⟩
      · simpa [actAll, LineOut.act] using hreboot
      · simpa [actAll, LineOut.act] using hack (by simpa using hask)
    | lineTooLong => simp [actAll, LineOut.act, LineOut.asksUpdate]
  · simp at hone

theorem length_feed_le (s : LineState UInt8) (ch : UInt8) : (feed id s ch).2.length ≤ 1 := by
  unfold feed
  split_ifs <;> simp

/-! ## The settings -/

/-- What a line of the device's answers, if it is no button line. -/
def ProtoEvent.answer? : ProtoEvent → Option Answer
  | .hello .. => some .hello
  | .ack cmd => some (.ack cmd)
  | .err msg => some (.err msg)
  | .btn .. => none

theorem answer?_event (a : App) (w : Answer) : (w.event a).answer? = some w := by
  cases w <;> rfl

theorem ringsSet_st {rs rs' : Rings} (h : rs.st = rs'.st) (idx r g b brightness : ℤ) :
    (ringsSet rs idx r g b brightness).1 = (ringsSet rs' idx r g b brightness).1 ∧
      (ringsSet rs idx r g b brightness).2.st = (ringsSet rs' idx r g b brightness).2.st := by
  unfold ringsSet
  split
  · split
    · exact ⟨rfl, h⟩
    · dsimp only
      rw [h]
      split
      · exact ⟨rfl, rfl⟩
      · exact ⟨rfl, h⟩
  · exact ⟨rfl, h⟩

/-- The settings after a line, and its answer, owe nothing to what else there is. -/
theorem dispatch_settings {a a' : App} (h : a.settings = a'.settings) (line : CString) :
    (dispatch a line).1.settings = (dispatch a' line).1.settings ∧
      (dispatch a line).2.filterMap ProtoEvent.answer? =
        (dispatch a' line).2.filterMap ProtoEvent.answer? := by
  obtain ⟨hst, hlamp, hms⟩ := Settings.mk.inj h
  unfold dispatch
  cases protoParse line.bytes with
  | mk found c =>
    cases found with
    | false => exact ⟨h, rfl⟩
    | true =>
      cases htype : c.type with
      | ring =>
        obtain ⟨hok, hset⟩ := ringsSet_st hst ((c.id - 1).bmod (2 ^ 32)) c.r c.g c.b c.brightness
        simp only [htype, App.settings, hset, hlamp, hms, hok, and_self]
      | lamp =>
        simp only [htype]
        split
        · simp only [App.settings, hst, hms, and_self]
        · exact ⟨h, rfl⟩
      | config =>
        simp only [htype]
        split
        · simp only [App.settings, hst, hlamp, and_self]
        · exact ⟨h, rfl⟩
      | ping => simpa only [htype, and_true] using h
      | hello =>
        simp only [htype, sendHello_eq]
        exact ⟨h, rfl⟩
      | ota =>
        simp only [htype, and_true]
        exact h
      | none => simpa only [htype, and_true] using h
      | unknown => simpa only [htype, and_true] using h

theorem actAll_settings {a a' : App} (h : a.settings = a'.settings) (outs : List (LineOut UInt8)) :
    (actAll a outs).1.settings = (actAll a' outs).1.settings ∧
      (actAll a outs).2.filterMap ProtoEvent.answer? =
        (actAll a' outs).2.filterMap ProtoEvent.answer? := by
  induction outs generalizing a a' with
  | nil => exact ⟨h, rfl⟩
  | cons out outs ih =>
    have hone : (out.act a).1.settings = (out.act a').1.settings ∧
        (out.act a).2.filterMap ProtoEvent.answer? =
          (out.act a').2.filterMap ProtoEvent.answer? := by
      cases out with
      | dispatch line => exact dispatch_settings h _
      | lineTooLong => exact ⟨h, rfl⟩
    obtain ⟨hsettings, hanswers⟩ := ih hone.1
    refine ⟨hsettings, ?_⟩
    rw [actAll, actAll, List.filterMap_append, List.filterMap_append, hone.2, hanswers]

theorem actAll_append (a : App) (outs outs' : List (LineOut UInt8)) :
    (actAll a (outs ++ outs')).1 = (actAll (actAll a outs).1 outs').1 ∧
      (actAll a (outs ++ outs')).2 = (actAll a outs).2 ++ (actAll (actAll a outs).1 outs').2 := by
  induction outs generalizing a with
  | nil => exact ⟨rfl, rfl⟩
  | cons out outs ih =>
    obtain ⟨happ, hsent⟩ := ih (out.act a).1
    refine ⟨happ, ?_⟩
    rw [List.cons_append, actAll, actAll, hsent, List.append_assoc]

/-! ## A run -/

/-- Between `s` and `t` the loop has read `read` and has done what it had to with `done`. -/
structure Heeded (s t : MainLoop) (read done : List UInt8) : Prop where
  bytes : s.phase.unread ++ read = done ++ t.phase.unread
  line : t.line = (feedAll id s.line done).1
  settings : t.app.settings = (actAll s.app (feedAll id s.line done).2).1.settings
  answers : t.sent.filterMap ProtoEvent.answer? = s.sent.filterMap ProtoEvent.answer? ++
    (actAll s.app (feedAll id s.line done).2).2.filterMap ProtoEvent.answer?
  asked : t.app.rebooting =
    (s.app.rebooting || (feedAll id s.line done).2.any LineOut.asksUpdate)
  /-- Nothing is read after a line that asks for an update. -/
  stopped : s.app.rebooting = false → t.app.rebooting = true → ∃ before b, done = before ++ [b] ∧
    (feedAll id s.line before).2.any LineOut.asksUpdate = false
  acked : s.app.rebooting = false → t.app.rebooting = true →
    ∃ before, t.sent = before ++ [.ack "ota"]

section Run

variable {s t : MainLoop}

theorem Heeded.nil (s : MainLoop) : Heeded s s [] [] where
  bytes := by rw [List.append_nil, List.nil_append]
  line := rfl
  settings := rfl
  answers := (List.append_nil _).symm
  asked := by simp [feedAll]
  stopped := fun hup hreboot => by simp [hup] at hreboot
  acked := fun hup hreboot => by simp [hup] at hreboot

/-- A step that reads no line. -/
theorem Heeded.of_eq {read : List UInt8} (hbytes : s.phase.unread ++ read = t.phase.unread)
    (hline : t.line = s.line) (hsettings : t.app.settings = s.app.settings)
    (hanswers : t.sent.filterMap ProtoEvent.answer? = s.sent.filterMap ProtoEvent.answer?)
    (hreboot : t.app.rebooting = s.app.rebooting) : Heeded s t read [] where
  bytes := hbytes
  line := hline
  settings := hsettings
  answers := hanswers.trans (List.append_nil _).symm
  asked := by simp [feedAll, hreboot]
  stopped := fun hup hreboot' => by simp [hreboot, hup] at hreboot'
  acked := fun hup hreboot' => by simp [hreboot, hup] at hreboot'

theorem Heeded.byte (s : MainLoop) {ch : UInt8} {rx : List UInt8}
    (hphase : s.phase = .reading (ch :: rx)) : Heeded s (s.byte ch rx) [] [ch] := by
  obtain ⟨hreboot, hack⟩ := actAll_asksUpdate s.app (length_feed_le s.line ch)
  refine ⟨?_, rfl, ?_, ?_, ?_, fun hup _ => ⟨[], ch, rfl, rfl⟩, ?_⟩
  · rw [hphase]
    exact List.append_nil _
  · simp [MainLoop.byte, feedAll]
  · simp [MainLoop.byte, feedAll]
  · simpa [MainLoop.byte, feedAll] using hreboot
  · intro hup hdown
    have hask : (feed id s.line ch).2.any LineOut.asksUpdate = true := by
      have hdown' : (actAll s.app (feed id s.line ch).2).1.rebooting = true := hdown
      rwa [hreboot, hup, Bool.false_or] at hdown'
    exact ⟨s.sent, by rw [← hack hask]; rfl⟩

/-- No client connects at the first of some steps, and none at the others. -/
theorem MainStep.seesConnect {e : MainEvent} {l : List MainEvent} (hs : MainStep s e t)
    (h : seesConnect s.peerWasConnected (e :: l) = false) :
    (∀ peer, e = .poll peer → (peer && !s.peerWasConnected) = false) ∧
      EthPanel.seesConnect t.peerWasConnected l = false := by
  obtain ⟨-, hdid⟩ := hs.did
  cases hdid with
  | poll peer hphase =>
    obtain ⟨hnone, hrest⟩ := Bool.or_eq_false_iff.mp h
    refine ⟨fun peer' heq => ?_, hrest⟩
    rwa [← MainEvent.poll.inj heq]
  | sample raw nowMs hphase => exact ⟨fun _ heq => (nomatch heq), h⟩
  | sendBtn hphase => exact ⟨fun _ heq => (nomatch heq), h⟩
  | read rx hphase hsize => exact ⟨fun _ heq => (nomatch heq), h⟩
  | byte hphase => exact ⟨fun _ heq => (nomatch heq), h⟩
  | flush hphase => exact ⟨fun _ heq => (nomatch heq), h⟩

/-- A step at which no client connects. -/
theorem Heeded.step {e : MainEvent} (hs : MainStep s e t)
    (hpeer : ∀ peer, e = .poll peer → (peer && !s.peerWasConnected) = false) :
    ∃ done, Heeded s t e.bytes done := by
  obtain ⟨-, hdid⟩ := hs.did
  cases hdid with
  | poll peer hphase =>
    have hnone := hpeer peer rfl
    refine ⟨[], .of_eq ?_ ?_ rfl ?_ rfl⟩
    · rw [hphase]
      rfl
    · simp [MainLoop.poll, hnone]
    · simp [MainLoop.poll, hnone]
  | sample raw nowMs hphase => exact ⟨[], .of_eq (by rw [hphase]; rfl) rfl rfl rfl rfl⟩
  | @sendBtn ev evs nowMs hphase =>
    refine ⟨[], .of_eq (by rw [hphase]; rfl) rfl rfl ?_ rfl⟩
    have hnone : (sendLine 64 (btnLine nowMs ev)).filterMap ProtoEvent.answer? = [] := by
      unfold sendLine
      split <;> rfl
    rw [List.filterMap_append, hnone, List.append_nil]
  | read rx hphase hsize => exact ⟨[], .of_eq (by rw [hphase]; rfl) rfl rfl rfl rfl⟩
  | @byte ch rx hphase => exact ⟨[ch], .byte s hphase⟩
  | flush hphase =>
    have hst : (ringsFlush s.app.rings).1.st = s.app.rings.st := by rw [ringsFlush_eq]
    refine ⟨[], .of_eq (by rw [hphase]; rfl) rfl ?_ rfl rfl⟩
    show Settings.mk (ringsFlush s.app.rings).1.st s.app.lamp s.app.debounceMs = _
    rw [hst]
    rfl

theorem Heeded.trans {u : MainLoop} {read read' done done' : List UInt8}
    (h : Heeded s t read done) (h' : Heeded t u read' done') (hup : t.app.rebooting = false) :
    Heeded s u (read ++ read') (done ++ done') where
  bytes := by rw [← List.append_assoc, h.bytes, List.append_assoc, h'.bytes, List.append_assoc]
  line := by rw [h'.line, h.line, feedAll_append]
  settings := by
    rw [h'.settings, h.line, feedAll_append, (actAll_append _ _ _).1]
    exact (actAll_settings h.settings _).1
  answers := by
    rw [h'.answers, h.answers, h.line, feedAll_append, (actAll_append _ _ _).2,
      List.filterMap_append, (actAll_settings h.settings _).2, List.append_assoc]
  asked := by
    rw [h'.asked, h.asked, h.line, feedAll_append, List.any_append, Bool.or_assoc]
  stopped := fun _ hreboot => by
    obtain ⟨before, b, rfl, hnone⟩ := h'.stopped hup hreboot
    have hfirst : (feedAll id s.line done).2.any LineOut.asksUpdate = false :=
      (Bool.or_eq_false_iff.mp (h.asked.symm.trans hup)).2
    refine ⟨done ++ before, b, (List.append_assoc _ _ _).symm, ?_⟩
    rw [feedAll_append, List.any_append, hfirst, ← h.line, hnone]
    rfl
  acked := fun _ hreboot => h'.acked hup hreboot

/-- The run lemma. -/
theorem Heeded.run {l : List MainEvent} (r : Run MainStep s l t) (hup : s.app.rebooting = false)
    (hpeer : seesConnect s.peerWasConnected l = false) :
    ∃ done, Heeded s t (bytesRead l) done := by
  induction r with
  | nil s => exact ⟨[], .nil s⟩
  | @cons s t u e l hs r ih =>
    obtain ⟨hnone, hrest⟩ := hs.seesConnect hpeer
    obtain ⟨done, hstep⟩ := Heeded.step hs hnone
    cases hreboot : t.app.rebooting with
    | true =>
      -- There is no step from here.
      cases r with
      | nil => exact ⟨done, by simpa [bytesRead] using hstep⟩
      | cons hs' r =>
        rw [hs'.did.1] at hreboot
        cases hreboot
    | false =>
      obtain ⟨done', hrun⟩ := ih hreboot hrest
      exact ⟨done ++ done', hstep.trans hrun hreboot⟩

end Run

/-! ## Whole lines -/

theorem feedAll_silent {line : List UInt8} (h : ∀ b ∈ line, b ≠ newline) {s : LineState UInt8}
    (hd : s.discard = false) (hroom : s.linebuf.length + line.length ≤ 255) :
    (feedAll id s line).2 = [] := by
  induction line generalizing s with
  | nil => rfl
  | cons b line ih =>
    rw [List.length_cons] at hroom
    obtain ⟨hbuf, hdis, hnone⟩ := @feed_store _ id _ _ (h b List.mem_cons_self) hd (by omega)
    have hrest := ih (fun c hc => h c (List.mem_cons_of_mem _ hc)) hdis
      (by rw [hbuf, List.length_append, List.length_singleton]; omega)
    rw [feedAll, hnone, hrest]
    rfl

/-- A line that the dispatcher gets as it was sent. -/
def WholeLine (line : List UInt8) : Prop :=
  line ≠ [] ∧ line.length ≤ 255 ∧ ∀ b ∈ line, b ≠ newline ∧ b ≠ 0

theorem feedAll_line {line : List UInt8} (h : WholeLine line) (rest : List UInt8) :
    feedAll id .fresh (line ++ newline :: rest) =
      ((feedAll id .fresh rest).1, .dispatch line :: (feedAll id .fresh rest).2) := by
  obtain ⟨hne, hlen, hline⟩ := h
  have hroom : (LineState.fresh : LineState UInt8).linebuf.length + line.length ≤ 255 := by
    rw [show (LineState.fresh : LineState UInt8).linebuf.length = 0 from rfl]
    omega
  obtain ⟨hbuf, hdis⟩ := @feedAll_store _ id _ (fun b hb => (hline b hb).1) _ rfl hroom
  have hnone := feedAll_silent (fun b hb => (hline b hb).1) rfl hroom
  rw [show (LineState.fresh : LineState UInt8).linebuf = [] from rfl, List.nil_append] at hbuf
  obtain ⟨hfresh, hout⟩ := @feed_newline _ id (feedAll id .fresh line).1 newline rfl
  rw [hbuf, hdis, if_pos ⟨rfl, hne⟩, @cString_eq _ id _ fun b hb => (hline b hb).2] at hout
  rw [feedAll_append, feedAll, hfresh, hout, hnone]
  rfl

/-- **Whole lines are dispatched as they are**, each after the one before it. -/
theorem feedAll_lines {lines : List (List UInt8)} (h : ∀ line ∈ lines, WholeLine line) :
    feedAll id .fresh (lines.flatMap (· ++ [newline])) = (.fresh, lines.map .dispatch) := by
  induction lines with
  | nil => rfl
  | cons line lines ih =>
    rw [List.flatMap_cons, List.append_assoc, List.singleton_append,
      feedAll_line (h line List.mem_cons_self), ih fun l hl => h l (List.mem_cons_of_mem line hl)]
    rfl

/-! ## Up to the line that asks for an update -/

section Lines

open Terminated

/-- What the loop makes of a line and its newline. -/
def lineOuts (line : List UInt8) : List (LineOut UInt8) := (feedAll id .fresh (line ++ [newline])).2

def lineAsks (line : List UInt8) : Bool := (lineOuts line).any LineOut.asksUpdate

theorem lineOuts_whole {line : List UInt8} (h : WholeLine line) :
    lineOuts line = [.dispatch line] :=
  congrArg Prod.snd (feedAll_line h [])

theorem lineOuts_long {line : List UInt8} (h : newline ∉ line) (hlong : 255 < line.length) :
    lineOuts line = [.lineTooLong] := by
  have hfresh : Holds [] (LineState.fresh : LineState UInt8) :=
    ⟨fun _ => ⟨rfl, rfl⟩, fun hlong => absurd hlong (by simp)⟩
  have hline : ∀ b ∈ line, (id b == newline) = false := by
    intro b hb
    rw [beq_eq_false_iff_ne]
    rintro rfl
    exact h hb
  have hended : Framing.ended line = [.lineTooLong] := by
    rw [Framing.ended, if_neg (List.ne_nil_of_length_pos (by omega)), if_neg (by omega)]
  rw [lineOuts, feedAll_holds id hfresh, piecesAfter_nil,
    List.splitOnP_append_cons_of_forall_mem hline newline rfl [], List.splitOnP_nil]
  simp only [Framing.pieces, hended]
  rfl

theorem feedAll_wire (lines : List (List UInt8)) (rest : List UInt8) :
    (feedAll id .fresh (wire newline lines ++ rest)).2 =
      lines.flatMap lineOuts ++ (feedAll id .fresh rest).2 := by
  induction lines with
  | nil => rfl
  | cons line lines ih =>
    have hfresh : (feedAll id .fresh (line ++ [newline])).1 = .fresh := by
      rw [feedAll_append]
      exact (@feed_newline _ id (feedAll id .fresh line).1 newline rfl).1
    have hsplit : wire newline (line :: lines) ++ rest =
        line ++ [newline] ++ (wire newline lines ++ rest) := by
      rw [wire_cons, List.append_assoc, List.append_assoc]
      rfl
    rw [hsplit, feedAll_append, hfresh, ih, List.flatMap_cons, List.append_assoc]
    rfl

/-- Nothing is dispatched before the newline. -/
theorem unended_asks {part : List UInt8} (h : newline ∉ part) (s : LineState UInt8) :
    (feedAll id s part).2.any LineOut.asksUpdate = false := by
  induction part generalizing s with
  | nil => rfl
  | cons b part ih =>
    obtain ⟨hb, hpart⟩ := not_or.mp (List.mem_cons.not.mp h)
    have hbyte : (feed id s b).2.any LineOut.asksUpdate = false := by
      unfold feed
      rw [if_neg (show ¬ id b = newline from Ne.symm hb)]
      split_ifs <;> rfl
    rw [feedAll, List.any_append, hbyte, ih hpart]
    rfl

/-- What has come of some lines asks for an update if the first line that does has come. -/
theorem prefix_asks_iff {lines : List (List UInt8)} (h : ∀ line ∈ lines, newline ∉ line)
    {got : List UInt8} (hgot : got <+: wire newline lines) :
    (feedAll id .fresh got).2.any LineOut.asksUpdate = true ↔
      lines.any lineAsks = true ∧ wire newline (through lineAsks lines) <+: got := by
  obtain ⟨whole, later, rest, rfl, rfl, hend, hnext⟩ := prefix_wire hgot
  have hrest : newline ∉ rest := by
    cases later with
    | nil =>
      rw [hend rfl]
      exact List.not_mem_nil
    | cons line later =>
      exact fun hmem => h line (List.mem_append_right _ List.mem_cons_self)
        ((hnext line later rfl).subset hmem)
  have hasks : (feedAll id .fresh (wire newline whole ++ rest)).2.any LineOut.asksUpdate =
      whole.any lineAsks := by
    rw [feedAll_wire, List.any_append, unended_asks hrest, Bool.or_false, List.any_flatMap]
    rfl
  rw [hasks, List.any_append, through_append]
  cases hwhole : whole.any lineAsks with
  | true =>
    simp only [Bool.true_or, if_true, true_and, true_iff]
    exact (prefix_wire_through newline lineAsks whole).trans (List.prefix_append _ _)
  | false =>
    simp only [Bool.false_or, Bool.false_eq_true, if_false, false_iff, wire_append,
      List.prefix_append_right_inj, not_and]
    intro hlater hcome
    -- The line that asks is among the later ones, and of those no newline has come.
    cases later with
    | nil => cases hlater
    | cons line later =>
      have hhead : ∃ more, through lineAsks (line :: later) = line :: more := by
        rw [through]
        split
        · exact ⟨[], rfl⟩
        · exact ⟨_, rfl⟩
      obtain ⟨more, hmore⟩ := hhead
      rw [hmore, wire_cons] at hcome
      exact hrest (hcome.subset (by simp))

/-- **What has been done of some lines**: all of them, or up to the one that asks for an update. -/
theorem Heeded.done_eq {s t : MainLoop} {read done : List UInt8} (h : Heeded s t read done)
    (hunread : s.phase.unread = []) (hline : s.line = .fresh) (hup : s.app.rebooting = false)
    {lines : List (List UInt8)} (hlines : ∀ line ∈ lines, newline ∉ line)
    (hread : read <+: wire newline lines)
    (hend : read = wire newline lines ∧ t.phase.unread = [] ∨ t.app.rebooting = true) :
    done = wire newline (through lineAsks lines) := by
  have hbytes := h.bytes
  rw [hunread, List.nil_append] at hbytes
  have hdone : done <+: wire newline lines := by
    rw [hbytes] at hread
    exact (List.prefix_append _ _).trans hread
  have hasked := h.asked
  rw [hup, hline, Bool.false_or] at hasked
  cases hreboot : t.app.rebooting with
  | true =>
    obtain ⟨before, b, rfl, hbefore⟩ := h.stopped hup hreboot
    obtain ⟨hany, hcome⟩ := (prefix_asks_iff hlines hdone).mp (hasked.symm.trans hreboot)
    rcases List.prefix_concat_iff.mp hcome with hall | hshort
    · exact hall.symm
    · have hask := (prefix_asks_iff hlines ((List.prefix_append _ _).trans hdone)).mpr
        ⟨hany, hshort⟩
      rw [hline, hask] at hbefore
      cases hbefore
  | false =>
    obtain ⟨hall, hnone⟩ := hend.resolve_right (by rw [hreboot]; exact Bool.false_ne_true)
    rw [hall, hnone, List.append_nil] at hbytes
    subst hbytes
    have hquiet : lines.any lineAsks = false := by
      rw [← Bool.not_eq_true]
      intro hany
      have hask := (prefix_asks_iff hlines hdone).mpr ⟨hany, prefix_wire_through _ _ _⟩
      rw [← hasked, hreboot] at hask
      cases hask
    rw [through_eq hquiet]

/-- The device takes a line for a request, and so answers it. -/
structure Takes (line : List UInt8) (q : Request) (w : Answer) : Prop where
  oneLine : newline ∉ line
  settings : ∀ a, (actAll a (lineOuts line)).1.settings = q.perform a.settings
  answers : ∀ a, (actAll a (lineOuts line)).2.filterMap ProtoEvent.answer? = [w]
  asks : lineAsks line = decide (q = .ota)

/-- A whole line that `dispatch` takes for a request. -/
theorem Takes.of_dispatch {line : List UInt8} {q : Request} (h : WholeLine line)
    (hserved : ∀ a, (dispatch a (.ofBuf line)).2 = [q.answer.event a] ∧
      (dispatch a (.ofBuf line)).1.settings = q.perform a.settings) :
    Takes line q q.answer where
  oneLine hmem := (h.2.2 _ hmem).1 rfl
  settings a := by
    rw [lineOuts_whole h]
    exact (hserved a).2
  answers a := by
    rw [lineOuts_whole h, actAll, actAll, List.append_nil, LineOut.act, (hserved a).1,
      List.filterMap_cons, answer?_event]
    rfl
  asks := by
    let a := App.init fun _ => 0
    have hreboot := (dispatch_asksUpdate a line).1
    have hiff := rebooting_iff a (.ofBuf line)
    rw [(hserved a).1, List.singleton_inj, ota_of_answer] at hiff
    have hdown : a.rebooting = false := rfl
    rw [hdown, Bool.false_or] at hreboot
    rw [lineAsks, lineOuts_whole h, List.any_cons, List.any_nil, Bool.or_false, ← hreboot,
      Bool.eq_iff_iff, hiff, hdown, decide_eq_true_iff]
    simp

section Takes

variable {ι : Type*} {text : ι → List UInt8} {q : ι → Request} {w : ι → Answer} {ls : List ι}
  (hls : ∀ l ∈ ls, Takes (text l) (q l) (w l))

include hls

/-- Line after line. -/
theorem actAll_taken (a : App) :
    (actAll a ((ls.map text).flatMap lineOuts)).1.settings = performAll a.settings (ls.map q) ∧
      (actAll a ((ls.map text).flatMap lineOuts)).2.filterMap ProtoEvent.answer? = ls.map w := by
  induction ls generalizing a with
  | nil => exact ⟨rfl, rfl⟩
  | cons l ls ih =>
    have hl := hls l List.mem_cons_self
    obtain ⟨hsettings, hanswers⟩ :=
      ih (fun l' hl' => hls l' (List.mem_cons_of_mem l hl')) (actAll a (lineOuts (text l))).1
    obtain ⟨happ, hsent⟩ := actAll_append a (lineOuts (text l)) ((ls.map text).flatMap lineOuts)
    rw [List.map_cons, List.flatMap_cons, happ, hsent, hsettings, List.filterMap_append, hanswers,
      hl.settings, hl.answers]
    exact ⟨rfl, rfl⟩

theorem any_taken :
    ((ls.map text).flatMap lineOuts).any LineOut.asksUpdate = decide (Request.ota ∈ ls.map q) := by
  induction ls with
  | nil => rfl
  | cons l ls ih =>
    have hl : (lineOuts (text l)).any LineOut.asksUpdate = decide (q l = .ota) :=
      (hls l List.mem_cons_self).asks
    rw [List.map_cons, List.flatMap_cons, List.any_append, hl,
      ih fun l' hl' => hls l' (List.mem_cons_of_mem l hl'), List.map_cons, Bool.eq_iff_iff]
    simp only [Bool.or_eq_true, decide_eq_true_eq, List.mem_cons]
    exact or_congr_left eq_comm

/-- **What becomes of some lines**, once the loop has read them all or has been asked to update.
They begin where a line does (`hphase`, `hline`): what was there before would be part of the first.
And no pass sees a client connect (`hpeer`): at a connect edge `main` flushes the ring and drops the
half-read line, and with them some of the lines. -/
theorem taken {s t : MainLoop} {k : List MainEvent} (r : Run MainStep s k t)
    (hphase : ∀ rx, s.phase ≠ .reading rx) (hline : s.line = .fresh)
    (hup : s.app.rebooting = false) (hpeer : seesConnect s.peerWasConnected k = false)
    (hread : bytesRead k <+: wire newline (ls.map text))
    (hend : bytesRead k = wire newline (ls.map text) ∧ t.phase = .top ∨ t.app.rebooting = true) :
    t.sent.filterMap ProtoEvent.answer? = s.sent.filterMap ProtoEvent.answer? ++
        (through (fun l => q l = .ota) ls).map w ∧
      t.app.settings = performAll s.app.settings (upToOta (ls.map q)) ∧
      t.app.rebooting = decide (Request.ota ∈ ls.map q) := by
  obtain ⟨done, hheeded⟩ := Heeded.run r hup hpeer
  have hunread : s.phase.unread = [] := by
    cases hs : s.phase with
    | reading rx => exact absurd hs (hphase rx)
    | top => rfl
    | buttons => rfl
    | sending evs nowMs => rfl
  have hlines : ∀ line ∈ ls.map text, newline ∉ line := by
    intro line hline
    obtain ⟨l, hl, rfl⟩ := List.mem_map.mp hline
    exact (hls l hl).oneLine
  have hdone := hheeded.done_eq hunread hline hup hlines hread
    (hend.imp_left fun hall => ⟨hall.1, by rw [hall.2]; rfl⟩)
  -- The lines that have been read are those up to an ota.
  let heard := through (fun l => q l = .ota) ls
  have hheard : through lineAsks (ls.map text) = heard.map text := by
    rw [through_map]
    exact congrArg (List.map text) (through_congr fun l hl => (hls l hl).asks)
  have hupTo : upToOta (ls.map q) = heard.map q := through_map _ q ls
  have htaken : ∀ l ∈ heard, Takes (text l) (q l) (w l) := fun l hl =>
    hls l ((prefix_through _ ls).subset hl)
  have houts : (feedAll id s.line done).2 = (heard.map text).flatMap lineOuts := by
    rw [hline, hdone, hheard, ← List.append_nil (wire newline _), feedAll_wire]
    exact List.append_nil _
  obtain ⟨hsettings, hanswers⟩ := actAll_taken htaken s.app
  have hasked := hheeded.asked
  rw [houts, any_taken htaken, hup, Bool.false_or, ← hupTo] at hasked
  rw [hupTo]
  refine ⟨?_, ?_, ?_⟩
  · rw [hheeded.answers, houts, hanswers]
  · rw [hheeded.settings, houts, hsettings]
  · rw [hasked]
    exact decide_eq_decide.mpr (ota_mem_upToOta (ls.map q))

end Takes

end Lines

end EthPanel
