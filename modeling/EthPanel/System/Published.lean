import EthPanel.App.Main
import EthPanel.Driver.HandleLine

/-!
# From the device's buttons to the node's topics

The driver may connect at any moment of the device's run, in the middle of a line, and receives what
comes from there in whatever pieces. It then does what the events ask for that begin after that
moment and have ended, all of them, in order and once, and nothing else (`published_events`). So
once it has seen a hello the level it has published last for a button, with what it has not read
yet, gives the debounced level (`published_levels`).
-/

namespace EthPanel

open Lts

/-- The lines of some events, as they go to the host. -/
def lineBytes (es : List ProtoEvent) : List UInt8 := es.flatMap fun e => utf8 e.text

/-- What the formatters are given by the firmware. -/
def ProtoEvent.OfDevice (e : ProtoEvent) : Prop := e.PlainArgs ∧ e.BracelessArgs

theorem lineBytes_eq {es : List ProtoEvent} (h : ∀ e ∈ es, e.PlainArgs) :
    lineBytes es = Terminated.wire newline (es.map ProtoEvent.body) := by
  rw [lineBytes, Terminated.wire, List.flatMap_map]
  exact List.flatMap_congr fun e he => (ProtoEvent.utf8_text_eq (h e he)).1

/-! ## What the firmware sends -/

theorem mem_sendLine {n : ℕ} {e e' : ProtoEvent} (h : e ∈ sendLine n e') : e = e' := by
  unfold sendLine at h
  split at h
  · exact List.mem_singleton.mp h
  · cases h

theorem sendAck_ofDevice {cmd : String} (h : cmd ∈ ackCmds) : ∀ e ∈ sendAck cmd, e.OfDevice := by
  have hplain : ∀ cmd ∈ ackCmds, PlainText cmd.toList ∧ '\x7b' ∉ cmd.toList := by decide +kernel
  intro e he
  rw [mem_sendLine he]
  exact hplain cmd h

theorem sendErr_ofDevice {msg : String} (h : msg ∈ errMsgs) : ∀ e ∈ sendErr msg, e.OfDevice := by
  have hplain : ∀ msg ∈ errMsgs, PlainText msg.toList ∧ '\x7b' ∉ msg.toList := by decide +kernel
  intro e he
  rw [mem_sendLine he]
  exact hplain msg h

theorem btn_ofDevice (nowMs : UInt32) (e : BtnEvent) : (btnLine nowMs e).OfDevice :=
  ⟨trivial, trivial⟩

theorem ipText_mem {ip : Fin 4 → UInt8} {c : Char} (hc : c ∈ ipText ip) :
    c.isDigit = true ∨ c = '.' := by
  have hdecimal : ∀ n, c ∈ decimal n → c.isDigit = true := fun n h =>
    Nat.isDigit_of_mem_toDigits (by omega) (by omega) h
  have hmem := List.mem_of_mem_take hc
  simp only [List.mem_append, List.mem_cons] at hmem
  rcases hmem with h | h | h | h | h | h | h
  · exact Or.inl (hdecimal _ h)
  · exact Or.inr h
  · exact Or.inl (hdecimal _ h)
  · exact Or.inr h
  · exact Or.inl (hdecimal _ h)
  · exact Or.inr h
  · exact Or.inl (hdecimal _ h)

theorem isDigit_plain {c : Char} (h : c.isDigit = true) :
    Printable c ∧ c ≠ '"' ∧ c ≠ '\\' ∧ c ≠ '\x7b' := by
  have hrange : 0x30 ≤ c.toNat ∧ c.toNat ≤ 0x39 := by
    simpa [Char.isDigit, UInt32.le_iff_toNat_le] using h
  refine ⟨⟨by omega, by omega⟩, ?_, ?_, ?_⟩ <;> rintro rfl <;> revert hrange <;> decide

theorem sendHello_ofDevice (a : App) : ∀ e ∈ sendHello a, e.OfDevice := by
  have hchar : ∀ c ∈ ipText a.ip, Printable c ∧ c ≠ '"' ∧ c ≠ '\\' ∧ c ≠ '\x7b' := by
    intro c hc
    rcases ipText_mem hc with hdigit | rfl
    · exact isDigit_plain hdigit
    · decide
  have hfw : PlainText fwVersion.toList ∧ '\x7b' ∉ fwVersion.toList := by decide +kernel
  intro e he
  rw [mem_sendLine he]
  refine ⟨⟨hfw.1, fun c hc => ?_⟩, hfw.2, fun hc => (hchar _ hc).2.2.2 rfl⟩
  obtain ⟨hprint, hquote, hback, -⟩ := hchar c hc
  exact ⟨hprint, hquote, hback⟩

theorem dispatch_ofDevice (a : App) (line : CString) : ∀ e ∈ (dispatch a line).2, e.OfDevice := by
  unfold dispatch
  cases protoParse line.bytes with
  | mk found c =>
    cases found with
    | false => exact sendErr_ofDevice (show "no cmd" ∈ errMsgs by decide)
    | true =>
      cases htype : c.type with
      | ring =>
        simp only [htype]
        split
        · exact sendAck_ofDevice (show "ring" ∈ ackCmds by decide)
        · exact sendErr_ofDevice (show "bad ring cmd" ∈ errMsgs by decide)
      | lamp =>
        simp only [htype]
        split
        · exact sendAck_ofDevice (show "lamp" ∈ ackCmds by decide)
        · exact sendErr_ofDevice (show "bad lamp cmd" ∈ errMsgs by decide)
      | config =>
        simp only [htype]
        split
        · exact sendAck_ofDevice (show "config" ∈ ackCmds by decide)
        · exact sendErr_ofDevice (show "bad debounce_ms" ∈ errMsgs by decide)
      | ping => simpa only [htype] using sendAck_ofDevice (show "ping" ∈ ackCmds by decide)
      | hello => simpa only [htype] using sendHello_ofDevice a
      | ota => simpa only [htype] using sendAck_ofDevice (show "ota" ∈ ackCmds by decide)
      | none => simpa only [htype] using sendErr_ofDevice (show "unknown cmd" ∈ errMsgs by decide)
      | unknown =>
        simpa only [htype] using sendErr_ofDevice (show "unknown cmd" ∈ errMsgs by decide)

theorem actAll_ofDevice (a : App) (outs : List (LineOut UInt8)) :
    ∀ e ∈ (actAll a outs).2, e.OfDevice := by
  induction outs generalizing a with
  | nil => exact fun e he => absurd he List.not_mem_nil
  | cons out outs ih =>
    intro e he
    rcases List.mem_append.mp he with he | he
    · cases out with
      | dispatch line => exact dispatch_ofDevice a _ e he
      | lineTooLong => exact sendErr_ofDevice (show "line too long" ∈ errMsgs by decide) e he
    · exact ih _ e he

/-- A line that a step sends is one of the firmware's. -/
theorem MainStep.sent {s t : MainLoop} {e : MainEvent} (hs : MainStep s e t) :
    ∃ es, t.sent = s.sent ++ es ∧ ∀ e ∈ es, e.OfDevice := by
  have hnone : ∃ es, s.sent = s.sent ++ es ∧ ∀ e ∈ es, e.OfDevice :=
    ⟨[], (List.append_nil _).symm, fun e he => absurd he List.not_mem_nil⟩
  cases hs.did.2 with
  | poll peer hphase =>
    unfold MainLoop.poll
    dsimp only
    split
    · exact ⟨_, rfl, sendHello_ofDevice s.app⟩
    · exact hnone
  | sample raw nowMs hphase => exact hnone
  | @sendBtn ev evs nowMs hphase =>
    refine ⟨_, rfl, fun e he => ?_⟩
    rw [mem_sendLine he]
    exact btn_ofDevice nowMs ev
  | read rx hphase hsize => exact hnone
  | byte hphase => exact ⟨_, rfl, actAll_ofDevice s.app _⟩
  | flush hphase => exact hnone

theorem MainLoop.sent_ofDevice {s t : MainLoop} {l : List MainEvent} (r : Run MainStep s l t)
    (h : ∀ e ∈ s.sent, e.OfDevice) : ∀ e ∈ t.sent, e.OfDevice := by
  refine r.invariant (I := fun s => ∀ e ∈ s.sent, e.OfDevice) (fun s t _ hs hstep => ?_) h
  obtain ⟨es, hsent, hes⟩ := hstep.sent
  intro e he
  rw [hsent] at he
  rcases List.mem_append.mp he with he | he
  · exact hs e he
  · exact hes e he

/-! ## Every event, once and in order -/

theorem readerActs_window (py : Builtins) {sent : List ProtoEvent} (h : ∀ e ∈ sent, e.OfDevice)
    {p : ℕ} (hp : p ≤ (lineBytes sent).length) {pieces : List (List UInt8)}
    (hpieces : pieces.flatten <+: (lineBytes sent).drop p) :
    ∃ before done more, sent = before ++ done ++ more ∧
      Terminated.Window newline (before.map ProtoEvent.body) (done.map ProtoEvent.body)
        (more.map ProtoEvent.body) p (p + pieces.flatten.length) ∧
      readerActs py pieces = done.flatMap ProtoEvent.acts := by
  have hplain : ∀ e ∈ sent, e.PlainArgs := fun e he => (h e he).1
  have hfree : ∀ f ∈ sent.map ProtoEvent.body, newline ∉ f := by
    intro f hf
    obtain ⟨e, he, rfl⟩ := List.mem_map.mp hf
    exact (ProtoEvent.utf8_text_eq (hplain e he)).2.1
  rw [lineBytes_eq hplain] at hp hpieces
  obtain ⟨before', done', more', parts, hsplit, hwindow, hread, hparts⟩ :=
    Terminated.read_window hfree hp hpieces
  obtain ⟨_, more, rfl, hfront, rfl⟩ := List.map_eq_append_iff.mp hsplit
  obtain ⟨before, done, rfl, rfl, rfl⟩ := List.map_eq_append_iff.mp hfront
  refine ⟨before, done, more, rfl, hwindow, ?_⟩
  rw [readerActs, Terminated.readAll_eq_read List.not_mem_nil, List.nil_append, hread,
    List.flatMap_append, List.flatMap_map]
  have hnone : (parts.flatMap fun line => handleLine py (decodeReplace line)) = [] := by
    rcases hparts with rfl | ⟨line, rfl, f, hf, k, hk, -, rfl⟩
    · rfl
    · obtain ⟨e, he, rfl⟩ := List.mem_map.mp hf
      obtain ⟨hargs, hbrace⟩ := h e (List.mem_append_left _ (List.mem_append_left _ he))
      rw [List.flatMap_singleton]
      exact handleLine_partial py hargs hbrace hk
  rw [hnone, List.nil_append]
  exact List.flatMap_congr fun e he =>
    handleLine_event py (hplain e (List.mem_append_left _ (List.mem_append_right _ he)))

/-- **What the node does is what the events ask for** that begin after the driver connects and have
ended. -/
theorem published_events {ip : Fin 4 → UInt8} {raw0 : Levels} {nowMs : UInt32} {l : List MainEvent}
    {t : MainLoop} (r : Run MainStep (.boot ip raw0 nowMs) l t) (py : Builtins) {p : ℕ}
    (hp : p ≤ (lineBytes t.sent).length) {pieces : List (List UInt8)}
    (hpieces : pieces.flatten <+: (lineBytes t.sent).drop p) :
    ∃ before done more, t.sent = before ++ done ++ more ∧
      Terminated.Window newline (before.map ProtoEvent.body) (done.map ProtoEvent.body)
        (more.map ProtoEvent.body) p (p + pieces.flatten.length) ∧
      readerActs py pieces = done.flatMap ProtoEvent.acts :=
  readerActs_window py (MainLoop.sent_ofDevice r fun _ he => absurd he List.not_mem_nil) hp hpieces

/-- Both buttons go down after the client has connected; the line of the first is sent. -/
def downSentOf (pressed : Fin 2 → Bool) : List ProtoEvent :=
  [.hello fwVersion ringNumLeds pressed "0.0.0.0".toList, .btn 1 true 30]

def downSent : List ProtoEvent := downSentOf fun _ => false

set_option maxRecDepth 4000 in
theorem downSent_run : ∃ t, Run MainStep (.boot (fun _ => 0) (fun _ => false) 0)
    (downEvents ++ [.sendBtn]) t ∧ t.sent = downSent := by
  obtain ⟨t, pressed, r, hsent, h₀, h₁⟩ : ∃ t pressed,
      Run MainStep (.boot (fun _ => 0) (fun _ => false) 0) (downEvents ++ [.sendBtn]) t ∧
        t.sent = downSentOf pressed ∧ pressed 0 = false ∧ pressed 1 = false :=
    ⟨_, _, Run.of_foldlM rfl, rfl, rfl, rfl⟩
  have hpressed : pressed = fun _ => false := by
    funext i
    match i with
    | 0 => exact h₀
    | 1 => exact h₁
  exact ⟨t, r, by rw [hsent, hpressed, downSent]⟩

/-- The stream from `p` on, in two pieces. -/
def twoPieces (p k : ℕ) (es : List ProtoEvent) : List (List UInt8) :=
  [((lineBytes es).drop p).take k, ((lineBytes es).drop p).drop k]

theorem twoPieces_flatten (p k : ℕ) (es : List ProtoEvent) :
    (twoPieces p k es).flatten <+: (lineBytes es).drop p := by
  refine ⟨[], ?_⟩
  show ((lineBytes es).drop p).take k ++ (((lineBytes es).drop p).drop k ++ []) ++ [] = _
  rw [List.append_nil, List.append_nil, List.take_append_drop]

/-- No line here has a float in it. -/
def noFloats : Builtins := ⟨fun _ => [], fun _ => false⟩

/-- The hello is cut off, and the edge is published. -/
theorem published_events_down : ∃ t before done more,
    Run MainStep (.boot (fun _ => 0) (fun _ => false) 0) (downEvents ++ [.sendBtn]) t ∧
      t.sent = before ++ done ++ more ∧
      Terminated.Window newline (before.map ProtoEvent.body) (done.map ProtoEvent.body)
        (more.map ProtoEvent.body) 20 (20 + (twoPieces 20 90 downSent).flatten.length) ∧
      readerActs noFloats (twoPieces 20 90 downSent) = done.flatMap ProtoEvent.acts := by
  obtain ⟨t, r, hsent⟩ := downSent_run
  have hlong : 20 ≤ (lineBytes t.sent).length := by
    rw [hsent]
    decide +kernel
  obtain ⟨before, done, more, h⟩ := published_events r noFloats hlong
    (twoPieces_flatten 20 90 t.sent)
  rw [← hsent]
  exact ⟨t, before, done, more, r, h⟩

/-! ## The levels -/

/-- What an act publishes for a button. -/
def NodeAct.level (i : Button) : NodeAct → Option Bool
  | .publish btnId pressed => if btnId = i.val + 1 then some pressed else none
  | .unknownButton _ | .helloSeen | .resync => none

/-- What has been published last for a button. -/
def latest (i : Button) (acts : List NodeAct) : Option Bool :=
  (acts.filterMap (NodeAct.level i)).getLast?

theorem latest_append (i : Button) (acts acts' : List NodeAct) :
    latest i (acts ++ acts') = (latest i acts').or (latest i acts) := by
  rw [latest, List.filterMap_append, List.getLast?_append]
  rfl

def ProtoEvent.isHello : ProtoEvent → Bool
  | .hello .. => true
  | .btn .. | .ack _ | .err _ => false

theorem latest_hello (i : Button) (fw : String) (nleds : Fin 2 → UInt16) (pressed : Fin 2 → Bool)
    (ip : List Char) : latest i (ProtoEvent.hello fw nleds pressed ip).acts = some (pressed i) := by
  match i with
  | 0 => rfl
  | 1 => rfl

theorem latest_publishButton (i : Button) (id : ℤ) (pressed : Bool) :
    latest i (publishButton id pressed) = if id = i.val + 1 then some pressed else none := by
  have hi : (i.val : ℤ) + 1 = 1 ∨ (i.val : ℤ) + 1 = 2 := by
    match i with
    | 0 => exact Or.inl rfl
    | 1 => exact Or.inr rfl
  unfold publishButton
  by_cases hid : id = i.val + 1
  · rw [if_pos (by rwa [hid]), if_pos hid]
    simp [latest, NodeAct.level, hid]
  · rw [if_neg hid]
    split <;> simp [latest, NodeAct.level, hid]

/-- Without a hello the topics are replayed like the lines. -/
theorem latest_acts (i : Button) (level : Bool) {es : List ProtoEvent}
    (h : ∀ e ∈ es, e.isHello = false) :
    (latest i (es.flatMap ProtoEvent.acts)).getD level = replay i level es := by
  induction es generalizing level with
  | nil => rfl
  | cons e es ih =>
    have hone : (latest i e.acts).getD level = replay i level [e] := by
      cases e with
      | btn id pressed ms =>
        rw [ProtoEvent.acts, latest_publishButton]
        show _ = if id = i.val + 1 then pressed else level
        split <;> rfl
      | hello fw nleds pressed ip =>
        exact absurd (h _ List.mem_cons_self) (by simp [ProtoEvent.isHello])
      | ack cmd => rfl
      | err msg => rfl
    have hrest := ih (replay i level [e]) fun e' he' => h e' (List.mem_cons_of_mem e he')
    rw [List.flatMap_cons, latest_append, Option.getD_or, hone, hrest, ← replay_append]
    rfl

/-- A hello that no other follows. -/
theorem exists_lastHello {es : List ProtoEvent} (h : ∃ e ∈ es, e.isHello = true) :
    ∃ before fw nleds pressed ip after,
      es = before ++ .hello fw nleds pressed ip :: after ∧ ∀ e ∈ after, e.isHello = false := by
  induction es with
  | nil =>
    obtain ⟨e, he, -⟩ := h
    exact absurd he List.not_mem_nil
  | cons e es ih =>
    by_cases hmore : ∃ e ∈ es, e.isHello = true
    · obtain ⟨before, fw, nleds, pressed, ip, after, rfl, hafter⟩ := ih hmore
      exact ⟨e :: before, fw, nleds, pressed, ip, after, rfl, hafter⟩
    · have hafter : ∀ e ∈ es, e.isHello = false := fun e he =>
        Bool.eq_false_iff.mpr fun hhello => hmore ⟨e, he, hhello⟩
      obtain ⟨e', he', hhello⟩ := h
      rcases List.mem_cons.mp he' with rfl | he'
      · cases e' with
        | hello fw nleds pressed ip => exact ⟨[], fw, nleds, pressed, ip, es, rfl, hafter⟩
        | btn id pressed ms => cases hhello
        | ack cmd => cases hhello
        | err msg => cases hhello
      · exact absurd ⟨e', he', hhello⟩ hmore

theorem isHello_of_seen {es : List ProtoEvent}
    (h : NodeAct.helloSeen ∈ es.flatMap ProtoEvent.acts) : ∃ e ∈ es, e.isHello = true := by
  obtain ⟨e, he, hseen⟩ := List.mem_flatMap.mp h
  refine ⟨e, he, ?_⟩
  cases e with
  | btn id pressed ms =>
    have hbtn : NodeAct.helloSeen ∈ publishButton id pressed := hseen
    unfold publishButton at hbtn
    split at hbtn <;> cases List.mem_singleton.mp hbtn
  | hello fw nleds pressed ip => rfl
  | ack cmd => cases hseen
  | err msg => cases hseen

/-- **The last level that is published** for a button is the debounced one, but for what the driver
has not read and the pass has not sent. -/
theorem published_levels {ip : Fin 4 → UInt8} {raw0 : Levels} {nowMs : UInt32} {l : List MainEvent}
    {t : MainLoop} (r : Run MainStep (.boot ip raw0 nowMs) l t) (py : Builtins) {p : ℕ}
    (hp : p ≤ (lineBytes t.sent).length) {pieces : List (List UInt8)}
    (hpieces : pieces.flatten <+: (lineBytes t.sent).drop p)
    (hhello : NodeAct.helloSeen ∈ readerActs py pieces) :
    ∃ read unread, t.sent = read ++ unread ∧
      (lineBytes read).length ≤ p + pieces.flatten.length ∧
      (∀ e more, unread = e :: more →
        p + pieces.flatten.length < (lineBytes (read ++ [e])).length) ∧
      ∀ i, ∃ level, latest i (readerActs py pieces) = some level ∧
        replay i level (unread ++ t.phase.pending) = t.app.buttons.stable i := by
  have hsent := MainLoop.sent_ofDevice r fun _ he => absurd he List.not_mem_nil
  have htold := (MainLoop.Told.boot ip raw0 nowMs).run r
  obtain ⟨before, done, more, hsplit, hwindow, hacts⟩ := readerActs_window py hsent hp hpieces
  rw [hacts] at hhello ⊢
  obtain ⟨old, fw, nleds, pressed, ipShown, new, rfl, hnew⟩ :=
    exists_lastHello (isHello_of_seen hhello)
  have hlines : ∀ es, es <+: t.sent →
      lineBytes es = Terminated.wire newline (es.map ProtoEvent.body) :=
    fun es hes => lineBytes_eq fun e he => (hsent e (hes.subset he)).1
  refine ⟨_, more, hsplit, ?_, ?_, fun i => ⟨replay i (pressed i) new, ?_, ?_⟩⟩
  · rw [hlines _ ⟨more, hsplit.symm⟩, List.map_append]
    exact hwindow.ended (by simp)
  · rintro e more' rfl
    rw [hlines _ ⟨more', by rw [hsplit, List.append_assoc (before ++ _)]; rfl⟩, List.map_append,
      List.map_append]
    exact hwindow.open' _ _ rfl
  · rw [List.flatMap_append, List.flatMap_cons, latest_append, latest_append, latest_hello,
      ← latest_acts i (pressed i) hnew]
    cases latest i (new.flatMap ProtoEvent.acts) <;> rfl
  · have hreplay := htold.replays (before ++ old) (new ++ more) fw nleds pressed ipShown
      (by rw [hsplit]; simp) i
    rwa [List.append_assoc, replay_append] at hreplay

/-- The second button's line is still to be sent. -/
theorem published_levels_down : ∃ t read unread,
    Run MainStep (.boot (fun _ => 0) (fun _ => false) 0) (downEvents ++ [.sendBtn]) t ∧
      t.sent = read ++ unread ∧ ∃ level, latest 1 (readerActs noFloats (twoPieces 0 90 downSent)) =
        some level ∧ replay 1 level (unread ++ t.phase.pending) = t.app.buttons.stable 1 := by
  obtain ⟨t, r, hsent⟩ := downSent_run
  have hhello : NodeAct.helloSeen ∈ readerActs noFloats (twoPieces 0 90 t.sent) := by
    rw [hsent]
    decide +kernel
  obtain ⟨read, unread, hsplit, -, -, hlevels⟩ := published_levels r noFloats (Nat.zero_le _)
    (twoPieces_flatten 0 90 t.sent) hhello
  rw [← hsent]
  exact ⟨t, read, unread, r, hsplit, hlevels 1⟩

end EthPanel
