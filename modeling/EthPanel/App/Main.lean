import EthPanel.App.Display
import EthPanel.App.Lines
import EthPanel.Lib.Run

/-!
# `main.c`: the pass of the super-loop

One pass greets a client at a connect edge, debounces and reports the buttons, reads and dispatches
what has come in, and flushes the rings. `MainLoop` stops between any two lines sent: a button
event that `buttons_update` has reported and the loop has not sent yet is `pending`.

A host knows the buttons by replay: a hello line gives both levels, and each button line after it
one. That gives the debounced levels at every moment, once what is pending is counted in
(`buttons_replay`).
-/

namespace EthPanel

open Lts

/-- Where a pass is. -/
inductive Phase
  | top
  | buttons
  /-- In the loop over `evs`, with these still to send. -/
  | sending (evs : List BtnEvent) (nowMs : UInt32)
  /-- In the loop over `rxbuf`, with these bytes still to do. -/
  | reading (rx : List UInt8)

/-- The line of a button event. -/
def btnLine (nowMs : UInt32) (e : BtnEvent) : ProtoEvent := .btn e.id e.pressed nowMs

/-- The lines of the events that `buttons_update` has reported and the loop has still to send. -/
def Phase.pending : Phase → List ProtoEvent
  | .sending evs nowMs => evs.map (btnLine nowMs)
  | .top | .buttons | .reading _ => []

/-- The bytes that `net_read` has brought and the loop over `rxbuf` has still to do. -/
def Phase.unread : Phase → List UInt8
  | .reading rx => rx
  | .top | .buttons | .sending .. => []

structure MainLoop where
  app : App
  peerWasConnected : Bool
  line : LineState UInt8
  phase : Phase
  /-- All lines sent, and all frames pushed. -/
  sent : List ProtoEvent
  pushed : List (Ring × List UInt32)

/-- At the head of the loop, the first time: the rings have been flushed, and the debouncer
seeded. -/
def MainLoop.boot (ip : Fin 4 → UInt8) (raw0 : Levels) (nowMs : UInt32) : MainLoop where
  app := { App.init ip with
    buttons := (buttonsUpdate (buttonsInit 30) raw0 nowMs 0).1
    rings := (ringsFlush (ringsInit ringNumLeds)).1 }
  peerWasConnected := false
  line := .fresh
  phase := .top
  sent := []
  pushed := (ringsFlush (ringsInit ringNumLeds)).2

inductive MainEvent
  /-- `net_peer_connected`. -/
  | poll (peer : Bool)
  /-- `buttons_hw_read` and `buttons_update`. -/
  | sample (raw : Levels) (nowMs : UInt32)
  | sendBtn
  /-- `net_read` brings these bytes. -/
  | read (rx : List UInt8)
  | byte
  | flush

/-- What `net_read` brings. -/
def MainEvent.bytes : MainEvent → List UInt8
  | .read rx => rx
  | .poll _ | .sample .. | .sendBtn | .byte | .flush => []

/-- Whether one of some passes sees a client connect; `was` is `peer_was_connected` before them. -/
def seesConnect (was : Bool) : List MainEvent → Bool
  | [] => false
  | .poll peer :: l => (peer && !was) || seesConnect peer l
  | _ :: l => seesConnect was l

/-- The size of `evs`. -/
def evsSize : ℕ := btnCount * 2

/-- The size of `rxbuf`. -/
def mainRxbufSize : ℕ := 128

/-- What the loop over `rxbuf` does with what `feed` gives. -/
def LineOut.act (a : App) : LineOut UInt8 → App × List ProtoEvent
  | .dispatch line => EthPanel.dispatch a (.ofBuf line)
  | .lineTooLong => (a, sendErr "line too long")

def actAll (a : App) : List (LineOut UInt8) → App × List ProtoEvent
  | [] => (a, [])
  | out :: outs =>
    ((actAll (out.act a).1 outs).1, (out.act a).2 ++ (actAll (out.act a).1 outs).2)

namespace MainLoop

def poll (s : MainLoop) (peer : Bool) : MainLoop :=
  { s with
    sent := if peer && !s.peerWasConnected then s.sent ++ sendHello s.app else s.sent
    line := if peer && !s.peerWasConnected then .fresh else s.line
    peerWasConnected := peer
    phase := .buttons }

def sample (s : MainLoop) (raw : Levels) (nowMs : UInt32) : MainLoop :=
  { s with
    app := { s.app with buttons := (buttonsUpdate s.app.buttons raw nowMs evsSize).1 }
    phase := .sending (buttonsUpdate s.app.buttons raw nowMs evsSize).2 nowMs }

/-- The loop body for one byte. -/
def byte (s : MainLoop) (ch : UInt8) (rx : List UInt8) : MainLoop :=
  { s with
    line := (feed id s.line ch).1
    app := (actAll s.app (feed id s.line ch).2).1
    sent := s.sent ++ (actAll s.app (feed id s.line ch).2).2
    phase := .reading rx }

def flush (s : MainLoop) : MainLoop :=
  { s with
    app := { s.app with rings := (ringsFlush s.app.rings).1 }
    pushed := s.pushed ++ (ringsFlush s.app.rings).2
    phase := .top }

def next (s : MainLoop) (e : MainEvent) : Option MainLoop :=
  -- `ota_request_update` does not return.
  if s.app.rebooting then none
  else match s.phase, e with
    | .top, .poll peer => some (s.poll peer)
    | .buttons, .sample raw nowMs => some (s.sample raw nowMs)
    | .sending (ev :: evs) nowMs, .sendBtn =>
      some { s with sent := s.sent ++ sendLine 64 (btnLine nowMs ev), phase := .sending evs nowMs }
    | .sending [] _, .read rx =>
      if rx.length ≤ mainRxbufSize then some { s with phase := .reading rx } else none
    | .reading (ch :: rx), .byte => some (s.byte ch rx)
    | .reading [], .flush => some s.flush
    | _, _ => none

end MainLoop

def MainStep (s : MainLoop) (e : MainEvent) (t : MainLoop) : Prop := s.next e = some t

/-- What a step does, and where. -/
inductive MainLoop.Did (s : MainLoop) : MainEvent → MainLoop → Prop
  | poll (peer : Bool) (hphase : s.phase = .top) : Did s (.poll peer) (s.poll peer)
  | sample (raw : Levels) (nowMs : UInt32) (hphase : s.phase = .buttons) :
      Did s (.sample raw nowMs) (s.sample raw nowMs)
  | sendBtn {ev : BtnEvent} {evs : List BtnEvent} {nowMs : UInt32}
      (hphase : s.phase = .sending (ev :: evs) nowMs) :
      Did s .sendBtn
        { s with sent := s.sent ++ sendLine 64 (btnLine nowMs ev), phase := .sending evs nowMs }
  | read (rx : List UInt8) {nowMs : UInt32} (hphase : s.phase = .sending [] nowMs)
      (hsize : rx.length ≤ mainRxbufSize) : Did s (.read rx) { s with phase := .reading rx }
  | byte {ch : UInt8} {rx : List UInt8} (hphase : s.phase = .reading (ch :: rx)) :
      Did s .byte (s.byte ch rx)
  | flush (hphase : s.phase = .reading []) : Did s .flush s.flush

theorem MainStep.did {s t : MainLoop} {e : MainEvent} (hs : MainStep s e t) :
    s.app.rebooting = false ∧ s.Did e t := by
  unfold MainStep MainLoop.next at hs
  split at hs
  · cases hs
  · rename_i hup
    refine ⟨Bool.eq_false_iff.mpr hup, ?_⟩
    split at hs
    · rename_i peer hphase
      obtain rfl := Option.some.inj hs
      exact .poll peer hphase
    · rename_i raw nowMs hphase
      obtain rfl := Option.some.inj hs
      exact .sample raw nowMs hphase
    · rename_i hphase
      obtain rfl := Option.some.inj hs
      exact .sendBtn hphase
    · rename_i rx hphase
      split at hs
      · rename_i hsize
        obtain rfl := Option.some.inj hs
        exact .read rx hphase hsize
      · cases hs
    · rename_i hphase
      obtain rfl := Option.some.inj hs
      exact .byte hphase
    · rename_i hphase
      obtain rfl := Option.some.inj hs
      exact .flush hphase
    · cases hs

/-! ## Replay -/

/-- A host's idea of a button after some lines. -/
def replay (i : Button) (level : Bool) (lines : List ProtoEvent) : Bool :=
  lines.foldl (fun level e => match e with
    | .btn id pressed _ => if id = i.val + 1 then pressed else level
    | _ => level) level

/-- From every hello on, the lines sent and those pending give the levels. -/
def Replays (levels : Levels) (sent pending : List ProtoEvent) : Prop :=
  ∀ before after fw nleds pressed ip, sent = before ++ .hello fw nleds pressed ip :: after →
    ∀ i, replay i (pressed i) (after ++ pending) = levels i

theorem replay_append (i : Button) (level : Bool) (lines lines' : List ProtoEvent) :
    replay i level (lines ++ lines') = replay i (replay i level lines) lines' :=
  List.foldl_append

/-- Button lines: the last one for the button counts. -/
theorem replay_btnLines (i : Button) (level : Bool) (nowMs : UInt32) (evs : List BtnEvent) :
    replay i level (evs.map (btnLine nowMs)) = (levelsOf i evs).getLastD level := by
  induction evs generalizing level with
  | nil => rfl
  | cons e evs ih =>
    rw [List.map_cons, replay, List.foldl_cons]
    show replay i (if (e.id : ℤ) = i.val + 1 then e.pressed else level)
      (evs.map (btnLine nowMs)) = _
    rw [ih, levelsOf, levelsOf, List.filter_cons]
    by_cases h : e.id = i.val + 1
    · have h' : (e.id : ℤ) = i.val + 1 := by exact_mod_cast h
      rw [if_pos h', if_pos (by simpa using h), List.map_cons, List.getLastD_cons]
    · have h' : (e.id : ℤ) ≠ i.val + 1 := by exact_mod_cast h
      rw [if_neg h', if_neg (by simpa using h)]

/-- A line that leaves a replay as it is, or starts one with these levels. -/
def Keeps (levels : Levels) : ProtoEvent → Prop
  | .hello _ _ pressed _ => pressed = levels
  | .btn .. => False
  | _ => True

theorem Replays.snoc {levels : Levels} {sent : List ProtoEvent} {e : ProtoEvent}
    (h : Replays levels sent []) (he : Keeps levels e) : Replays levels (sent ++ [e]) [] := by
  intro before after fw nleds pressed ip heq i
  rcases split_append heq with ⟨rest, rfl, hsent⟩ | ⟨rest, _, hlast⟩
  · have hold := h before rest fw nleds pressed ip hsent i
    rw [List.append_nil] at hold ⊢
    rw [replay_append, hold]
    cases e with
    | btn id pressed ms => exact he.elim
    | hello fw nleds pressed ip => rfl
    | ack cmd => rfl
    | err msg => rfl
  · cases rest with
    | nil =>
      obtain ⟨rfl, rfl⟩ := List.cons.inj hlast
      exact congrFun he i
    | cons e' rest => simp at hlast

theorem Replays.append {levels : Levels} {sent es : List ProtoEvent}
    (h : Replays levels sent []) (hes : ∀ e ∈ es, Keeps levels e) :
    Replays levels (sent ++ es) [] := by
  induction es generalizing sent with
  | nil => rwa [List.append_nil]
  | cons e es ih =>
    have hsnoc := h.snoc (hes e List.mem_cons_self)
    have hrest := ih hsnoc fun e' he' => hes e' (List.mem_cons_of_mem e he')
    rwa [List.append_assoc, List.singleton_append] at hrest

/-- The events that a call reports lead from the levels before it to the levels after it. -/
theorem Replays.sample {levels : Levels} {sent : List ProtoEvent} {evs : List BtnEvent}
    {levels' : Levels} (h : Replays levels sent []) (nowMs : UInt32)
    (hevs : ∀ i, (levelsOf i evs).getLastD (levels i) = levels' i) :
    Replays levels' sent (evs.map (btnLine nowMs)) := by
  intro before after fw nleds pressed ip heq i
  have hold := h before after fw nleds pressed ip heq i
  rw [List.append_nil] at hold
  rw [replay_append, hold, replay_btnLines, hevs]

/-- What is pending is sent. -/
theorem Replays.send {levels : Levels} {sent pending : List ProtoEvent} {e : ProtoEvent}
    (h : Replays levels sent (e :: pending))
    (he : ∀ fw nleds pressed ip, e ≠ .hello fw nleds pressed ip) :
    Replays levels (sent ++ [e]) pending := by
  intro before after fw nleds pressed ip heq i
  have hne : ProtoEvent.hello fw nleds pressed ip ∉ [e] := by
    rw [List.mem_singleton]
    exact (he fw nleds pressed ip).symm
  obtain ⟨rest, rfl, hsent⟩ := split_append_old hne heq
  rw [List.append_assoc, List.singleton_append]
  exact h before rest fw nleds pressed ip hsent i

/-! ## The lines of a pass -/

theorem length_utf8_decimal (n : ℕ) : (utf8 (decimal n)).length = (decimal n).length := by
  have hone : ∀ s : List Char, (∀ c ∈ s, c.isDigit = true) → (utf8 s).length = s.length := by
    intro s
    induction s with
    | nil => exact fun _ => rfl
    | cons c s ih =>
      intro hs
      have hc := (utf8EncodeChar_digit (hs c List.mem_cons_self)).1
      have hrest := ih fun c' hc' => hs c' (List.mem_cons_of_mem c hc')
      rw [show utf8 (c :: s) = String.utf8EncodeChar c ++ utf8 s from rfl, hc, List.length_append,
        List.length_singleton, hrest, List.length_cons, Nat.add_comm]
  exact hone _ fun c hc => Nat.isDigit_of_mem_toDigits (by omega) (by omega) hc

theorem length_btn (id : ℤ) (pressed : Bool) (ms : UInt32) :
    (utf8 (ProtoEvent.btn id pressed ms).text).length =
      (utf8 (ProtoEvent.btn id pressed 0).text).length - 1 + (decimal ms.toNat).length := by
  obtain ⟨before, after, htext⟩ : ∃ before after, ∀ ms,
      (ProtoEvent.btn id pressed ms).text = before ++ decimal ms.toNat ++ after :=
    ⟨_, _, fun _ => rfl⟩
  have hzero : (decimal (0 : UInt32).toNat).length = 1 := by decide
  rw [htext ms, htext 0]
  simp only [utf8_append, List.length_append, length_utf8_decimal, hzero]
  omega

/-- Ten digits of milliseconds fit, so no button line is lost. -/
theorem sendLine_btnLine {e : BtnEvent} (hid : e.id ≤ btnCount) (nowMs : UInt32) :
    sendLine 64 (btnLine nowMs e) = [btnLine nowMs e] := by
  have hms : (decimal nowMs.toNat).length ≤ 10 := by
    rw [decimal, Nat.length_toDigits_le_iff (by omega) (by omega)]
    have := nowMs.toNat_lt
    omega
  have hrest : ∀ id ≤ btnCount, ∀ pressed : Bool,
      (utf8 (ProtoEvent.btn (id : ℕ) pressed 0).text).length < 54 := by
    decide +kernel
  have h := hrest e.id hid e.pressed
  refine sendLine_of_fits ?_
  rw [btnLine, length_btn]
  omega

/-- A line dispatched leaves the debounced levels as they are, and its reply gives no others. -/
theorem dispatch_levels (a : App) (line : CString) :
    (dispatch a line).1.buttons.stable = a.buttons.stable ∧
      (dispatch a line).1.buttons.initialized = a.buttons.initialized ∧
      ∀ e ∈ (dispatch a line).2, Keeps a.buttons.stable e := by
  obtain ⟨e, hreply, hdone⟩ := dispatch_dispatched a line
  rw [hreply]
  generalize (dispatch a line).1 = a' at hdone
  have hkeeps : ∀ {e}, Keeps a.buttons.stable e → ∀ e' ∈ [e], Keeps a.buttons.stable e' := by
    intro e he e' he'
    rwa [List.mem_singleton.mp he']
  cases hdone with
  | err msg => exact ⟨rfl, rfl, hkeeps trivial⟩
  | ring htype hset => exact ⟨rfl, rfl, hkeeps trivial⟩
  | lamp htype hon => exact ⟨rfl, rfl, hkeeps trivial⟩
  | config htype hms => exact ⟨rfl, rfl, hkeeps trivial⟩
  | ping => exact ⟨rfl, rfl, hkeeps trivial⟩
  | hello => exact ⟨rfl, rfl, hkeeps (funext fun i => buttonsPressed_coe a.buttons i)⟩
  | ota => exact ⟨rfl, rfl, hkeeps trivial⟩

theorem actAll_levels (a : App) (outs : List (LineOut UInt8)) :
    (actAll a outs).1.buttons.stable = a.buttons.stable ∧
      (actAll a outs).1.buttons.initialized = a.buttons.initialized ∧
      ∀ e ∈ (actAll a outs).2, Keeps a.buttons.stable e := by
  induction outs generalizing a with
  | nil => exact ⟨rfl, rfl, fun _ he => nomatch he⟩
  | cons out outs ih =>
    have hout : (out.act a).1.buttons.stable = a.buttons.stable ∧
        (out.act a).1.buttons.initialized = a.buttons.initialized ∧
        ∀ e ∈ (out.act a).2, Keeps a.buttons.stable e := by
      cases out with
      | dispatch line => exact dispatch_levels a (.ofBuf line)
      | lineTooLong =>
        refine ⟨rfl, rfl, fun e he => ?_⟩
        rw [LineOut.act, sendErr_eq (by decide), List.mem_singleton] at he
        rw [he]
        trivial
    obtain ⟨hstable, hinit, hkeeps⟩ := ih (out.act a).1
    refine ⟨hstable.trans hout.1, hinit.trans hout.2.1, fun e he => ?_⟩
    rcases List.mem_append.mp he with he | he
    · exact hout.2.2 e he
    · have h := hkeeps e he
      rwa [hout.1] at h

/-! ## The invariant -/

/-- What holds at every moment of the loop. -/
structure MainLoop.Told (s : MainLoop) : Prop where
  seeded : s.app.buttons.initialized = true
  replays : Replays s.app.buttons.stable s.sent s.phase.pending
  /-- There is a button to each event to send. -/
  ids : ∀ evs nowMs, s.phase = .sending evs nowMs → ∀ e ∈ evs, e.id ≤ btnCount

namespace MainLoop

theorem Told.boot (ip : Fin 4 → UInt8) (raw0 : Levels) (nowMs : UInt32) :
    (boot ip raw0 nowMs).Told where
  seeded := rfl
  replays := fun before after _ _ _ _ heq => by simp [MainLoop.boot] at heq
  ids := fun _ _ h => by cases h

section Step

variable {s : MainLoop}

theorem Told.settled (h : s.Told) {phase : Phase} (hphase : s.phase = phase)
    (hnone : phase.pending = []) : Replays s.app.buttons.stable s.sent [] := by
  have hold := h.replays
  rwa [hphase, hnone] at hold

theorem Told.poll (h : s.Told) (hphase : s.phase = .top) (peer : Bool) : (s.poll peer).Told := by
  have hold := h.settled hphase rfl
  refine ⟨h.seeded, ?_, fun _ _ heq => by cases heq⟩
  show Replays s.app.buttons.stable
    (if peer && !s.peerWasConnected then s.sent ++ sendHello s.app else s.sent) []
  split
  · rw [sendHello_eq]
    refine hold.append fun e he => ?_
    rw [List.mem_singleton.mp he]
    exact funext fun i => buttonsPressed_coe s.app.buttons i
  · exact hold

theorem Told.sample (h : s.Told) (hphase : s.phase = .buttons) (raw : Levels)
    (nowMs : UInt32) : (s.sample raw nowMs).Told := by
  have hswept := buttonsUpdate_swept h.seeded raw nowMs evsSize
  have hold := h.settled hphase rfl
  refine ⟨hswept.initialized.trans h.seeded, hold.sample nowMs fun i => ?_, ?_⟩
  · rw [hswept.levels i]
    split
    · rename_i hsame
      exact hsame.symm
    · rfl
  · intro evs _ heq e he
    obtain ⟨rfl, -⟩ := Phase.sending.inj heq
    obtain ⟨i, -, hid⟩ := hswept.swept e he
    rw [hid]
    exact i.2

theorem Told.sendBtn {ev : BtnEvent} {evs : List BtnEvent} {nowMs : UInt32} (h : s.Told)
    (hphase : s.phase = .sending (ev :: evs) nowMs) :
    Told { s with
      sent := s.sent ++ sendLine 64 (btnLine nowMs ev), phase := .sending evs nowMs } := by
  have hids := h.ids _ _ hphase
  have hold : Replays s.app.buttons.stable s.sent
      (btnLine nowMs ev :: evs.map (btnLine nowMs)) := by
    have hold := h.replays
    rwa [hphase] at hold
  refine ⟨h.seeded, ?_, ?_⟩
  · dsimp only
    rw [sendLine_btnLine (hids ev List.mem_cons_self)]
    exact hold.send fun _ _ _ _ heq => by cases heq
  · intro evs' _ heq e he
    obtain ⟨rfl, -⟩ := Phase.sending.inj heq
    exact hids e (List.mem_cons_of_mem ev he)

theorem Told.byte {ch : UInt8} {rx : List UInt8} (h : s.Told)
    (hphase : s.phase = .reading (ch :: rx)) : (s.byte ch rx).Told := by
  obtain ⟨hstable, hinit, hkeeps⟩ := actAll_levels s.app (feed id s.line ch).2
  have hold := h.settled hphase rfl
  refine ⟨hinit.trans h.seeded, ?_, fun _ _ heq => by cases heq⟩
  show Replays (actAll s.app (feed id s.line ch).2).1.buttons.stable _ []
  rw [hstable]
  exact hold.append hkeeps

end Step

theorem Told.step {s t : MainLoop} {e : MainEvent} (h : s.Told) (hs : MainStep s e t) : t.Told := by
  cases hs.did.2 with
  | poll peer hphase => exact h.poll hphase peer
  | sample raw nowMs hphase => exact h.sample hphase raw nowMs
  | sendBtn hphase => exact h.sendBtn hphase
  | read rx hphase hsize =>
    exact ⟨h.seeded, h.settled hphase rfl, fun _ _ heq => by cases heq⟩
  | byte hphase => exact h.byte hphase
  | flush hphase => exact ⟨h.seeded, h.settled hphase rfl, fun _ _ heq => by cases heq⟩

/-- The run lemma. -/
theorem Told.run {s t : MainLoop} {l : List MainEvent} (h : s.Told) (r : Run MainStep s l t) :
    t.Told :=
  r.invariant (fun _ _ _ hs hstep => hs.step hstep) h

end MainLoop

/-! ## The law -/

/-- **The debounced levels are told.** The edges of a button alternate, beginning with the
negation of its seed, and its level is the seed flipped once for each; a call writes at most
`max_events`, in the order of the buttons; and in the loop a hello line, the button lines sent after
it and those the pass has yet to send give the level there is. Only between `buttons_update` and
the end of the loop over `evs` can any be left to send. -/
theorem buttons_replay (debounceMs : UInt16) (ops : List ButtonOp) {ip : Fin 4 → UInt8}
    {raw0 : Levels} {nowMs : UInt32} {l : List MainEvent} {t : MainLoop}
    (r : Run MainStep (.boot ip raw0 nowMs) l t) (i : Button) :
    (levelsOf i (runOps (buttonsInit debounceMs) ops).2 =
        edges (seedLevels ops i) (levelsOf i (runOps (buttonsInit debounceMs) ops).2).length ∧
      buttonsPressed (runOps (buttonsInit debounceMs) ops).1 i.val =
        not^[(levelsOf i (runOps (buttonsInit debounceMs) ops).2).length] (seedLevels ops i)) ∧
    (∀ (bs : Buttons) (raw : Levels) (ms : UInt32) (maxEvents : ℤ),
      (buttonsUpdate bs raw ms maxEvents).2.length ≤ maxEvents.toNat ∧
        (buttonsUpdate bs raw ms maxEvents).2.Pairwise fun e e' => e.id < e'.id) ∧
    ∀ before after fw nleds pressed ipShown,
      t.sent = before ++ .hello fw nleds pressed ipShown :: after →
        replay i (pressed i) (after ++ t.phase.pending) = buttonsPressed t.app.buttons i.val ∧
          ((∀ ev evs ms, t.phase ≠ .sending (ev :: evs) ms) →
            replay i (pressed i) after = buttonsPressed t.app.buttons i.val) := by
  have hinit : (buttonsInit debounceMs).initialized = false := rfl
  have htracks := runOps_seed hinit rfl ops i
  have htold := (MainLoop.Told.boot ip raw0 nowMs).run r
  refine ⟨⟨htracks.alternate, ?_⟩, buttonsUpdate_writes, ?_⟩
  · rw [buttonsPressed_coe]
    exact htracks.flipped
  · intro before after fw nleds pressed ipShown hsent
    have hreplay := htold.replays before after fw nleds pressed ipShown hsent i
    rw [buttonsPressed_coe]
    refine ⟨hreplay, fun hphase => ?_⟩
    have hnone : t.phase.pending = [] := by
      cases h : t.phase with
      | sending evs ms =>
        cases evs with
        | nil => rfl
        | cons ev evs => exact absurd h (hphase ev evs ms)
      | top => rfl
      | buttons => rfl
      | reading rx => rfl
    rwa [hnone, List.append_nil] at hreplay

/-- A pass in which nothing has changed since the boot, and the one in which both buttons are
down. -/
def downEvents : List MainEvent :=
  [.poll true, .sample (fun _ => true) 0, .read [], .flush, .poll true, .sample (fun _ => true) 30]

set_option maxRecDepth 4000 in
theorem downEvents_run : ∃ t after pressed,
    Run MainStep (.boot (fun _ => 0) (fun _ => false) 0) (downEvents ++ [.sendBtn, .sendBtn]) t ∧
      t.sent = .hello fwVersion ringNumLeds pressed "0.0.0.0".toList :: after ∧
      t.phase = .sending [] 30 ∧ buttonsPressed t.app.buttons 0 = true :=
  ⟨_, _, _, .cons rfl (.cons rfl (.cons rfl (.cons rfl (.cons rfl (.cons rfl (.cons rfl
    (.cons rfl (.nil _)))))))), rfl, rfl, rfl⟩

/-- Both events are sent. -/
theorem buttons_replay_down : ∃ t after pressed,
    Run MainStep (.boot (fun _ => 0) (fun _ => false) 0) (downEvents ++ [.sendBtn, .sendBtn]) t ∧
      t.sent = .hello fwVersion ringNumLeds pressed "0.0.0.0".toList :: after ∧
      replay 0 (pressed 0) after = true := by
  obtain ⟨t, after, pressed, r, hsent, hphase, hdown⟩ := downEvents_run
  have hreplay := ((buttons_replay 30 [] r 0).2.2 [] after _ _ pressed _ hsent).2
  have hnone : ∀ ev evs ms, t.phase ≠ .sending (ev :: evs) ms := by
    intro ev evs ms h
    rw [hphase] at h
    cases h
  exact ⟨t, after, pressed, r, hsent, (hreplay hnone).trans hdown⟩

/-- The debounced level has changed and its line is not sent yet. -/
theorem replay_midPass : ¬ ∀ (ip : Fin 4 → UInt8) (raw0 : Levels) (nowMs : UInt32)
    (l : List MainEvent) (t : MainLoop) (before after : List ProtoEvent) (fw : String)
    (nleds : Fin 2 → UInt16) (pressed : Fin 2 → Bool) (ipShown : List Char),
    Run MainStep (.boot ip raw0 nowMs) l t →
      t.sent = before ++ .hello fw nleds pressed ipShown :: after →
        ∀ i : Button, replay i (pressed i) after = buttonsPressed t.app.buttons i.val := by
  intro hall
  have h := hall (fun _ => 0) (fun _ => false) 0 downEvents _ [] [] _ _ _ _
    (.cons rfl (.cons rfl (.cons rfl (.cons rfl (.cons rfl (.cons rfl (.nil _)))))))
    (by rfl) 0
  exact absurd h (by decide +kernel)

end EthPanel
