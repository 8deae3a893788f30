import EthPanel.Driver.Reconnect
import EthPanel.System.Shown

/-!
# What is commanded is what is shown

The whole way of a command: the callback stores and sends it, on whatever connection there is or on
none; a later connection resends it; its bytes get to the loop in whatever pieces; and the rings
show it (`desired_state_shown`).
-/

namespace EthPanel

open Lts

/-! ## Commands and their lines -/

theorem head_cmdLine (o : Output) (v : o.Value) : o.head <+: cmdLine o v := by
  cases o with
  | ring id =>
    show ringHead id <+: fmtRingCmd id v.r v.g v.b v.brightness
    unfold fmtRingCmd
    simp only [List.append_assoc]
    exact List.prefix_append _ _
  | lamp => exact (lampCmd v).head

/-- The line of a command, as the cache has it. -/
def cmdFor (o : Output) (v : o.Value) : CmdFor o := ⟨cmdLine o v, head_cmdLine o v⟩

/-- A byte of `color_rgba_to_bytes`. -/
def byteChannel (c : UInt8) : ChannelValue := ⟨c.toNat, by
  have := c.toNat_lt
  omega⟩

/-- What a callback was called with. -/
def DriverEvent.value? : DriverEvent → Option Command
  | .onRing id r g b brightness =>
    some ⟨.ring id, byteChannel r, byteChannel g, byteChannel b, byteChannel brightness⟩
  | .onLamp on => some ⟨.lamp, on⟩
  | .callbackSend | .hello | .load | .resyncSend | .ping | .helloRequest => none

def NodeEvent.value? (e : NodeEvent) : Option Command := e.driver?.bind DriverEvent.value?

theorem command_eq (e : DriverEvent) :
    e.command = e.value?.map fun c => ⟨c.1, cmdFor c.1 c.2⟩ := by
  cases e <;> rfl

/-- The cache's lines are those of the last commands. -/
theorem commanded_eq (es : List DriverEvent) (o : Output) :
    commanded es o = (lastCommands (es.filterMap DriverEvent.value?) o).map (cmdFor o) := by
  induction es using List.reverseRecOn with
  | nil => rfl
  | append_singleton es e ih =>
    have hlast : commanded (es ++ [e]) = (commanded es).note e := List.foldl_concat _ _ _ _
    rw [hlast, List.filterMap_append, Cache.note, command_eq]
    cases hvalue : e.value? with
    | none =>
      have hnone : [e].filterMap DriverEvent.value? = [] := by simp [hvalue]
      rw [hnone, List.append_nil]
      exact ih
    | some c =>
      have hone : [e].filterMap DriverEvent.value? = [c] := by simp [hvalue]
      rw [hone, lastCommands_append]
      show Function.update (commanded es) c.1 (some (cmdFor c.1 c.2)) o = _
      by_cases ho : o = c.1
      · subst ho
        rw [Function.update_self, Function.update_self, Option.map_some]
      · rw [Function.update_of_ne ho, Function.update_of_ne ho]
        exact ih

/-- The last line for an output is that of its last command. -/
theorem lastSent_eq (ls : List SentLine) (o : Output) : lastSent o (ls.map SentLine.text) =
    (lastCommands (ls.filterMap SentLine.command?) o).map (cmdLine o) := by
  induction ls using List.reverseRecOn with
  | nil => rfl
  | append_singleton ls line ih =>
    rw [List.map_append, List.map_singleton, List.filterMap_append]
    cases line with
    | cmd c =>
      have hone : [SentLine.cmd c].filterMap SentLine.command? = [c] := rfl
      have hsend : lastSent o (ls.map SentLine.text ++ [(SentLine.cmd c).text]) =
          if o = c.1 then some (cmdLine c.1 c.2) else lastSent o (ls.map SentLine.text) :=
        lastSent_send (cmdFor c.1 c.2) _
      rw [hone, lastCommands_append, hsend]
      by_cases ho : o = c.1
      · subst ho
        rw [if_pos rfl, Function.update_self, Option.map_some]
      · rw [if_neg ho, Function.update_of_ne ho]
        exact ih
    | ping =>
      have hnone : [SentLine.ping].filterMap SentLine.command? = [] := rfl
      rw [hnone, List.append_nil, ← ih]
      exact lastSent_other (requests_for_none o).1 _
    | helloRequest =>
      have hnone : [SentLine.helloRequest].filterMap SentLine.command? = [] := rfl
      rw [hnone, List.append_nil, ← ih]
      exact lastSent_other (requests_for_none o).2 _

/-- The line of a command says what it shows. -/
theorem MainLoop.Displays.of_line {t : MainLoop} {o : Output} {v v' : o.Value}
    (h : t.Displays o v) (hline : cmdLine o v = cmdLine o v') : t.Displays o v' := by
  -- The device tells the two apart by nothing but the line.
  obtain ⟨-, hobeys, -⟩ := dispatch_cmd t.app o v
  obtain ⟨-, hobeys', -⟩ := dispatch_cmd t.app o v'
  rw [hline] at hobeys
  cases o with
  | ring id =>
    have hcolour : v.clamped = v'.clamped := hobeys.symm.trans hobeys'
    show lastFrame (ringOf id) t.pushed = _
    rw [← hcolour]
    exact h
  | lamp =>
    have hon : v = v' := hobeys.symm.trans hobeys'
    exact hon ▸ h

/-! ## What the driver says -/

/-- Every line of the driver's is of a command, a ping or a request for a hello. -/
structure Spoken (d : Driver) : Prop where
  cached : ∀ o cmd, d.cmds o = some cmd → ∃ v, cmd = cmdFor o v
  callback : ∀ o cmd, d.callback = some ⟨o, cmd⟩ → ∃ v, cmd = cmdFor o v
  loaded : ∀ o cmd, d.reader.loaded = some ⟨o, cmd⟩ → ∃ v, cmd = cmdFor o v
  wire : ∃ ls : List SentLine, d.wire = ls.map SentLine.text

theorem Driver.load_loaded {s t : Driver} (h : s.load = some t) {o : Output} {cmd : CmdFor o}
    (hloaded : t.reader.loaded = some ⟨o, cmd⟩) : s.cmds o = some cmd := by
  unfold Driver.load at h
  split at h
  · split at h
    · rename_i hcmd
      obtain rfl := Option.some.inj h
      cases hloaded
      exact hcmd
    · obtain rfl := Option.some.inj h
      cases hloaded
  · split at h
    · obtain rfl := Option.some.inj h
      cases hloaded
    · obtain rfl := Option.some.inj h
      cases hloaded
  · split at h
    · rename_i hcmd
      obtain rfl := Option.some.inj h
      cases hloaded
      exact hcmd
    · cases h
  · cases h

theorem Driver.resyncSend_loaded {s t : Driver} (h : s.resyncSend = some t) :
    t.reader.loaded = none := by
  unfold Driver.resyncSend at h
  split at h
  · obtain rfl := Option.some.inj h
    rfl
  · obtain rfl := Option.some.inj h
    rfl
  · cases h

namespace Spoken

variable {d d' : Driver}

theorem snoc (h : Spoken d) (line : SentLine) : ∃ ls : List SentLine,
    d.wire ++ [line.text] = ls.map SentLine.text := by
  obtain ⟨ls, hls⟩ := h.wire
  exact ⟨ls ++ [line], by rw [hls, List.map_append]; rfl⟩

theorem store (h : Spoken d) {o : Output} (v : o.Value) (hs : d.store o (cmdFor o v) = some d') :
    Spoken d' := by
  obtain ⟨-, hcmds, hcallback, hwire⟩ := Driver.store_some hs
  refine ⟨fun o' cmd ho' => ?_, fun o' cmd ho' => ?_, ?_, ?_⟩
  · rw [hcmds] at ho'
    by_cases heq : o' = o
    · subst heq
      rw [Function.update_self] at ho'
      exact ⟨v, (Option.some.inj ho').symm⟩
    · rw [Function.update_of_ne heq] at ho'
      exact h.cached o' cmd ho'
  · rw [hcallback] at ho'
    cases ho'
    exact ⟨v, rfl⟩
  · rw [Driver.store_reader hs]
    exact h.loaded
  · rw [hwire]
    exact h.wire

theorem callbackSend (h : Spoken d) {o : Output} {cmd : CmdFor o}
    (hpending : d.callback = some ⟨o, cmd⟩) : Spoken { d.send cmd.line with callback := none } := by
  obtain ⟨v, rfl⟩ := h.callback o cmd hpending
  refine ⟨h.cached, fun o' cmd' ho' => ?_, h.loaded, h.snoc (.cmd ⟨o, v⟩)⟩
  cases ho'

theorem load (h : Spoken d) (hs : d.load = some d') : Spoken d' := by
  obtain ⟨hcmds, hcallback, hwire⟩ := Driver.load_some hs
  refine ⟨?_, ?_, fun o cmd ho => h.cached o cmd (Driver.load_loaded hs ho), ?_⟩
  · rw [hcmds]
    exact h.cached
  · rw [hcallback]
    exact h.callback
  · rw [hwire]
    exact h.wire

theorem resyncSend (h : Spoken d) (hs : d.resyncSend = some d') : Spoken d' := by
  obtain ⟨o, cmd, hload, hcmds, hcallback, hwire⟩ := Driver.resyncSend_some hs
  obtain ⟨v, rfl⟩ := h.loaded o cmd hload
  refine ⟨?_, ?_, fun o' cmd' ho' => ?_, ?_⟩
  · rw [hcmds]
    exact h.cached
  · rw [hcallback]
    exact h.callback
  · rw [Driver.resyncSend_loaded hs] at ho'
    cases ho'
  · rw [hwire]
    exact h.snoc (.cmd ⟨o, v⟩)

theorem readerSend (h : Spoken d) (line : SentLine) (hs : d.readerSend line.text = some d') :
    Spoken d' := by
  obtain ⟨hcmds, hcallback, hwire⟩ := Driver.readerSend_some hs
  refine ⟨?_, ?_, ?_, ?_⟩
  · rw [hcmds]
    exact h.cached
  · rw [hcallback]
    exact h.callback
  · rw [Driver.readerSend_reader hs]
    exact h.loaded
  · rw [hwire]
    exact h.snoc line

theorem step {e : DriverEvent} (h : Spoken d) (hs : DriverStep d e d') : Spoken d' := by
  cases e with
  | onRing id r g b brightness =>
    have hstore : d.store (.ring id) (cmdFor (.ring id)
        ⟨byteChannel r, byteChannel g, byteChannel b, byteChannel brightness⟩) = some d' := hs
    exact h.store _ hstore
  | onLamp on =>
    have hstore : d.store .lamp (cmdFor .lamp on) = some d' := hs
    exact h.store _ hstore
  | callbackSend =>
    simp only [DriverStep, Driver.next] at hs
    split at hs
    · rename_i o cmd hpending
      obtain rfl := Option.some.inj hs
      exact h.callbackSend hpending
    · cases hs
  | hello =>
    simp only [DriverStep, Driver.next] at hs
    split at hs
    · obtain rfl := Option.some.inj hs
      refine ⟨h.cached, h.callback, fun o cmd ho => ?_, h.wire⟩
      cases ho
    · cases hs
  | load => exact h.load hs
  | resyncSend => exact h.resyncSend hs
  | ping => exact h.readerSend .ping hs
  | helloRequest => exact h.readerSend .helloRequest hs

theorem node {s t : Node} {e : NodeEvent} (h : Spoken s.driver) (hs : NodeStep s e t) :
    Spoken t.driver := by
  rcases hs.cases with ⟨rfl, rfl⟩ | ⟨rfl, rfl⟩ | ⟨e', fails, d, rfl, hd, rfl⟩
  · exact ⟨h.cached, h.callback, h.loaded, [], rfl⟩
  · exact h
  · have hd' := h.step hd
    refine ⟨hd'.cached, hd'.callback, hd'.loaded, ?_⟩
    show ∃ ls : List SentLine,
      (if s.sock = .up ∧ fails = false then d.wire else s.driver.wire) = ls.map SentLine.text
    split
    · exact hd'.wire
    · exact h.wire

theorem boot : Spoken Node.boot.driver := by
  refine ⟨fun o cmd ho => ?_, fun o cmd ho => ?_, fun o cmd ho => ?_, [], rfl⟩
  · cases ho
  · cases ho
  · cases ho

/-- The run lemma. -/
theorem run {s t : Node} {l : List NodeEvent} (h : Spoken s.driver) (r : Run NodeStep s l t) :
    Spoken t.driver :=
  r.invariant (I := fun s => Spoken s.driver) (fun _ _ _ hs hstep => hs.node hstep) h

end Spoken

/-! ## The law -/

/-- **What is commanded is what is shown.** However often the driver has lost its connection: when
the last one is up, has seen its hello and has sent nothing stale since, and no call is under way;
and the device, which was in no line as the client connected, has seen no connect edge since, has
read what was sent on it and is at the head of its loop; then every output ever commanded shows its
last command. A connect edge among the resync lines (`hpeer`) drops one that is half read. -/
theorem desired_state_shown {l₀ l : List NodeEvent} {s n : Node} (r₀ : Run NodeStep .boot l₀ s)
    (hdown : s.sock = .none) (r : Run (Guarded NodeStep ResendsFresh) s l n) (hup : n.sock = .up)
    (hseen : n.helloSeen = true) (hquiet : n.driver.Quiet)
    {ip : Fin 4 → UInt8} {raw0 : Levels} {nowMs : UInt32} {k₀ k : List MainEvent}
    {d t : MainLoop} (q₀ : Run MainStep (.boot ip raw0 nowMs) k₀ d) (q : Run MainStep d k t)
    (hphase : ∀ rx, d.phase ≠ .reading rx) (hline : d.line = .fresh)
    (hpeer : seesConnect d.peerWasConnected k = false)
    (hread : bytesRead k = n.driver.wire.flatMap utf8) (htop : t.phase = .top) {o : Output}
    {v : o.Value} (hlast : lastCommands ((l₀ ++ l).filterMap NodeEvent.value?) o = some v) :
    t.Displays o v := by
  have hspoken : Spoken n.driver :=
    r.invariant (I := fun s => Spoken s.driver) (fun _ _ _ hs hstep => hs.node hstep.1)
      (Spoken.boot.run r₀)
  obtain ⟨ls, hwire⟩ := hspoken.wire
  have hcommanded : commanded ((l₀ ++ l).filterMap NodeEvent.driver?) o = some (cmdFor o v) := by
    rw [commanded_eq, List.filterMap_filterMap]
    exact congrArg (Option.map (cmdFor o)) hlast
  have hsent := (Catching.of_boot r₀ hdown r).sent hup hseen hquiet hcommanded
  rw [hwire, lastSent_eq] at hsent
  obtain ⟨v', hv', hsame⟩ := Option.map_eq_some_iff.mp hsent
  rw [hwire, List.flatMap_map] at hread
  have hshown := ((MainLoop.Shown.boot ip raw0 nowMs).run q₀).run q
  have hsettings := settings_sent q hphase hline hpeer hread htop
  have hobeys := (actAll_sent d.app ls o).1 v' hv'
  exact (hshown.displays (not_reading_of_top htop) hsettings hobeys).of_line hsame

/-- A client connects, and the loop reads the lamp's line. -/
def lampEvents : List MainEvent :=
  [.sample (fun _ => false) 0, .read [], .flush, .poll true, .sample (fun _ => false) 1,
    .read (utf8 (fmtLampCmd true))] ++ List.replicate 25 .byte ++ [.flush]

/-- The lamp that was switched on with no connection is lit by the second one. -/
theorem desired_state_shown_lamp : ∃ t, Run MainStep firstClient lampEvents t ∧
    t.app.lamp = true := by
  obtain ⟨s, n, r₀, hdown, r, hup, hseen, hquiet, hwire⟩ := brokenResync_run
  obtain ⟨t, q, htop⟩ := @MainLoop.run_to_top firstClient lampEvents (by decide +kernel)
  have hstays : seesConnect firstClient.peerWasConnected lampEvents = false := by decide
  have hread : bytesRead lampEvents = n.driver.wire.flatMap utf8 := by
    rw [hwire]
    decide +kernel
  have hshows : t.Displays .lamp true :=
    desired_state_shown r₀ hdown r hup hseen hquiet firstClient_run q firstClient_out rfl hstays
      hread htop rfl
  exact ⟨t, q, hshows⟩

end EthPanel
