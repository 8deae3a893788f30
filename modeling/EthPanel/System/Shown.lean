import EthPanel.App.Heeded
import EthPanel.System.Resynced
import Mathlib.Data.List.Induction

/-!
# From the driver's lines to the rings

What the driver sends on a connection are commands, pings and requests for a hello. The loop gets
their bytes in whatever pieces and does what else it does between them; and when it has read them
and is through with the pass, every output that was commanded shows its last command, and the
others what they showed (`commands_shown`).
-/

namespace EthPanel

open Lts

/-! ## The frames -/

/-- The last frame that was pushed to a ring. -/
def lastFrame (i : Ring) (pushed : List (Ring × List UInt32)) : Option (List UInt32) :=
  (framesTo i (pushed.map fun f => .pushed f.1 f.2)).getLast?

/-- What holds of the rings at every moment of the loop. -/
structure MainLoop.Shown (s : MainLoop) : Prop where
  nleds : s.app.rings.nleds = ringNumLeds
  /-- A ring that is not dirty shows what is stored for it. -/
  clean : ∀ i, s.app.rings.dirty i = false → lastFrame i s.pushed = some (s.app.rings.frame i)
  /-- Only a line that has just been dispatched leaves one dirty. -/
  settled : (∀ rx, s.phase ≠ .reading rx) → ∀ i, s.app.rings.dirty i = false

theorem lastFrame_append (i : Ring) (pushed pushed' : List (Ring × List UInt32)) :
    lastFrame i (pushed ++ pushed') = (lastFrame i pushed').or (lastFrame i pushed) := by
  rw [lastFrame, List.map_append, framesTo_append, List.getLast?_append]
  rfl

theorem pushes_iff {rs : Rings} (hnleds : rs.nleds = ringNumLeds) (i : Ring) :
    rs.Pushes i ↔ rs.dirty i = true := by
  have hroom : (ringNumLeds i).toNat ≤ ringMaxLeds := by
    unfold ringNumLeds
    decide
  rw [Rings.Pushes, hnleds]
  exact and_iff_left hroom

/-- A flush leaves no ring dirty … -/
theorem ringsFlush_clean {rs : Rings} (hnleds : rs.nleds = ringNumLeds) :
    (ringsFlush rs).1 = { rs with dirty := fun _ => false } := by
  rw [ringsFlush_eq]
  refine congrArg (Rings.mk rs.st rs.nleds) (funext fun i => ?_)
  simp [pushes_iff hnleds i]

/-- … and pushes to those that were. -/
theorem lastFrame_flush {a : App} (hnleds : a.rings.nleds = ringNumLeds) (i : Ring) :
    lastFrame i (ringsFlush a.rings).2 =
      if a.rings.dirty i = true then some (a.rings.frame i) else none := by
  have hframes := framesTo_flush (a := a) i
  rw [DisplayOp.adds] at hframes
  rw [lastFrame, hframes]
  simp only [pushes_iff hnleds i]
  split <;> rfl

/-- A ring that is not dirty after some lines was not before, and is to show the same. -/
theorem actAll_rings (a : App) (outs : List (LineOut UInt8)) :
    (actAll a outs).1.rings.nleds = a.rings.nleds ∧
      ∀ i, (actAll a outs).1.rings.dirty i = false →
        a.rings.dirty i = false ∧ (actAll a outs).1.rings.frame i = a.rings.frame i := by
  induction outs generalizing a with
  | nil => exact ⟨rfl, fun i h => ⟨h, rfl⟩⟩
  | cons out outs ih =>
    obtain ⟨hnleds, hkept⟩ := ih (out.act a).1
    cases out with
    | lineTooLong => exact ⟨hnleds, hkept⟩
    | dispatch line =>
      obtain ⟨e, -, hnleds', -, hdirty⟩ := dispatch_rings a (.ofBuf line)
      refine ⟨hnleds.trans hnleds', fun i hclean => ?_⟩
      obtain ⟨hold, hframe⟩ := hkept i hclean
      rw [LineOut.act, hdirty, Bool.or_eq_false_iff, decide_eq_false_iff_not, not_not] at hold
      refine ⟨hold.1, hframe.trans ?_⟩
      rw [Rings.frame, Rings.frame, ringsPixelWord, ringsPixelWord, LineOut.act, hnleds', hold.2]

namespace MainLoop.Shown

theorem boot (ip : Fin 4 → UInt8) (raw0 : Levels) (nowMs : UInt32) :
    (MainLoop.boot ip raw0 nowMs).Shown := by
  have hclean := @ringsFlush_clean (ringsInit ringNumLeds) rfl
  have hrings : (MainLoop.boot ip raw0 nowMs).app.rings =
      { ringsInit ringNumLeds with dirty := fun _ => false } := hclean
  refine ⟨by rw [hrings]; rfl, fun i _ => ?_, fun _ i => by rw [hrings]⟩
  have hframe := lastFrame_flush (a := App.init ip) rfl i
  rw [hrings]
  exact hframe

variable {s t : MainLoop}

/-- A step that leaves the rings alone. -/
theorem of_eq (h : s.Shown) (hrings : t.app.rings = s.app.rings) (hpushed : t.pushed = s.pushed)
    (hphase : (∀ rx, t.phase ≠ .reading rx) → ∀ rx, s.phase ≠ .reading rx) : t.Shown where
  nleds := by
    rw [hrings]
    exact h.nleds
  clean := by
    rw [hrings, hpushed]
    exact h.clean
  settled := by
    rw [hrings]
    exact fun hnot => h.settled (hphase hnot)

theorem byte (h : s.Shown) (ch : UInt8) (rx : List UInt8) : (s.byte ch rx).Shown := by
  obtain ⟨hnleds, hkept⟩ := actAll_rings s.app (feed id s.line ch).2
  refine ⟨hnleds.trans h.nleds, fun i hclean => ?_, fun hnot => absurd rfl (hnot rx)⟩
  obtain ⟨hold, hframe⟩ := hkept i hclean
  show lastFrame i s.pushed = some ((actAll s.app (feed id s.line ch).2).1.rings.frame i)
  rw [hframe]
  exact h.clean i hold

theorem flush (h : s.Shown) : s.flush.Shown := by
  have hrings : s.flush.app.rings = { s.app.rings with dirty := fun _ => false } :=
    ringsFlush_clean h.nleds
  refine ⟨by rw [hrings]; exact h.nleds, fun i _ => ?_, fun _ i => by rw [hrings]⟩
  have hframe : s.flush.app.rings.frame i = s.app.rings.frame i := by
    rw [hrings]
    rfl
  show lastFrame i (s.pushed ++ (ringsFlush s.app.rings).2) = _
  rw [hframe, lastFrame_append, lastFrame_flush h.nleds]
  by_cases hdirty : s.app.rings.dirty i = true
  · rw [if_pos hdirty]
    rfl
  · rw [if_neg hdirty, Option.none_or]
    exact h.clean i (Bool.not_eq_true _ ▸ hdirty)

theorem step {e : MainEvent} (h : s.Shown) (hs : MainStep s e t) : t.Shown := by
  obtain ⟨-, hdid⟩ := hs.did
  cases hdid with
  | poll peer hphase => exact h.of_eq rfl rfl fun _ rx heq => by rw [hphase] at heq; cases heq
  | sample raw nowMs hphase =>
    exact h.of_eq rfl rfl fun _ rx heq => by rw [hphase] at heq; cases heq
  | sendBtn hphase => exact h.of_eq rfl rfl fun _ rx heq => by rw [hphase] at heq; cases heq
  | read rx hphase hsize => exact h.of_eq rfl rfl fun hnot => absurd rfl (hnot rx)
  | byte hphase => exact h.byte _ _
  | flush hphase => exact h.flush

/-- The run lemma. -/
theorem run {l : List MainEvent} (h : s.Shown) (r : Run MainStep s l t) : t.Shown :=
  r.invariant (fun _ _ _ hs hstep => hs.step hstep) h

end MainLoop.Shown

/-! ## The lines of the driver -/

/-- What the driver sends. -/
inductive SentLine
  | cmd (c : Command)
  | ping
  | helloRequest

namespace SentLine

def text : SentLine → Line
  | .cmd c => cmdLine c.1 c.2
  | .ping => fmtPingCmd
  | .helloRequest => fmtHelloCmd

def command? : SentLine → Option Command
  | .cmd c => some c
  | .ping | .helloRequest => none

/-- The line without its newline. -/
def body (line : SentLine) : List UInt8 := (utf8 line.text).dropLast

end SentLine

theorem length_utf8_dec (n : ℕ) : (utf8 (dec n)).length = (dec n).length := length_utf8_decimal n

theorem length_clamp8 (v : ℤ) : (utf8 (dec (clamp8 v))).length ≤ 3 := by
  have hle := clamp8_le v
  rw [length_utf8_dec, dec, Nat.length_toDigits_le_iff (by omega) (by omega)]
  omega

theorem length_cmdLine (o : Output) (v : o.Value) : (utf8 (cmdLine o v)).length ≤ 256 := by
  cases o with
  | lamp =>
    have hlamp : ∀ on, (utf8 (fmtLampCmd on)).length ≤ 256 := by decide +kernel
    exact hlamp v
  | ring id =>
    have hhead : ∀ n ∈ ringIds, (utf8 (ringHead n)).length ≤ 30 := by decide +kernel
    have h₁ : (utf8 "\"r\":".toList).length = 4 := by decide +kernel
    have h₂ : (utf8 ",\"g\":".toList).length = 5 := by decide +kernel
    have h₃ : (utf8 ",\"b\":".toList).length = 5 := by decide +kernel
    have h₄ : (utf8 ",\"brightness\":".toList).length = 14 := by decide +kernel
    have h₅ : (utf8 "\x7d\n".toList).length = 2 := by decide +kernel
    have hr := length_clamp8 v.r
    have hg := length_clamp8 v.g
    have hb := length_clamp8 v.b
    have hbrightness := length_clamp8 v.brightness
    have hid := hhead id id.2
    show (utf8 (fmtRingCmd id v.r v.g v.b v.brightness)).length ≤ 256
    unfold fmtRingCmd
    simp only [utf8_append, List.length_append, h₁, h₂, h₃, h₄, h₅]
    omega

/-- The line is whole, and its newline is its end. -/
theorem SentLine.whole (line : SentLine) :
    utf8 line.text = line.body ++ [newline] ∧ WholeLine line.body := by
  cases line with
  | cmd c =>
    obtain ⟨o, v⟩ := c
    have htext : utf8 (SentLine.cmd ⟨o, v⟩).text = (cmdObject o v).text ++ [newline] :=
      utf8_cmdLine o v
    have hbody : (SentLine.cmd ⟨o, v⟩).body = (cmdObject o v).text := by
      rw [SentLine.body, htext, List.dropLast_concat]
    have hlen := length_cmdLine o v
    rw [utf8_cmdLine, List.length_append, List.length_singleton] at hlen
    rw [hbody]
    refine ⟨htext, ?_, by omega, fun b hb => ⟨?_, (cmdObject o v).noNul b hb⟩⟩
    · simp [FlatObject.text]
    · rintro rfl
      exact newline_not_mem o v hb
  | ping =>
    unfold WholeLine
    decide +kernel
  | helloRequest =>
    unfold WholeLine
    decide +kernel

theorem feedAll_sent (ls : List SentLine) :
    feedAll id .fresh (ls.flatMap fun line => utf8 line.text) =
      (.fresh, ls.map fun line => .dispatch line.body) := by
  have hlines := @feedAll_lines (ls.map SentLine.body) (fun line hline => by
    obtain ⟨l, -, rfl⟩ := List.mem_map.mp hline
    exact l.whole.2)
  rw [List.flatMap_map, List.map_map] at hlines
  rw [List.flatMap_congr fun line _ => line.whole.1]
  exact hlines

theorem receivedLine_body (line : SentLine) : receivedLine line.text = .ofBuf line.body := by
  obtain ⟨htext, -, -, hline⟩ := line.whole
  have hbody : ∀ b ∈ line.body, (b != newline) = true := fun b hb => bne_iff_ne.mpr (hline b hb).1
  rw [receivedLine, htext, List.takeWhile_append_of_pos hbody,
    List.takeWhile_cons_of_neg (by decide), List.append_nil]

/-- A ping or a request for a hello changes nothing. -/
theorem dispatch_request_same (a : App) {line : SentLine} (h : line.command? = none) :
    (dispatch a (.ofBuf line.body)).1 = a := by
  have hparse : (protoParse (CString.ofBuf line.body).bytes).1 = true ∧
      ((protoParse (CString.ofBuf line.body).bytes).2.type = .ping ∨
        (protoParse (CString.ofBuf line.body).bytes).2.type = .hello) := by
    cases line with
    | cmd c => cases h
    | ping => decide +kernel
    | helloRequest => decide +kernel
  unfold dispatch
  cases hfound : protoParse (CString.ofBuf line.body).bytes with
  | mk found c =>
    rw [hfound] at hparse
    obtain ⟨rfl, hping | hhello⟩ := hparse
    · have htype : c.type = .ping := hping
      simp only [htype]
    · have htype : c.type = .hello := hhello
      simp only [htype]

theorem lastCommands_append (history : List Command) (c : Command) :
    lastCommands (history ++ [c]) = Function.update (lastCommands history) c.1 (some c.2) :=
  List.foldl_concat _ _ _ _

/-- **Line after line**: every output that was commanded is as last commanded. -/
theorem actAll_sent (a : App) (ls : List SentLine) (o : Output) :
    (∀ v, lastCommands (ls.filterMap SentLine.command?) o = some v →
      Obeys (actAll a (ls.map fun line => .dispatch line.body)).1 o v) ∧
    (lastCommands (ls.filterMap SentLine.command?) o = none →
      Untouched a (actAll a (ls.map fun line => .dispatch line.body)).1 o) := by
  induction ls using List.reverseRecOn with
  | nil =>
    refine ⟨fun v hv => ?_, fun _ => .refl a o⟩
    cases hv
  | append_singleton ls line ih =>
    have hlast : (actAll a ((ls ++ [line]).map fun line => .dispatch line.body)).1 =
        (dispatch (actAll a (ls.map fun line => .dispatch line.body)).1 (.ofBuf line.body)).1 := by
      rw [List.map_append, (actAll_append _ _ _).1]
      rfl
    rw [hlast, List.filterMap_append]
    generalize (actAll a (ls.map fun line => .dispatch line.body)).1 = b at ih
    cases line with
    | cmd c =>
      obtain ⟨o', v'⟩ := c
      obtain ⟨-, hobeys, hother⟩ := dispatch_cmd b o' v'
      have hline : receivedLine (cmdLine o' v') = .ofBuf (SentLine.cmd ⟨o', v'⟩).body :=
        receivedLine_body (.cmd ⟨o', v'⟩)
      rw [hline] at hobeys hother
      have hone : [SentLine.cmd ⟨o', v'⟩].filterMap SentLine.command? = [⟨o', v'⟩] := rfl
      rw [hone, lastCommands_append]
      by_cases ho : o = o'
      · subst ho
        rw [Function.update_self]
        refine ⟨fun v hv => ?_, fun hnone => by cases hnone⟩
        rw [← Option.some.inj hv]
        exact hobeys
      · rw [Function.update_of_ne ho]
        exact ⟨fun v hv => (hother o ho).obeys (ih.1 v hv),
          fun hnone => (ih.2 hnone).trans (hother o ho)⟩
    | ping =>
      have hnone : [SentLine.ping].filterMap SentLine.command? = [] := rfl
      rw [dispatch_request_same b rfl, hnone, List.append_nil]
      exact ih
    | helloRequest =>
      have hnone : [SentLine.helloRequest].filterMap SentLine.command? = [] := rfl
      rw [dispatch_request_same b rfl, hnone, List.append_nil]
      exact ih

/-! ## The law -/

/-- An output shows a command. -/
def MainLoop.Displays (s : MainLoop) : (o : Output) → o.Value → Prop
  | .ring id, v => lastFrame (ringOf id) s.pushed =
      some (List.replicate 16 (v.clamped.pixelWord ringOrder))
  | .lamp, on => s.app.lamp = on

/-- An output shows what it did. -/
def MainLoop.StillDisplays (s t : MainLoop) : Output → Prop
  | .ring id => lastFrame (ringOf id) t.pushed = lastFrame (ringOf id) s.pushed
  | .lamp => t.app.lamp = s.app.lamp

theorem MainLoop.Shown.displays {t : MainLoop} (h : t.Shown) (hphase : ∀ rx, t.phase ≠ .reading rx)
    {b : App} (hsettings : t.app.settings = b.settings) {o : Output} {v : o.Value}
    (hobeys : Obeys b o v) : t.Displays o v := by
  obtain ⟨hst, hlamp, -⟩ := Settings.mk.inj hsettings
  cases o with
  | lamp => exact hlamp.trans hobeys
  | ring id =>
    have hframe := h.clean _ (h.settled hphase (ringOf id))
    have hcolour : b.rings.st (ringOf id) = v.clamped := hobeys
    rw [Rings.frame, h.nleds, ringsPixelWord, hst, hcolour] at hframe
    exact hframe

theorem MainLoop.Shown.stillDisplays {s t : MainLoop} (h : s.Shown) (h' : t.Shown)
    (hphase : ∀ rx, s.phase ≠ .reading rx) (hphase' : ∀ rx, t.phase ≠ .reading rx) {b : App}
    (hsettings : t.app.settings = b.settings) {o : Output} (hsame : Untouched s.app b o) :
    s.StillDisplays t o := by
  obtain ⟨hst, hlamp, -⟩ := Settings.mk.inj hsettings
  cases o with
  | lamp => exact hlamp.trans hsame
  | ring id =>
    have hframe := h'.clean _ (h'.settled hphase' (ringOf id))
    have hold := h.clean _ (h.settled hphase (ringOf id))
    have hcolour : b.rings.st (ringOf id) = s.app.rings.st (ringOf id) := hsame.1
    rw [Rings.frame, h'.nleds, ringsPixelWord, hst, hcolour] at hframe
    rw [Rings.frame, h.nleds, ringsPixelWord] at hold
    exact hframe.trans hold.symm

/-- The settings after the loop has read what the driver sent. -/
theorem settings_sent {l : List MainEvent} {s t : MainLoop} (r : Run MainStep s l t)
    (hphase : ∀ rx, s.phase ≠ .reading rx) (hline : s.line = .fresh)
    (hpeer : seesConnect s.peerWasConnected l = false) {ls : List SentLine}
    (hread : bytesRead l = ls.flatMap fun line => utf8 line.text) (htop : t.phase = .top) :
    t.app.settings = (actAll s.app (ls.map fun line => .dispatch line.body)).1.settings := by
  obtain ⟨done, hheeded⟩ : ∃ done, Heeded s t (bytesRead l) done := by
    cases r with
    | nil => exact ⟨[], .nil s⟩
    | cons hs r => exact Heeded.run (.cons hs r) hs.did.1 hpeer
  have hunread : s.phase.unread = [] := by
    cases h : s.phase with
    | reading rx => exact absurd h (hphase rx)
    | top => rfl
    | buttons => rfl
    | sending evs nowMs => rfl
  have hbytes := hheeded.bytes
  rw [hunread, List.nil_append, htop, hread] at hbytes
  have hdone : done = ls.flatMap fun line => utf8 line.text := by
    rw [hbytes]
    exact (List.append_nil _).symm
  rw [hheeded.settings, hdone, hline, feedAll_sent]

theorem not_reading_of_top {t : MainLoop} (h : t.phase = .top) : ∀ rx, t.phase ≠ .reading rx := by
  intro rx heq
  rw [h] at heq
  cases heq

/-- **The outputs show what was commanded.** After any run of the loop, and from a moment at which
it is in no line: when it has read what the driver sent from there on, and is at the head of the
loop, every output shows its last command, or what it showed if there was none. In the middle of a
line (`hphase`, `hline`) the first command would be the end of another, and at a connect edge
(`hpeer`) a half-read one is dropped. -/
theorem commands_shown {ip : Fin 4 → UInt8} {raw0 : Levels} {nowMs : UInt32}
    {l₀ l : List MainEvent} {s t : MainLoop} (r₀ : Run MainStep (.boot ip raw0 nowMs) l₀ s)
    (r : Run MainStep s l t) (hphase : ∀ rx, s.phase ≠ .reading rx) (hline : s.line = .fresh)
    (hpeer : seesConnect s.peerWasConnected l = false) {ls : List SentLine}
    (hread : bytesRead l = ls.flatMap fun line => utf8 line.text) (htop : t.phase = .top)
    (o : Output) :
    (∀ v, lastCommands (ls.filterMap SentLine.command?) o = some v → t.Displays o v) ∧
      (lastCommands (ls.filterMap SentLine.command?) o = none → s.StillDisplays t o) := by
  have hshown := (MainLoop.Shown.boot ip raw0 nowMs).run r₀
  have hshown' := hshown.run r
  have hout := not_reading_of_top htop
  have hsettings := settings_sent r hphase hline hpeer hread htop
  obtain ⟨hobeys, hsame⟩ := actAll_sent s.app ls o
  exact ⟨fun v hv => hshown'.displays hout hsettings (hobeys v hv),
    fun hnone => hshown.stillDisplays hshown' hphase hout hsettings (hsame hnone)⟩

theorem one_mem_ringIds : 1 ∈ ringIds := List.mem_cons_self

/-- Ring 1 in green. -/
def greenCommand : Command :=
  ⟨.ring ⟨1, one_mem_ringIds⟩, ⟨0, by decide⟩, ⟨9, by decide⟩, ⟨0, by decide⟩, ⟨255, by decide⟩⟩

/-- The pass in which a client connects, and the one in which it sends a ping and the command. -/
def greenEvents : List MainEvent :=
  [.sample (fun _ => false) 0, .read [], .flush, .poll true, .sample (fun _ => false) 1,
    .read ([SentLine.ping, .cmd greenCommand].flatMap fun line => utf8 line.text)] ++
    List.replicate 72 .byte ++ [.flush]

def Phase.isTop : Phase → Bool
  | .top => true
  | .buttons | .sending .. | .reading _ => false

/-- The loop can be run. -/
theorem MainLoop.run_to_top {s : MainLoop} {l : List MainEvent}
    (h : (l.foldlM MainLoop.next s).any (·.phase.isTop) = true) :
    ∃ t, Run MainStep s l t ∧ t.phase = .top := by
  cases ht : l.foldlM MainLoop.next s with
  | none =>
    rw [ht] at h
    cases h
  | some t =>
    rw [ht] at h
    have hphase : t.phase.isTop = true := h
    refine ⟨t, Run.of_foldlM ht, ?_⟩
    cases h : t.phase with
    | top => rfl
    | buttons => simp [h, Phase.isTop] at hphase
    | sending evs nowMs => simp [h, Phase.isTop] at hphase
    | reading rx => simp [h, Phase.isTop] at hphase

/-- The loop with its first client. -/
def firstClient : MainLoop := (MainLoop.boot (fun _ => 0) (fun _ => false) 0).poll true

theorem firstClient_run :
    Run MainStep (.boot (fun _ => 0) (fun _ => false) 0) [.poll true] firstClient := .single rfl

theorem firstClient_out (rx : List UInt8) : firstClient.phase ≠ .reading rx := by
  intro h
  cases h

/-- Ring 1 is green. -/
theorem commands_shown_green : ∃ t, Run MainStep firstClient greenEvents t ∧
    lastFrame 0 t.pushed =
      some (List.replicate 16 (RingState.pixelWord ⟨0, 9, 0, 255⟩ ringOrder)) := by
  obtain ⟨t, r, htop⟩ := @MainLoop.run_to_top firstClient greenEvents (by decide +kernel)
  have hstays : seesConnect firstClient.peerWasConnected greenEvents = false := by decide
  have hread : bytesRead greenEvents =
      [SentLine.ping, .cmd greenCommand].flatMap fun line => utf8 line.text := by
    decide +kernel
  exact ⟨t, r, (commands_shown firstClient_run r firstClient_out rfl hstays hread htop
    greenCommand.1).1 greenCommand.2 rfl⟩

end EthPanel
