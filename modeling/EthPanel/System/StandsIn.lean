import EthPanel.Host.MockSession
import EthPanel.System.Mirror
import EthPanel.System.Shown

/-!
# The mock server stands in for the device

A client that sends the same objects to either is answered the same by both, ota and all, and leaves
both with the same settings: however its bytes are cut into pieces, whatever buttons are pressed
meanwhile, and whatever else the passes of the loop do (`mock_stands_in`).
-/

namespace EthPanel

open Json (Text)
open Lts

/-! ## The device -/

/-- A line that the device can be sent, and that it takes for what it is. -/
structure JsonLine.Sendable (l : JsonLine) : Prop where
  short : l.text.length ≤ 255
  oneLine : newline ∉ l.text
  takenRight : l.TakenRight

namespace JsonLine.Sendable

variable {l : JsonLine}

theorem wholeLine (h : l.Sendable) : WholeLine l.text := by
  refine ⟨?_, h.short, fun b hb => ⟨?_, l.noNul b hb⟩⟩
  · simp [JsonLine.text]
  · rintro rfl
    exact h.oneLine hb

theorem dispatched (h : l.Sendable) (a : App) :
    (dispatch a (.ofBuf l.text)).2 = [l.all.request.answer.event a] ∧
      (dispatch a (.ofBuf l.text)).1.settings = l.all.request.perform a.settings := by
  obtain ⟨hsentinel, hzero, hrequest⟩ := h.takenRight
  rw [CString.ofBuf_eq l.noNul, ← JsonLine.line, dispatch_line, ← hrequest]
  exact dispatch_request a hsentinel hzero

theorem takes (h : l.Sendable) : Takes l.text l.all.request l.all.request.answer :=
  .of_dispatch h.wholeLine h.dispatched

end JsonLine.Sendable

/-- The stream of some lines. -/
def lineStream (ls : List JsonLine) : List UInt8 := Terminated.wire newline (ls.map JsonLine.text)

/-- **What the device has answered**, once it has read all the lines or has been asked to update.
The hypotheses on the run are those of `taken`. -/
theorem device_answers {ls : List JsonLine} (h : ∀ l ∈ ls, l.Sendable) {s t : MainLoop}
    {k : List MainEvent} (r : Run MainStep s k t) (hphase : ∀ rx, s.phase ≠ .reading rx)
    (hline : s.line = .fresh) (hup : s.app.rebooting = false)
    (hpeer : seesConnect s.peerWasConnected k = false)
    (hread : bytesRead k <+: lineStream ls)
    (hend : bytesRead k = lineStream ls ∧ t.phase = .top ∨ t.app.rebooting = true) :
    t.sent.filterMap ProtoEvent.answer? = s.sent.filterMap ProtoEvent.answer? ++
        (upToOta (requests ls)).map Request.answer ∧
      t.app.settings = performAll s.app.settings (upToOta (requests ls)) ∧
      t.app.rebooting = decide (Request.ota ∈ requests ls) := by
  obtain ⟨hanswers, hrest⟩ :=
    taken (fun l hl => (h l hl).takes) r hphase hline hup hpeer hread hend
  refine ⟨?_, hrest⟩
  rw [hanswers, upToOta, requests, Terminated.through_map, List.map_map]
  rfl

/-! ## Both -/

/-- **The mock server stands in for the device.** The device is in no line as the lines begin
(`hphase`, `hline`), as the mock is in none when it accepts a client; and no pass sees another
client connect (`hpeer`), since that drops a half-read line and what is in the ring, for which the
mock, with a thread for each client, has no counterpart. -/
theorem mock_stands_in {floatEq : Text → ℤ → Bool} {ls : List JsonLine}
    (hls : ∀ l ∈ ls, l.Sendable) {st : PanelState} {d : MainLoop} (hst : st.Shows d.app.settings)
    {l : List MockEvent} {m : MockClient} (r : Run (MockStep floatEq) (.accept st) l m)
    (hserved : bytesServed l <+: lineStream ls)
    (hmock : bytesServed l = lineStream ls ∨ m.done = true)
    {k : List MainEvent} {t : MainLoop} (q : Run MainStep d k t)
    (hphase : ∀ rx, d.phase ≠ .reading rx) (hline : d.line = .fresh)
    (hup : d.app.rebooting = false)
    (hpeer : seesConnect d.peerWasConnected k = false)
    (hread : bytesRead k <+: lineStream ls)
    (hdevice : bytesRead k = lineStream ls ∧ t.phase = .top ∨ t.app.rebooting = true) :
    ∃ ws : List Answer,
      List.Forall₂ (fun reply w => ∃ st, reply = Answer.line st w) m.replies ws ∧
      t.sent.filterMap ProtoEvent.answer? = d.sent.filterMap ProtoEvent.answer? ++ ws ∧
      m.st.Shows t.app.settings ∧ m.done = t.app.rebooting := by
  obtain ⟨hreplies, hshows, hdone⟩ :=
    serve_answers (fun l hl => ⟨(hls l hl).short, (hls l hl).oneLine⟩) hst r hserved hmock
  obtain ⟨hanswers, hsettings, hreboot⟩ :=
    device_answers hls q hphase hline hup hpeer hread hdevice
  refine ⟨(upToOta (requests ls)).map Request.answer, ?_, hanswers, ?_, hdone.trans hreboot.symm⟩
  · rw [List.forall₂_map_right_iff]
    exact hreplies
  · rw [hsettings]
    exact hshows

/-- The end of a line on Windows, less the newline. -/
def Gap.carriageReturn : Gap where
  bytes := [0x0D]
  space _ hc := Or.inr (Or.inr (Or.inr (List.mem_singleton.mp hc)))

/-- The lamp is switched on by a client that ends its lines like Windows. -/
def lampLine : JsonLine :=
  { (lampObject true).loose (by decide +kernel) with trail := .carriageReturn }

theorem lampLine_sendable : lampLine.Sendable := by
  have hverb : lampLine.seen.verb? = some (cstr "lamp") := by decide
  refine ⟨by decide, by decide, fun h => ?_, fun h => ?_, by decide⟩
  · have hring : cstr "lamp" ≠ cstr "ring" := by decide
    exact hring (Option.some.inj (hverb.symm.trans h.1))
  · have hon : lampLine.seen.switch? "on" = some true := by decide
    have hoff : lampLine.seen.switch? "on" = some false := by
      rw [FlatObject.switch?, h.2]
      rfl
    rw [hon] at hoff
    cases hoff

/-- The line in two pieces, with a press of the button around the seam. -/
def lampServed : List MockEvent :=
  [.press 3, .recv ((lineStream [lampLine]).take 10), .press 4,
    .recv ((lineStream [lampLine]).drop 10)]

def lampRead : List MainEvent :=
  [.sample (fun _ => false) 0, .read [], .flush, .poll true, .sample (fun _ => false) 1,
    .read (lineStream [lampLine])] ++ List.replicate 26 .byte ++ [.flush]

/-- Both light the lamp. -/
theorem mock_stands_in_lamp : ∃ m t,
    Run (MockStep fun _ _ => false) (.accept .reset) lampServed m ∧
      Run MainStep firstClient lampRead t ∧ m.st.Shows t.app.settings := by
  obtain ⟨t, q, htop⟩ := @MainLoop.run_to_top firstClient lampRead (by decide)
  have hstart : PanelState.reset.Shows firstClient.app.settings := by
    refine ⟨fun i => ?_, rfl, rfl⟩
    match i with
    | 0 => rfl
    | 1 => rfl
  have hstays : seesConnect firstClient.peerWasConnected lampRead = false := by decide
  have hserved : bytesServed lampServed = lineStream [lampLine] := by decide
  have hread : bytesRead lampRead = lineStream [lampLine] := by decide
  have hsendable : ∀ l ∈ [lampLine], l.Sendable := fun l hl => by
    rw [List.mem_singleton.mp hl]
    exact lampLine_sendable
  cases hm : lampServed.foldlM (MockClient.next fun _ _ => false) (.accept .reset) with
  | none =>
    have hsome : (lampServed.foldlM (MockClient.next fun _ _ => false)
        (.accept .reset)).isSome = true := by decide
    rw [hm] at hsome
    cases hsome
  | some m =>
    obtain ⟨ws, -, -, hshows, -⟩ := mock_stands_in hsendable hstart (Run.of_foldlM hm)
      (hserved ▸ List.prefix_rfl) (Or.inl hserved) q firstClient_out rfl rfl hstays
      (hread ▸ List.prefix_rfl) (Or.inl ⟨hread, htop⟩)
    exact ⟨m, t, Run.of_foldlM hm, q, hshows⟩

end EthPanel
