import EthPanel.Host.MockServer
import EthPanel.System.Truncated

/-!
# The mock server against the firmware

The server in the place of the device: `process` does what the whole object asks for, `dispatch`
what the members ask for that `find_key` can see, and that with the two exceptions of
`App/Validation.lean`. They answer alike just where none of this makes a difference
(`process_mirrors`).
-/

namespace EthPanel

open Json (Text)

/-- The same ack or err, or a hello in both. -/
def SameReply (reply : Text) : ProtoEvent → Prop
  | .hello .. => ∃ st, reply = fmtHello st
  | e => reply = codes e.text

/-- **The server answers a line like the device**, and has the same settings again. -/
def Mirrors (floatEq : Text → ℤ → Bool) (l : JsonLine) : Prop :=
  ∀ (a : App) (st : PanelState), st.Shows a.settings →
    (∃ e, (dispatch a l.line).2 = [e] ∧
      SameReply (process floatEq st (asciiDecode l.text)).2.1 e) ∧
    (process floatEq st (asciiDecode l.text)).1.Shows (dispatch a l.line).1.settings

/-- The device takes the line for what it is. -/
def JsonLine.TakenRight (l : JsonLine) : Prop :=
  ¬ l.seen.RingSentinel ∧ ¬ l.seen.LampNegZero ∧ l.seen.request = l.all.request

/-! ## Runs -/

/-- The device's lines in one session: an ota is the last that it answers. -/
def panelSession (a : App) : List CString → App × List ProtoEvent
  | [] => (a, [])
  | line :: lines =>
    if (dispatch a line).1.rebooting then dispatch a line
    else ((panelSession (dispatch a line).1 lines).1,
      (dispatch a line).2 ++ (panelSession (dispatch a line).1 lines).2)

/-- The lines that `serve_client` gives to `process` in one session. -/
def mockSession (floatEq : Text → ℤ → Bool) (st : PanelState) : List Text → PanelState × List Text
  | [] => (st, [])
  | line :: lines =>
    if (process floatEq st line).2.2 then
      ((process floatEq st line).1, [(process floatEq st line).2.1])
    else ((mockSession floatEq (process floatEq st line).1 lines).1,
      (process floatEq st line).2.1 :: (mockSession floatEq (process floatEq st line).1 lines).2)

/-! ## Replies -/

theorem codes_ack (cmd : String) : codes (ProtoEvent.ack cmd).text = fmtAck cmd := by
  unfold ProtoEvent.text
  rw [codes_append, codes_append]
  rfl

theorem codes_err (msg : String) : codes (ProtoEvent.err msg).text = fmtErr msg := by
  unfold ProtoEvent.text
  rw [codes_append, codes_append]
  rfl

theorem sameReply_answer (a : App) (st : PanelState) (w : Answer) :
    SameReply (w.line st) (w.event a) := by
  cases w with
  | ack cmd => exact (codes_ack cmd).symm
  | err msg => exact (codes_err msg).symm
  | hello => exact ⟨st, rfl⟩

/-- The answers other than a hello. -/
def plainAnswers : List Answer :=
  [.err "no cmd", .err "bad ring cmd", .ack "ring", .err "bad lamp cmd", .ack "lamp",
    .err "bad debounce_ms", .ack "config", .ack "ping", .ack "ota", .err "unknown cmd"]

theorem answer_mem (q : Request) : q.answer ∈ plainAnswers ∨ q.answer = .hello := by
  cases q <;> simp [Request.answer, plainAnswers]

theorem line_plain {w : Answer} (hw : w ∈ plainAnswers) (st : PanelState) :
    w.line st = w.line .reset := by
  cases w with
  | ack cmd => rfl
  | err msg => rfl
  | hello => exact absurd hw (by decide)

theorem line_ne_hello {w : Answer} (hw : w ∈ plainAnswers) (st st' : PanelState) :
    w.line st ≠ fmtHello st' := by
  -- The letter that the tag begins with tells them apart.
  have hhello : (fmtHello st').take 7 = Json.text "\x7b\"t\":\"h" := by
    rw [fmtHello, List.append_assoc, List.take_append_of_le_length (by decide)]
    decide
  have hplain : ∀ w ∈ plainAnswers, (w.line .reset).take 7 ≠ Json.text "\x7b\"t\":\"h" := by
    decide
  intro h
  refine hplain w hw ?_
  rw [← line_plain hw st, h, hhello]

/-- **Different answers are different lines.** -/
theorem answer_eq_of_sameReply {a : App} {st : PanelState} {q q' : Request}
    (h : SameReply (q'.answer.line st) (q.answer.event a)) : q.answer = q'.answer := by
  have hinj : ∀ w ∈ plainAnswers, ∀ w' ∈ plainAnswers, w.line .reset = w'.line .reset → w = w' := by
    decide
  rcases answer_mem q with hq | hq
  · have hline : q'.answer.line st = q.answer.line st := by
      cases hw : q.answer with
      | ack cmd =>
        rw [hw] at h
        exact h.trans (codes_ack cmd)
      | err msg =>
        rw [hw] at h
        exact h.trans (codes_err msg)
      | hello =>
        rw [hw] at hq
        exact absurd hq (by decide)
    rcases answer_mem q' with hq' | hq'
    · rw [line_plain hq, line_plain hq'] at hline
      exact hinj _ hq _ hq' hline.symm
    · rw [hq'] at hline
      exact absurd hline.symm (line_ne_hello hq st st)
  · rw [hq] at h ⊢
    obtain ⟨st', hst'⟩ := h
    rcases answer_mem q' with hq' | hq'
    · exact absurd hst' (line_ne_hello hq' st st')
    · exact hq'.symm

/-! ## Requests that no state tells apart -/

theorem getD_inj {x y : Option UInt8} (h : ∀ c, x.getD c = y.getD c) : x = y := by
  cases x with
  | none =>
    cases y with
    | none => rfl
    | some v =>
      have hzero : (0 : UInt8) = v := h 0
      have hone : (1 : UInt8) = v := h 1
      rw [← hzero] at hone
      cases hone
  | some u =>
    cases y with
    | none =>
      have hzero : u = (0 : UInt8) := h 0
      have hone : u = (1 : UInt8) := h 1
      rw [hzero] at hone
      cases hone
    | some v => rw [show u = v from h 0]

theorem perform_ring_inj {i : Ring} {r g b w r' g' b' w' : Option UInt8}
    (h : ∀ s, (Request.ring i r g b w).perform s = (Request.ring i r' g' b' w').perform s) :
    Request.ring i r g b w = .ring i r' g' b' w' := by
  have hring : ∀ c : UInt8, RingState.mk (r.getD c) (g.getD c) (b.getD c) (w.getD c) =
      ⟨r'.getD c, g'.getD c, b'.getD c, w'.getD c⟩ := by
    intro c
    have hs := congrArg (fun s => s.rings i) (h ⟨fun _ => ⟨c, c, c, c⟩, false, 0⟩)
    simpa only [Request.perform, Function.update_self] using hs
  have hr := getD_inj fun c => congrArg RingState.r (hring c)
  have hg := getD_inj fun c => congrArg RingState.g (hring c)
  have hb := getD_inj fun c => congrArg RingState.b (hring c)
  have hw := getD_inj fun c => congrArg RingState.brightness (hring c)
  rw [hr, hg, hb, hw]

theorem request_eq {q q' : Request} (hanswer : q.answer = q'.answer)
    (hring : ∀ i r g b w i' r' g' b' w', q = .ring i r g b w → q' = .ring i' r' g' b' w' → i = i')
    (hperform : ∀ s, q.perform s = q'.perform s) : q = q' := by
  cases q <;> cases q' <;> first | rfl | simp [Request.answer] at hanswer
  case ring.ring i r g b w i' r' g' b' w' =>
    obtain rfl := hring _ _ _ _ _ _ _ _ _ _ rfl rfl
    exact perform_ring_inj hperform
  case lamp.lamp on on' =>
    have hon : on = on' := congrArg Settings.lamp (hperform ⟨fun _ => .off, false, 0⟩)
    rw [hon]
  case config.config ms ms' =>
    have hms : ms = ms' := congrArg Settings.debounceMs (hperform ⟨fun _ => .off, false, 0⟩)
    rw [hms]

theorem forRing_of_request {o : FlatObject} {i : Ring} {r g b w : Option UInt8}
    (h : o.request = .ring i r g b w) : o.ForRing i := by
  unfold FlatObject.request at h
  cases hverb : o.verb? with
  | none =>
    rw [hverb] at h
    cases h
  | some verb =>
    rw [hverb] at h
    dsimp only at h
    rcases CmdType.named_cases verb with ⟨_, htype⟩ | ⟨_, htype⟩ | ⟨_, htype⟩ | ⟨_, htype⟩ |
      ⟨_, htype⟩ | ⟨_, htype⟩ | ⟨_, htype⟩
    · rw [htype] at h
      rcases ringRequest_cases o with ⟨_, heq⟩ | ⟨j, _, _, _, _, _, hj, heq, _⟩
      · rw [show o.ringRequest = _ from h] at heq
        cases heq
      · rw [show o.ringRequest = _ from h] at heq
        cases heq
        exact hj
    · rw [htype] at h
      dsimp only at h
      unfold FlatObject.lampRequest at h
      split at h <;> cases h
    · rw [htype] at h
      dsimp only at h
      unfold FlatObject.configRequest at h
      split at h
      · split at h <;> cases h
      · cases h
    all_goals
      rw [htype] at h
      cases h

/-! ## One line -/

section Line

variable {l : JsonLine}

theorem dispatch_line (a : App) (l : JsonLine) : dispatch a l.line = dispatch a l.seen.line :=
  dispatch_congr a (protoParse_line l)

/-- A member that is seen is the one that counts. -/
theorem get?_seen (l : JsonLine) (key : List UInt8) :
    l.seen.get? key = none ∨ l.all.get? key = l.seen.get? key := by
  cases hget : l.seen.get? key with
  | none => exact Or.inl rfl
  | some w => exact Or.inr (JsonLine.get?_of_seen hget)

theorem int?_of_seen {key : String} {v : ℤ} (h : l.seen.int? key = some v) :
    l.all.int? key = some v := by
  unfold FlatObject.int? at h ⊢
  rcases get?_seen l (cstr key) with hnone | hsame
  · rw [hnone] at h
    cases h
  · rwa [hsame]

theorem verb?_of_seen {verb : List UInt8} (h : l.seen.verb? = some verb) :
    l.all.verb? = some verb := by
  unfold FlatObject.verb? at h ⊢
  rcases get?_seen l (cstr "cmd") with hnone | hsame
  · rw [hnone] at h
    cases h
  · rwa [hsame]

/-- A channel of `-1` is refused by the server. -/
theorem request_of_sentinel (h : l.seen.RingSentinel) : l.all.request = .badRing := by
  obtain ⟨hverb, _, _, key, hkey, hminus⟩ := h
  have hnot : ¬ l.all.RingOk := fun hok =>
    absurd (hok.2 key hkey (-1) (int?_of_seen hminus)).1 (by decide)
  have hrequest : l.all.request = l.all.ringRequest := by
    rw [FlatObject.request, verb?_of_seen hverb]
    dsimp only
    rw [show CmdType.named (cstr "ring") = .ring by decide]
  rcases ringRequest_cases l.all with ⟨_, heq⟩ | ⟨_, _, _, _, _, hok, _⟩
  · rw [hrequest, heq]
  · exact absurd hok hnot

/-- A lamp switched to `-0` is off for the server. -/
theorem request_of_lampNegZero (h : l.seen.LampNegZero) : l.all.request = .lamp false := by
  have hoff : l.all.switch? "on" = some false := by
    rw [FlatObject.switch?, JsonLine.get?_of_seen h.2]
    rfl
  rw [FlatObject.request, verb?_of_seen h.1]
  dsimp only
  rw [show CmdType.named (cstr "lamp") = .lamp by decide]
  dsimp only
  rw [FlatObject.lampRequest, hoff]

/-- A device with the given settings, and a server with the same. -/
def App.with (s : Settings) : App :=
  { App.init fun _ => 0 with
    rings := { ringsInit ringNumLeds with st := s.rings }
    lamp := s.lamp
    debounceMs := s.debounceMs }

def PanelState.with (s : Settings) : PanelState :=
  ⟨fun i => (s.rings i).mock, s.lamp, s.debounceMs.toNat, fun _ => false⟩

theorem shows_with (s : Settings) : (PanelState.with s).Shows (App.with s).settings :=
  ⟨fun _ => rfl, rfl, rfl⟩

theorem PanelState.Shows.unique {st : PanelState} {s s' : Settings} (h : st.Shows s)
    (h' : st.Shows s') : s = s' := by
  have hbyte : ∀ {u v : UInt8}, (u.toNat : ℤ) = v.toNat → u = v :=
    fun heq => UInt8.toNat_inj.mp (Int.ofNat_inj.mp heq)
  have hrings : s.rings = s'.rings := by
    funext i
    have hi : (s.rings i).mock = (s'.rings i).mock := (h.rings i).symm.trans (h'.rings i)
    have hr := hbyte (congrArg MockRing.r hi)
    have hg := hbyte (congrArg MockRing.g hi)
    have hb := hbyte (congrArg MockRing.b hi)
    have hbrightness := hbyte (congrArg MockRing.brightness hi)
    rw [show s.rings i = ⟨_, _, _, _⟩ from rfl, hr, hg, hb, hbrightness]
  have hms : s.debounceMs = s'.debounceMs :=
    UInt16.toNat_inj.mp (Int.ofNat_inj.mp (h.debounceMs.symm.trans h'.debounceMs))
  obtain ⟨rings, lamp, ms⟩ := s
  obtain ⟨rings', lamp', ms'⟩ := s'
  obtain rfl : rings = rings' := hrings
  obtain rfl : lamp = lamp' := h.lamp.symm.trans h'.lamp
  obtain rfl : ms = ms' := hms
  rfl

variable (floatEq : Text → ℤ → Bool) (hlen : l.text.length ≤ 255)

include hlen

theorem mirrors_of_takenRight (h : l.TakenRight) : Mirrors floatEq l := by
  intro a st hst
  obtain ⟨hsentinel, hzero, hrequest⟩ := h
  obtain ⟨hreply, hsettings⟩ := dispatch_request a hsentinel hzero
  have hplays := process_request floatEq st hlen
  rw [dispatch_line a l, hplays.reply, hsettings, hrequest]
  rw [hrequest] at hreply
  exact ⟨⟨_, hreply, sameReply_answer a st _⟩, hplays.shows _ hst⟩

theorem takenRight_of_mirrors (h : Mirrors floatEq l) : l.TakenRight := by
  have hone : ∀ s, ∃ e, (dispatch (.with s) l.seen.line).2 = [e] ∧
      SameReply (l.all.request.answer.line (.with s)) e ∧
      (dispatch (.with s) l.seen.line).1.settings = l.all.request.perform s := by
    intro s
    have hplays := process_request floatEq (.with s) hlen
    obtain ⟨⟨e, hreply, hsame⟩, hshows⟩ := h (.with s) (.with s) (shows_with s)
    rw [dispatch_line] at hreply hshows
    rw [hplays.reply] at hsame
    exact ⟨e, hreply, hsame, hshows.unique (hplays.shows s (shows_with s))⟩
  have hdark : Settings := ⟨fun _ => .off, false, 0⟩
  have hsentinel : ¬ l.seen.RingSentinel := by
    intro hs
    obtain ⟨e, hreply, hsame, _⟩ := hone hdark
    rw [(acked_ring_iff hs.1 _).mpr ⟨hs.2.1, hs.2.2.1⟩] at hreply
    obtain rfl := List.singleton_inj.mp hreply
    rw [request_of_sentinel hs] at hsame
    have hne : fmtErr "bad ring cmd" ≠ fmtAck "ring" := by decide
    exact hne (hsame.trans (codes_ack "ring"))
  have hzero : ¬ l.seen.LampNegZero := by
    intro hz
    obtain ⟨e, hreply, hsame, _⟩ := hone hdark
    rw [dispatch_lampNegZero hz] at hreply
    obtain rfl := List.singleton_inj.mp hreply
    rw [request_of_lampNegZero hz] at hsame
    have hne : fmtAck "lamp" ≠ fmtErr "bad lamp cmd" := by decide
    exact hne (hsame.trans (codes_err "bad lamp cmd"))
  refine ⟨hsentinel, hzero, request_eq ?_ ?_ fun s => ?_⟩
  · obtain ⟨e, hreply, hsame, _⟩ := hone hdark
    rw [(dispatch_request _ hsentinel hzero).1] at hreply
    obtain rfl := List.singleton_inj.mp hreply
    exact answer_eq_of_sameReply hsame
  · intro i r g b w i' r' g' b' w' hseen hall
    have hi := int?_of_seen (forRing_of_request hseen)
    have hi' : l.all.int? "id" = some (i'.val + 1 : ℤ) := forRing_of_request hall
    rw [hi, Option.some.injEq] at hi'
    exact Fin.ext (by omega)
  · obtain ⟨e, _, _, hsettings⟩ := hone s
    rw [(dispatch_request _ hsentinel hzero).2] at hsettings
    exact hsettings

end Line

/-! ## A session -/

/-- Induction on the lines: each leaves the settings equal, and both sides stop at the same one. -/
theorem session_mirrors (floatEq : Text → ℤ → Bool) {ls : List JsonLine}
    (h : ∀ l ∈ ls, l.text.length ≤ 255 ∧ l.TakenRight) {a : App} {st : PanelState}
    (hst : st.Shows a.settings) (hup : a.rebooting = false) :
    List.Forall₂ SameReply
      (mockSession floatEq st (ls.map fun l => asciiDecode l.text)).2
      (panelSession a (ls.map JsonLine.line)).2 ∧
    (mockSession floatEq st (ls.map fun l => asciiDecode l.text)).1.Shows
      (panelSession a (ls.map JsonLine.line)).1.settings := by
  induction ls generalizing a st with
  | nil => exact ⟨.nil, hst⟩
  | cons l ls ih =>
    obtain ⟨hlen, hright⟩ := h l List.mem_cons_self
    obtain ⟨⟨e, hreply, hsame⟩, hshows⟩ := mirrors_of_takenRight floatEq hlen hright a st hst
    have hrequest := (dispatch_request a hright.1 hright.2.1).1
    rw [← dispatch_line, hright.2.2] at hrequest
    have hota : (process floatEq st (asciiDecode l.text)).2.2 = true ↔
        (dispatch a l.line).1.rebooting = true := by
      rw [(process_request floatEq st hlen).isOta, decide_eq_true_iff, rebooting_iff, hup, hrequest,
        List.singleton_inj, ota_of_answer]
      simp
    rw [List.map_cons, List.map_cons, mockSession, panelSession]
    by_cases hstop : (dispatch a l.line).1.rebooting = true
    · rw [if_pos hstop, if_pos (hota.mpr hstop), hreply]
      exact ⟨.cons hsame .nil, hshows⟩
    · rw [if_neg hstop, if_neg fun h => hstop (hota.mp h), hreply]
      obtain ⟨hrest, hfinal⟩ := ih (fun l' hl' => h l' (List.mem_cons_of_mem l hl')) hshows
        (by simpa using hstop)
      exact ⟨.cons hsame hrest, hfinal⟩

/-- **When the server mirrors the device**: on a line of at most 255 bytes from every pair of states
with equal settings, if and only if the line holds no `-1` that passes for an absent channel, does
not switch the lamp to `-0`, and has no carriage return or line feed beside a colon that hides
what the line asks for; and so in every session of such lines. -/
theorem process_mirrors (floatEq : Text → ℤ → Bool) :
    (∀ l : JsonLine, l.text.length ≤ 255 → (Mirrors floatEq l ↔ l.TakenRight)) ∧
    ∀ ls : List JsonLine, (∀ l ∈ ls, l.text.length ≤ 255 ∧ l.TakenRight) →
      ∀ (a : App) (st : PanelState), st.Shows a.settings → a.rebooting = false →
        List.Forall₂ SameReply
          (mockSession floatEq st (ls.map fun l => asciiDecode l.text)).2
          (panelSession a (ls.map JsonLine.line)).2 ∧
        (mockSession floatEq st (ls.map fun l => asciiDecode l.text)).1.Shows
          (panelSession a (ls.map JsonLine.line)).1.settings :=
  ⟨fun _ hlen => ⟨takenRight_of_mirrors floatEq hlen, mirrors_of_takenRight floatEq hlen⟩,
    fun _ h _ _ hst hup => session_mirrors floatEq h hst hup⟩

/-- Without white space. -/
def Member.loose (m : Member) : JsonMember :=
  ⟨Blanks.none.gap, m.key, Blanks.none.gap, Blanks.none.gap, m.value, Blanks.none.gap⟩

def FlatObject.loose (o : FlatObject) (ascii : ∀ m ∈ o.members.map Member.loose, m.Ascii) :
    JsonLine where
  lead := Blanks.none.gap
  inner := Blanks.none.gap
  trail := Blanks.none.gap
  members := o.members.map Member.loose
  distinct := by rw [List.map_map]; exact o.distinct
  ascii

/-- Ring 1, in red. -/
def ringRed : FlatObject := .tight
  [.tight .cmd (.str .ring),
    .tight .id (.int ⟨false, 1⟩),
    .tight .r (.int ⟨false, 255⟩)] (by decide +kernel)

def ringRedLine : JsonLine := ringRed.loose (by decide)

theorem ringRedLine_takenRight : ringRedLine.TakenRight := by
  have hverb : ringRedLine.seen.verb? = some (cstr "ring") := by decide
  refine ⟨?_, fun hzero => ?_, by decide⟩
  · rintro ⟨_, _, _, hminus⟩
    exact absurd hminus (by decide)
  · have hlamp : cstr "ring" ≠ cstr "lamp" := by decide
    exact hlamp (Option.some.inj (hverb.symm.trans hzero.1))

/-- Both make the ring red. -/
theorem process_mirrors_ring : Mirrors (fun _ _ => false) ringRedLine ∧
    (mockSession (fun _ _ => false) .reset [asciiDecode ringRedLine.text]).1.rings 0 =
      ⟨255, 0, 0, 255⟩ ∧
    ((panelSession (App.init fun _ => 0) [ringRedLine.line]).1.settings.rings 0).mock =
      ⟨255, 0, 0, 255⟩ := by
  obtain ⟨hone, hsession⟩ := process_mirrors fun _ _ => false
  have hlen : ringRedLine.text.length ≤ 255 := by decide
  have hstart : PanelState.reset.Shows (App.init fun _ => 0).settings :=
    ⟨by decide, rfl, rfl⟩
  have hred : (mockSession (fun _ _ => false) .reset [asciiDecode ringRedLine.text]).1.rings 0 =
      ⟨255, 0, 0, 255⟩ := by decide
  have hshows := (hsession [ringRedLine] (by simp [hlen, ringRedLine_takenRight])
    (App.init fun _ => 0) .reset hstart rfl).2
  exact ⟨(hone ringRedLine hlen).mpr ringRedLine_takenRight, hred,
    (hshows.rings 0).symm.trans hred⟩

/-- **The server refuses what the device acks**: a ring command with a channel of `-1`. -/
theorem mirrors_ringMinusOne : ¬ ∀ (floatEq : Text → ℤ → Bool) (l : JsonLine),
    l.text.length ≤ 255 → Mirrors floatEq l := by
  intro h
  let l := ringMinusOne.loose (by decide)
  have hlen : l.text.length ≤ 255 := by decide
  have hr : l.seen.int? "r" = some (-1) := by decide
  have hother : l.seen.int? "g" = none ∧ l.seen.int? "b" = none ∧
      l.seen.int? "brightness" = none := by
    decide
  have hsentinel : l.seen.RingSentinel := by
    refine ⟨by decide, ⟨0, by decide⟩, ?_, "r", by decide, hr⟩
    simp [FlatObject.channels, hr, hother]
  exact (takenRight_of_mirrors (fun _ _ => false) hlen (h _ l hlen)).1 hsentinel

end EthPanel
