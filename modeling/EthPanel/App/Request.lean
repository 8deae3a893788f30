import EthPanel.App.Validation
import EthPanel.Lib.Terminated

/-!
# What an object asks for

`Request` is the meaning of a flat object by the protocol, and `Settings` what a request can change:
the colours, the lamp and the debounce window. `dispatch` answers and does what the object asks for
(`dispatch_request`), with the two exceptions of `App/Validation.lean`.
-/

namespace EthPanel

/-- What the commands set. -/
structure Settings where
  rings : Ring → RingState
  lamp : Bool
  debounceMs : UInt16

def App.settings (a : App) : Settings := ⟨a.rings.st, a.lamp, a.debounceMs⟩

inductive Request
  | noCmd
  | badRing
  | ring (i : Ring) (r g b brightness : Option UInt8)
  | badLamp
  | lamp (on : Bool)
  | badDebounce
  | config (ms : UInt16)
  | ping
  | hello
  | ota
  | unknown
  deriving DecidableEq

/-- What is replied. -/
inductive Answer
  | ack (cmd : String)
  | err (msg : String)
  | hello
  deriving DecidableEq

namespace Request

def answer : Request → Answer
  | .noCmd => .err "no cmd"
  | .badRing => .err "bad ring cmd"
  | .ring .. => .ack "ring"
  | .badLamp => .err "bad lamp cmd"
  | .lamp _ => .ack "lamp"
  | .badDebounce => .err "bad debounce_ms"
  | .config _ => .ack "config"
  | .ping => .ack "ping"
  | .hello => .hello
  | .ota => .ack "ota"
  | .unknown => .err "unknown cmd"

def perform : Request → Settings → Settings
  | .ring i r g b brightness, s =>
    { s with rings := Function.update s.rings i ⟨r.getD (s.rings i).r, g.getD (s.rings i).g,
      b.getD (s.rings i).b, brightness.getD (s.rings i).brightness⟩ }
  | .lamp on, s => { s with lamp := on }
  | .config ms, s => { s with debounceMs := ms }
  | _, s => s

end Request

/-- The device's line. -/
def Answer.event (a : App) : Answer → ProtoEvent
  | .ack cmd => .ack cmd
  | .err msg => .err msg
  | .hello => .hello fwVersion ringNumLeds (fun i => buttonsPressed a.buttons i.val) (ipText a.ip)

namespace FlatObject

/-- The ring that a ring command is for. -/
def ring? (o : FlatObject) : Option Ring :=
  match o.int? "id" with
  | some v => if v = 1 then some 0 else if v = 2 then some 1 else none
  | none => none

/-- A channel: a byte, or absent, or neither. -/
def byte? (o : FlatObject) (key : String) : Option (Option UInt8) :=
  match o.int? key with
  | some v => if 0 ≤ v ∧ v ≤ 255 then some (some (.ofInt v)) else none
  | none => some none

def ringRequest (o : FlatObject) : Request :=
  match o.ring?, o.byte? "r", o.byte? "g", o.byte? "b", o.byte? "brightness" with
  | some i, some r, some g, some b, some brightness => .ring i r g b brightness
  | _, _, _, _, _ => .badRing

def lampRequest (o : FlatObject) : Request :=
  match o.switch? "on" with
  | some on => .lamp on
  | none => .badLamp

def configRequest (o : FlatObject) : Request :=
  match o.int? "debounce_ms" with
  | some ms => if 1 ≤ ms ∧ ms ≤ 1000 then .config (.ofInt ms) else .badDebounce
  | none => .badDebounce

/-- What the object asks for. -/
def request (o : FlatObject) : Request :=
  match o.verb? with
  | none => .noCmd
  | some verb =>
    match CmdType.named verb with
    | .ring => o.ringRequest
    | .lamp => o.lampRequest
    | .config => o.configRequest
    | .ping => .ping
    | .hello => .hello
    | .ota => .ota
    | .none | .unknown => .unknown

end FlatObject

/-- All of them, one after the other. -/
def performAll (s : Settings) (qs : List Request) : Settings := qs.foldl (fun s q => q.perform s) s

/-- The requests that are heeded: an ota is the last. -/
def upToOta (qs : List Request) : List Request := Terminated.through (fun q => q = .ota) qs

theorem any_ota (qs : List Request) : (qs.any fun q => q = .ota) = decide (Request.ota ∈ qs) := by
  rw [Bool.eq_iff_iff]
  simp

theorem ota_mem_upToOta (qs : List Request) : Request.ota ∈ upToOta qs ↔ Request.ota ∈ qs :=
  ⟨fun h => (Terminated.prefix_through _ qs).subset h,
    fun h => Terminated.mem_through_of_mem h fun _ _ hq => of_decide_eq_true hq⟩

theorem upToOta_cons (q : Request) (qs : List Request) :
    upToOta (q :: qs) = if q = .ota then [q] else q :: upToOta qs := by
  simp only [upToOta, Terminated.through, decide_eq_true_eq]

theorem upToOta_append (qs qs' : List Request) : upToOta (qs ++ qs') =
    if Request.ota ∈ qs then upToOta qs else qs ++ upToOta qs' := by
  rw [upToOta, Terminated.through_append, any_ota]
  simp only [decide_eq_true_eq, upToOta]

theorem upToOta_eq {qs : List Request} (h : Request.ota ∉ qs) : upToOta qs = qs :=
  Terminated.through_eq (by rw [any_ota, decide_eq_false h])

/-! ## Ring commands -/

section Ring

variable {o : FlatObject}

theorem ring?_iff (i : Ring) : o.ring? = some i ↔ o.ForRing i := by
  unfold FlatObject.ring? FlatObject.ForRing
  cases o.int? "id" with
  | none => simp
  | some v =>
    match i with
    | 0 =>
      dsimp only
      split_ifs with h₁ h₂
      · simp [h₁]
      · simp [h₂]
      · simp [h₁]
    | 1 =>
      dsimp only
      split_ifs with h₁ h₂
      · simp [h₁]
      · simp [h₂]
      · simp [h₂]

theorem byte?_some {key : String} {x : Option UInt8} (h : o.byte? key = some x) :
    (∀ v ∈ o.int? key, 0 ≤ v ∧ v ≤ 255) ∧ ∀ c, o.channel key c = x.getD c := by
  unfold FlatObject.byte? at h
  unfold FlatObject.channel
  cases hint : o.int? key with
  | none =>
    rw [hint] at h
    obtain rfl := Option.some.inj h
    exact ⟨(fun v hv => nomatch hv), fun _ => rfl⟩
  | some v =>
    rw [hint] at h
    dsimp only at h
    split at h
    · rename_i hv
      obtain rfl := Option.some.inj h
      exact ⟨fun w hw => Option.some.inj hw ▸ hv, fun _ => rfl⟩
    · cases h

theorem byte?_none {key : String} (h : o.byte? key = none) :
    ¬ ∀ v ∈ o.int? key, 0 ≤ v ∧ v ≤ 255 := by
  unfold FlatObject.byte? at h
  intro hrange
  cases hint : o.int? key with
  | none =>
    rw [hint] at h
    cases h
  | some v =>
    rw [hint] at h
    dsimp only at h
    rw [if_pos (hrange v hint)] at h
    cases h

/-- A ring command is valid or not, and so is what it asks for. -/
theorem ringRequest_cases (o : FlatObject) :
    (¬ o.RingOk ∧ o.ringRequest = .badRing) ∨
    ∃ i r g b brightness, o.RingOk ∧ o.ForRing i ∧ o.ringRequest = .ring i r g b brightness ∧
      ∀ s, o.recolour s = ⟨r.getD s.r, g.getD s.g, b.getD s.b, brightness.getD s.brightness⟩ := by
  have hbad : ∀ key ∈ FlatObject.channels, o.byte? key = none → ¬ o.RingOk :=
    fun key hkey hnone hok => byte?_none hnone (hok.2 key hkey)
  unfold FlatObject.ringRequest
  cases hring : o.ring? with
  | none =>
    refine Or.inl ⟨?_, rfl⟩
    rintro ⟨⟨i, hi⟩, _⟩
    rw [← ring?_iff, hring] at hi
    cases hi
  | some i =>
    cases hr : o.byte? "r" with
    | none => exact Or.inl ⟨hbad "r" (by decide) hr, rfl⟩
    | some r =>
    cases hg : o.byte? "g" with
    | none => exact Or.inl ⟨hbad "g" (by decide) hg, rfl⟩
    | some g =>
    cases hb : o.byte? "b" with
    | none => exact Or.inl ⟨hbad "b" (by decide) hb, rfl⟩
    | some b =>
    cases hbrightness : o.byte? "brightness" with
    | none => exact Or.inl ⟨hbad "brightness" (by decide) hbrightness, rfl⟩
    | some brightness =>
      have hi := (ring?_iff i).mp hring
      refine Or.inr ⟨i, r, g, b, brightness, ⟨⟨i, hi⟩, ?_⟩, hi, rfl, fun s => ?_⟩
      · simp only [FlatObject.channels, List.forall_mem_cons, List.not_mem_nil, false_imp_iff,
          implies_true, and_true]
        exact ⟨(byte?_some hr).1, (byte?_some hg).1, (byte?_some hb).1, (byte?_some hbrightness).1⟩
      · unfold FlatObject.recolour
        rw [(byte?_some hr).2, (byte?_some hg).2, (byte?_some hb).2, (byte?_some hbrightness).2]

end Ring

/-! ## What `dispatch` does of it -/

/-- What it replies, and what has become of the settings. -/
def Serves (a : App) (o : FlatObject) (q : Request) : Prop :=
  (dispatch a o.line).2 = [q.answer.event a] ∧ (dispatch a o.line).1.settings = q.perform a.settings

/-- The verbs of the protocol. -/
def verbs : List String := ["ring", "lamp", "config", "ping", "ota", "hello"]

theorem CmdType.named_cases (verb : List UInt8) :
    (verb = cstr "ring" ∧ CmdType.named verb = .ring) ∨
    (verb = cstr "lamp" ∧ CmdType.named verb = .lamp) ∨
    (verb = cstr "config" ∧ CmdType.named verb = .config) ∨
    (verb = cstr "ping" ∧ CmdType.named verb = .ping) ∨
    (verb = cstr "ota" ∧ CmdType.named verb = .ota) ∨
    (verb = cstr "hello" ∧ CmdType.named verb = .hello) ∨
    (∀ w ∈ verbs, verb ≠ cstr w) ∧ CmdType.named verb = .unknown := by
  unfold CmdType.named
  split_ifs with hring hlamp hconfig hping hota hhello
  · exact Or.inl ⟨hring, rfl⟩
  · exact Or.inr (Or.inl ⟨hlamp, rfl⟩)
  · exact Or.inr (Or.inr (Or.inl ⟨hconfig, rfl⟩))
  · exact Or.inr (Or.inr (Or.inr (Or.inl ⟨hping, rfl⟩)))
  · exact Or.inr (Or.inr (Or.inr (Or.inr (Or.inl ⟨hota, rfl⟩))))
  · exact Or.inr (Or.inr (Or.inr (Or.inr (Or.inr (Or.inl ⟨hhello, rfl⟩)))))
  · refine Or.inr (Or.inr (Or.inr (Or.inr (Or.inr (Or.inr ⟨?_, rfl⟩)))))
    simp only [verbs, List.forall_mem_cons, List.not_mem_nil, false_imp_iff, implies_true, and_true]
    exact ⟨hring, hlamp, hconfig, hping, hota, hhello⟩

section Verb

variable {o : FlatObject} (a : App)

theorem serves_ring (hverb : o.verb? = some (cstr "ring")) (hsentinel : ¬ o.RingSentinel) :
    Serves a o o.ringRequest := by
  have hacked := acked_iff_ringOk hverb hsentinel a
  rcases ringRequest_cases o with ⟨hbad, heq⟩ | ⟨i, r, g, b, brightness, hok, hi, heq, hrecolour⟩
  · rw [← hacked, dispatch_ring_object hverb] at hbad
    rw [heq, Serves, dispatch_ring_object hverb]
    cases hset : (ringsSet a.rings (o.intField "id" - 1) (o.intField "r") (o.intField "g")
        (o.intField "b") (o.intField "brightness")).1 with
    | true =>
      rw [hset] at hbad
      exact absurd rfl hbad
    | false =>
      rw [ringsSet_false hset]
      exact ⟨rfl, rfl⟩
  · obtain ⟨hframe, hrings⟩ := ring_recolours hverb hok a
    rw [heq, Serves, hacked.mpr hok]
    refine ⟨rfl, ?_⟩
    have hst : (dispatch a o.line).1.rings.st = Function.update a.rings.st i
        ⟨r.getD (a.rings.st i).r, g.getD (a.rings.st i).g, b.getD (a.rings.st i).b,
          brightness.getD (a.rings.st i).brightness⟩ := by
      funext j
      have hj := (hrings j).2
      by_cases hji : j = i
      · subst hji
        rw [if_pos hi] at hj
        rw [hj, hrecolour, Function.update_self]
      · have hnot : ¬ o.ForRing j := by
          intro h
          rw [← ring?_iff] at h hi
          exact hji (Option.some.inj (h.symm.trans hi))
        rw [if_neg hnot] at hj
        rw [hj.1, Function.update_of_ne hji]
    rw [hframe]
    show Settings.mk _ _ _ = Settings.mk _ _ _
    rw [hst]
    rfl

theorem serves_lamp (hverb : o.verb? = some (cstr "lamp")) (hzero : ¬ o.LampNegZero) :
    Serves a o o.lampRequest := by
  rw [Serves, dispatch_lamp_object hverb hzero, FlatObject.lampRequest]
  cases o.switch? "on" with
  | none => exact ⟨rfl, rfl⟩
  | some on => exact ⟨rfl, rfl⟩

theorem serves_config (hverb : o.verb? = some (cstr "config")) : Serves a o o.configRequest := by
  rw [Serves, dispatch_config_object hverb, FlatObject.configRequest]
  cases hint : o.int? "debounce_ms" with
  | none =>
    have hfield : o.intField "debounce_ms" = -1 := by rw [FlatObject.intField, hint]; rfl
    rw [hfield]
    exact ⟨rfl, rfl⟩
  | some ms =>
    by_cases hms : 1 ≤ ms ∧ ms ≤ 1000
    · have hfield := (intField_window_iff.mpr ⟨hint, hms⟩).1
      rw [hfield]
      simp only [if_pos hms]
      exact ⟨rfl, rfl⟩
    · have hfield : ¬ (1 ≤ o.intField "debounce_ms" ∧ o.intField "debounce_ms" ≤ 1000) := by
        intro h
        have hsome := (intField_window_iff.mp ⟨rfl, h⟩).1
        rw [hint, Option.some.injEq] at hsome
        exact hms (hsome ▸ h)
      simp only [if_neg hms, if_neg hfield]
      exact ⟨rfl, rfl⟩

end Verb

/-- **`dispatch` does what the object asks for.** -/
theorem dispatch_request (a : App) {o : FlatObject} (hsentinel : ¬ o.RingSentinel)
    (hzero : ¬ o.LampNegZero) : Serves a o o.request := by
  have hparse : protoParse o.line.bytes = o.command := (protoParse_text o).trans (if_neg hzero)
  unfold FlatObject.request
  cases hverb : o.verb? with
  | none =>
    have hnone : (protoParse o.line.bytes).1 = false := by rw [hparse, FlatObject.command, hverb]
    rw [Serves, dispatch_noCmd hnone]
    exact ⟨rfl, rfl⟩
  | some verb =>
    rw [FlatObject.command, hverb] at hparse
    dsimp only
    rcases CmdType.named_cases verb with ⟨hv, htype⟩ | ⟨hv, htype⟩ | ⟨hv, htype⟩ | ⟨_, htype⟩ |
      ⟨_, htype⟩ | ⟨_, htype⟩ | ⟨_, htype⟩
    · rw [htype]
      exact serves_ring a (by rw [hverb, hv]) hsentinel
    · rw [htype]
      exact serves_lamp a (by rw [hverb, hv]) hzero
    · rw [htype]
      exact serves_config a (by rw [hverb, hv])
    · simp only [Serves, dispatch, hparse, htype, FlatObject.fields,
        sendAck_eq (show "ping" ∈ ackCmds by decide)]
      exact ⟨rfl, rfl⟩
    · simp only [Serves, dispatch, hparse, htype, FlatObject.fields,
        sendAck_eq (show "ota" ∈ ackCmds by decide)]
      exact ⟨rfl, rfl⟩
    · simp only [Serves, dispatch, hparse, htype, FlatObject.fields, sendHello_eq]
      exact ⟨rfl, rfl⟩
    · simp only [Serves, dispatch, hparse, htype, FlatObject.fields,
        sendErr_eq (show "unknown cmd" ∈ errMsgs by decide)]
      exact ⟨rfl, rfl⟩

theorem rebooting_iff (a : App) (line : CString) : (dispatch a line).1.rebooting = true ↔
    a.rebooting = true ∨ (dispatch a line).2 = [.ack "ota"] := by
  obtain ⟨e, hreply, hdone⟩ := dispatch_dispatched a line
  rw [hreply]
  generalize (dispatch a line).1 = a' at hdone
  cases hdone <;> simp

theorem ota_of_answer {a : App} {q : Request} : q.answer.event a = .ack "ota" ↔ q = .ota := by
  cases q <;> simp [Request.answer, Answer.event]

end EthPanel
