import EthPanel.App.Buttons
import EthPanel.App.Protocol
import EthPanel.App.Rings

/-!
# `main.c`: `dispatch` and the lines it sends

`App` is what `main.c` keeps outside `main`, with the lamp output and the address that `net_init`
read. `dispatch` answers every line with exactly one line of its own (`dispatch_replies`), and
what it refuses changes nothing (`dispatch_err`).
-/

namespace EthPanel

structure App where
  rings : Rings
  buttons : Buttons
  debounceMs : UInt16
  lamp : Bool
  ip : Fin 4 → UInt8
  /-- `ota_request_update` has been called: it does not return. -/
  rebooting : Bool

/-- `FW_VERSION`. -/
def fwVersion : String := "1.0.3"

/-- `RING1_NUM_LEDS` and `RING2_NUM_LEDS`. -/
def ringNumLeds : Ring → UInt16 := fun _ => 16

/-- At power-on, with the address that `net_init` will find. -/
def App.init (ip : Fin 4 → UInt8) : App :=
  ⟨ringsInit ringNumLeds, buttonsInit 30, 30, false, ip, false⟩

/-- `RING_ORDER`. -/
def ringOrder : RingOrder := .grb

/-- `send_line` of an event formatted into a buffer of `n` bytes. -/
def sendLine (n : ℕ) (e : ProtoEvent) : List ProtoEvent := if (finish n e).isSome then [e] else []

def sendAck (cmd : String) : List ProtoEvent := sendLine 48 (.ack cmd)

def sendErr (msg : String) : List ProtoEvent := sendLine 80 (.err msg)

/-- The address, printed into `ip[16]`. -/
def ipText (ip : Fin 4 → UInt8) : List Char :=
  (decimal (ip 0).toNat ++ '.' :: (decimal (ip 1).toNat ++ '.' :: (decimal (ip 2).toNat ++
    '.' :: decimal (ip 3).toNat))).take 15

def sendHello (a : App) : List ProtoEvent :=
  sendLine 160
    (.hello fwVersion ringNumLeds (fun i => buttonsPressed a.buttons i.val) (ipText a.ip))

/-- `dispatch`: the application after it, and what it sends. -/
def dispatch (a : App) (line : CString) : App × List ProtoEvent :=
  match protoParse line.bytes with
  | (false, _) => (a, sendErr "no cmd")
  | (true, c) =>
    match c.type with
    | .ring =>
      -- `c.id - 1`, as an `int`.
      let set := ringsSet a.rings ((c.id - 1).bmod (2 ^ 32)) c.r c.g c.b c.brightness
      ({ a with rings := set.2 }, if set.1 then sendAck "ring" else sendErr "bad ring cmd")
    | .lamp =>
      if c.on = 0 ∨ c.on = 1 then ({ a with lamp := c.on = 1 }, sendAck "lamp")
      else (a, sendErr "bad lamp cmd")
    | .config =>
      if 1 ≤ c.debounceMs ∧ c.debounceMs ≤ 1000 then
        ({ a with
          debounceMs := UInt16.ofInt c.debounceMs
          buttons := buttonsSetDebounce a.buttons (UInt16.ofInt c.debounceMs) }, sendAck "config")
      else (a, sendErr "bad debounce_ms")
    | .ping => (a, sendAck "ping")
    | .hello => (a, sendHello a)
    | .ota => ({ a with rebooting := true }, sendAck "ota")
    | .none | .unknown => (a, sendErr "unknown cmd")

theorem dispatch_congr (a : App) {s t : CString} (h : protoParse s.bytes = protoParse t.bytes) :
    dispatch a s = dispatch a t := by
  rw [dispatch, dispatch, h]

/-! ## The lines fit their buffers -/

theorem sendLine_of_fits {n : ℕ} {e : ProtoEvent} (h : (utf8 e.text).length < n) :
    sendLine n e = [e] := by
  rw [sendLine, finish, if_neg (Nat.not_le.mpr h)]
  rfl

theorem length_utf8_le (s : List Char) : (utf8 s).length ≤ 4 * s.length := by
  induction s with
  | nil => exact Nat.le_refl 0
  | cons c s ih =>
    have hc := c.utf8Size_le_four
    rw [show utf8 (c :: s) = String.utf8EncodeChar c ++ utf8 s from rfl, List.length_append,
      String.length_utf8EncodeChar, List.length_cons]
    omega

theorem length_hello (fw : String) (nleds : Fin 2 → UInt16) (pressed : Fin 2 → Bool)
    (ip : List Char) : (utf8 (ProtoEvent.hello fw nleds pressed ip).text).length =
      (utf8 (ProtoEvent.hello fw nleds pressed []).text).length + (utf8 ip).length := by
  obtain ⟨before, after, htext⟩ : ∃ before after, ∀ ip,
      (ProtoEvent.hello fw nleds pressed ip).text = before ++ ip ++ after := ⟨_, _, fun _ => rfl⟩
  rw [htext ip, htext []]
  simp only [utf8_append, List.length_append, List.append_nil]
  omega

/-- Even with four bytes to each of the fifteen characters of the address there is room. -/
theorem sendHello_eq (a : App) : sendHello a =
    [.hello fwVersion ringNumLeds (fun i => buttonsPressed a.buttons i.val) (ipText a.ip)] := by
  have hip : (utf8 (ipText a.ip)).length ≤ 60 := by
    have hbytes := length_utf8_le (ipText a.ip)
    have hchars : (ipText a.ip).length ≤ 15 := by
      unfold ipText
      exact List.length_take_le 15 _
    omega
  have hrest : ∀ p q : Bool, (utf8 (ProtoEvent.hello fwVersion ringNumLeds
      (fun i => if i = 0 then p else q) []).text).length < 100 := by
    decide +kernel
  have hpressed : ∀ pressed : Fin 2 → Bool,
      (fun i => if i = 0 then pressed 0 else pressed 1) = pressed := by
    intro pressed
    funext i
    match i with
    | 0 => rfl
    | 1 => rfl
  have h := hrest (buttonsPressed a.buttons ((0 : Fin 2) : ℕ))
    (buttonsPressed a.buttons ((1 : Fin 2) : ℕ))
  rw [hpressed fun i => buttonsPressed a.buttons i.val] at h
  unfold sendHello
  refine sendLine_of_fits ?_
  rw [length_hello]
  omega

/-- What is acked, and what is refused with what. -/
def ackCmds : List String := ["ring", "lamp", "config", "ping", "ota"]

def errMsgs : List String :=
  ["no cmd", "bad ring cmd", "bad lamp cmd", "bad debounce_ms", "unknown cmd", "line too long"]

theorem sendAck_eq {cmd : String} (h : cmd ∈ ackCmds) : sendAck cmd = [.ack cmd] := by
  have hfits : ∀ cmd ∈ ackCmds, (utf8 (ProtoEvent.ack cmd).text).length < 48 := by decide +kernel
  exact sendLine_of_fits (hfits cmd h)

theorem sendErr_eq {msg : String} (h : msg ∈ errMsgs) : sendErr msg = [.err msg] := by
  have hfits : ∀ msg ∈ errMsgs, (utf8 (ProtoEvent.err msg).text).length < 80 := by decide +kernel
  exact sendLine_of_fits (hfits msg h)

/-! ## What a line can do -/

/-- The subtraction cannot make a ring of an `id` that is none. -/
theorem ringsSet_wrap {rs : Rings} {id : ℤ} (h : IsInt id) (r g b brightness : ℤ) :
    ringsSet rs ((id - 1).bmod (2 ^ 32)) r g b brightness =
      ringsSet rs (id - 1) r g b brightness := by
  have hout : ∀ idx : ℤ, ¬ (0 ≤ idx ∧ idx < ringCount) →
      ringsSet rs idx r g b brightness = (false, rs) := by
    intro idx hidx
    rw [ringsSet, dif_neg hidx]
  obtain ⟨hmin, hmax⟩ := h
  by_cases hwrap : id = -2 ^ 31
  · subst hwrap
    rw [hout _ (by decide), hout _ (by decide)]
  · congr 1
    exact Int.bmod_eq_of_le (by omega) (by omega)

/-- **What `dispatch` can do** with the command `c`, and what it sends then. -/
inductive Dispatched (a : App) (c : ProtoCmd) : App → ProtoEvent → Prop
  | err (msg : String) : Dispatched a c a (.err msg)
  | ring (htype : c.type = .ring)
      (hset : (ringsSet a.rings (c.id - 1) c.r c.g c.b c.brightness).1 = true) :
      Dispatched a c { a with rings := (ringsSet a.rings (c.id - 1) c.r c.g c.b c.brightness).2 }
        (.ack "ring")
  | lamp (htype : c.type = .lamp) (hon : c.on = 0 ∨ c.on = 1) :
      Dispatched a c { a with lamp := c.on = 1 } (.ack "lamp")
  | config (htype : c.type = .config) (hms : 1 ≤ c.debounceMs ∧ c.debounceMs ≤ 1000) :
      Dispatched a c { a with
        debounceMs := UInt16.ofInt c.debounceMs
        buttons := buttonsSetDebounce a.buttons (UInt16.ofInt c.debounceMs) } (.ack "config")
  | ping : Dispatched a c a (.ack "ping")
  | hello : Dispatched a c a (.hello fwVersion ringNumLeds
      (fun i => buttonsPressed a.buttons i.val) (ipText a.ip))
  | ota : Dispatched a c { a with rebooting := true } (.ack "ota")

section Parsed

variable {a : App} {line : CString} {c : ProtoCmd}

theorem dispatch_noCmd (h : (protoParse line.bytes).1 = false) :
    dispatch a line = (a, [.err "no cmd"]) := by
  unfold dispatch
  split
  · rw [sendErr_eq (by decide)]
  · rename_i heq
    rw [heq] at h
    cases h

theorem dispatch_ring (h : protoParse line.bytes = (true, c)) (htype : c.type = .ring) :
    dispatch a line =
      ({ a with rings := (ringsSet a.rings (c.id - 1) c.r c.g c.b c.brightness).2 },
      if (ringsSet a.rings (c.id - 1) c.r c.g c.b c.brightness).1
      then [.ack "ring"] else [.err "bad ring cmd"]) := by
  have hid : IsInt c.id := by
    have hid := protoParse_id_isInt line.bytes
    rwa [h] at hid
  simp only [dispatch, h, htype, ringsSet_wrap hid, sendAck_eq (show "ring" ∈ ackCmds by decide),
    sendErr_eq (show "bad ring cmd" ∈ errMsgs by decide)]

theorem dispatch_lamp (h : protoParse line.bytes = (true, c)) (htype : c.type = .lamp) :
    dispatch a line = if c.on = 0 ∨ c.on = 1 then ({ a with lamp := c.on = 1 }, [.ack "lamp"])
      else (a, [.err "bad lamp cmd"]) := by
  simp only [dispatch, h, htype, sendAck_eq (show "lamp" ∈ ackCmds by decide),
    sendErr_eq (show "bad lamp cmd" ∈ errMsgs by decide)]

theorem dispatch_config (h : protoParse line.bytes = (true, c)) (htype : c.type = .config) :
    dispatch a line = if 1 ≤ c.debounceMs ∧ c.debounceMs ≤ 1000 then
      ({ a with
        debounceMs := UInt16.ofInt c.debounceMs
        buttons := buttonsSetDebounce a.buttons (UInt16.ofInt c.debounceMs) }, [.ack "config"])
      else (a, [.err "bad debounce_ms"]) := by
  simp only [dispatch, h, htype, sendAck_eq (show "config" ∈ ackCmds by decide),
    sendErr_eq (show "bad debounce_ms" ∈ errMsgs by decide)]

end Parsed

/-- **Exactly one reply**, and nothing is done but what goes with it. -/
theorem dispatch_dispatched (a : App) (line : CString) : ∃ e, (dispatch a line).2 = [e] ∧
    Dispatched a (protoParse line.bytes).2 (dispatch a line).1 e := by
  cases hparse : protoParse line.bytes with
  | mk found c =>
    cases found with
    | false =>
      rw [dispatch_noCmd (by rw [hparse])]
      exact ⟨_, rfl, .err _⟩
    | true =>
      cases htype : c.type with
      | ring =>
        rw [dispatch_ring hparse htype]
        cases hset : (ringsSet a.rings (c.id - 1) c.r c.g c.b c.brightness).1 with
        | true => exact ⟨_, rfl, .ring htype hset⟩
        | false =>
          rw [ringsSet_false hset]
          exact ⟨_, rfl, .err _⟩
      | lamp =>
        rw [dispatch_lamp hparse htype]
        split
        · rename_i hon
          exact ⟨_, rfl, .lamp htype hon⟩
        · exact ⟨_, rfl, .err _⟩
      | config =>
        rw [dispatch_config hparse htype]
        split
        · rename_i hms
          exact ⟨_, rfl, .config htype hms⟩
        · exact ⟨_, rfl, .err _⟩
      | ping =>
        simp only [dispatch, hparse, htype, sendAck_eq (show "ping" ∈ ackCmds by decide)]
        exact ⟨_, rfl, .ping⟩
      | hello =>
        simp only [dispatch, hparse, htype, sendHello_eq]
        exact ⟨_, rfl, .hello⟩
      | ota =>
        simp only [dispatch, hparse, htype, sendAck_eq (show "ota" ∈ ackCmds by decide)]
        exact ⟨_, rfl, .ota⟩
      | none =>
        simp only [dispatch, hparse, htype, sendErr_eq (show "unknown cmd" ∈ errMsgs by decide)]
        exact ⟨_, rfl, .err _⟩
      | unknown =>
        simp only [dispatch, hparse, htype, sendErr_eq (show "unknown cmd" ∈ errMsgs by decide)]
        exact ⟨_, rfl, .err _⟩

end EthPanel
