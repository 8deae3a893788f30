import EthPanel.App.JsonLine
import EthPanel.App.Request
import EthPanel.Driver.ParseEvent

/-!
# `mock_panel_server.py`

`process` of one line, which stands in for the device in the driver's tests: `json.loads` and checks
of its own where the device searches the text. On a flat object it answers and does what the object
asks for (`process_request`), whatever white space is in the line.
-/

namespace EthPanel

open Json (Text)

/-! ## The server -/

/-- What is kept of a ring. -/
structure MockRing where
  r : ℤ
  g : ℤ
  b : ℤ
  brightness : ℤ
  deriving DecidableEq

/-- `PanelState`. -/
structure PanelState where
  rings : Ring → MockRing
  lamp : Bool
  debounceMs : ℤ
  pressed : Fin 2 → Bool

/-- `PanelState.reset`. -/
def PanelState.reset : PanelState := ⟨fun _ => ⟨0, 0, 0, 255⟩, false, 30, fun _ => false⟩

def fmtAck (cmd : String) : Text :=
  Json.text "\x7b\"t\":\"ack\",\"cmd\":\"" ++ Json.text cmd ++ Json.text "\"\x7d\n"

def fmtErr (msg : String) : Text :=
  Json.text "\x7b\"t\":\"err\",\"msg\":\"" ++ Json.text msg ++ Json.text "\"\x7d\n"

/-- `json.dumps` of a list of two switches, without blanks. -/
def dumpPressed (pressed : Fin 2 → Bool) : Text :=
  Json.text "[" ++ codes (boolText (pressed 0)) ++ Json.text "," ++ codes (boolText (pressed 1)) ++
    Json.text "]"

def fmtHello (st : PanelState) : Text :=
  Json.text "\x7b\"t\":\"hello\",\"fw\":\"mock\",\"buttons\":2,\"rings\":[16,16],\"pressed\":" ++
    dumpPressed st.pressed ++ Json.text ",\"ip\":\"127.0.0.1\"\x7d\n"

/-- `_as_int`. -/
def asInt : Option Json.Value → Option ℤ
  | some (.int v) => some v
  | _ => none

/-- `vals[k] = v` for the keys that are there, unless one of them is no byte. -/
def ringVals (get : String → Option Json.Value) : List String → Option (List (String × ℤ))
  | [] => some []
  | k :: ks =>
    match asInt (get k) with
    | none => ringVals get ks
    | some v => if 0 ≤ v ∧ v ≤ 255 then (ringVals get ks).map ((k, v) :: ·) else none

def MockRing.set (s : MockRing) (k : String) (v : ℤ) : MockRing :=
  if k = "r" then { s with r := v }
  else if k = "g" then { s with g := v }
  else if k = "b" then { s with b := v }
  else if k = "brightness" then { s with brightness := v }
  else s

/-- `dict.update`. -/
def MockRing.update (s : MockRing) (vals : List (String × ℤ)) : MockRing :=
  vals.foldl (fun s kv => s.set kv.1 kv.2) s

/-- The switch of a lamp command: `on in (0, 1)` compares by value, also a float. -/
def lampVal (floatEq : Text → ℤ → Bool) : Option Json.Value → Option Bool
  | some (.bool on) => some on
  | some (.int v) => if v = 0 ∨ v = 1 then some (v ≠ 0) else none
  | some (.float lit) =>
    if floatEq lit 0 || floatEq lit 1 then some (!floatEq lit 0) else none
  | _ => none

/-- `process` from the verb on: the state after it, the reply, and `is_ota`. -/
def processCmd (floatEq : Text → ℤ → Bool) (st : PanelState) (cmd : Text)
    (get : String → Option Json.Value) : PanelState × Text × Bool :=
  if cmd = Json.text "ring" then
    match asInt (get "id") with
    | none => (st, fmtErr "bad ring cmd", false)
    | some rid =>
      if h : 1 ≤ rid ∧ rid ≤ 2 then
        match ringVals get ["r", "g", "b", "brightness"] with
        | none => (st, fmtErr "bad ring cmd", false)
        | some vals =>
          let i : Fin 2 := ⟨(rid - 1).toNat, by omega⟩
          ({ st with rings := Function.update st.rings i ((st.rings i).update vals) },
            fmtAck "ring", false)
      else (st, fmtErr "bad ring cmd", false)
  else if cmd = Json.text "lamp" then
    match lampVal floatEq (get "on") with
    | some on => ({ st with lamp := on }, fmtAck "lamp", false)
    | none => (st, fmtErr "bad lamp cmd", false)
  else if cmd = Json.text "config" then
    match asInt (get "debounce_ms") with
    | none => (st, fmtErr "bad debounce_ms", false)
    | some d =>
      if 1 ≤ d ∧ d ≤ 1000 then ({ st with debounceMs := d }, fmtAck "config", false)
      else (st, fmtErr "bad debounce_ms", false)
  else if cmd = Json.text "ping" then (st, fmtAck "ping", false)
  else if cmd = Json.text "hello" then (st, fmtHello st, false)
  else if cmd = Json.text "ota" then (st, fmtAck "ota", true)
  else (st, fmtErr "unknown cmd", false)

/-- `process`. `floatEq` is Python's `==` of what a literal is read as and an integer. -/
def process (floatEq : Text → ℤ → Bool) (st : PanelState) (line : Text) :
    PanelState × Text × Bool :=
  if line.length > 255 then (st, fmtErr "line too long", false)
  else
    match Json.loads line with
    | some (.obj obj) =>
      match Json.get? obj (Json.text "cmd") with
      | some (.str cmd) => processCmd floatEq st cmd fun key => Json.get? obj (Json.text key)
      | _ => (st, fmtErr "no cmd", false)
    | _ => (st, fmtErr "no cmd", false)

/-! ## The object in a line -/

def Scalar.json : Scalar → Json.Value
  | .int n => .int n.value
  | .str s => .str (asciiDecode s.bytes)
  | .bool b => .bool b
  | .null => .null

def JsonMember.json (m : JsonMember) : Text × Json.Value := (asciiDecode m.key.bytes, m.value.json)

theorem asciiDecode_append (s t : List UInt8) :
    asciiDecode (s ++ t) = asciiDecode s ++ asciiDecode t := List.map_append

theorem asciiDecode_cons (c : UInt8) (s : List UInt8) :
    asciiDecode (c :: s) = c.toNat :: asciiDecode s := rfl

theorem asciiDecode_inj {s t : List UInt8} : asciiDecode s = asciiDecode t ↔ s = t :=
  (List.map_injective_iff.mpr fun _ _ h => UInt8.toNat_inj.mp h).eq_iff

theorem Gap.ws (g : Gap) : Json.Ws (asciiDecode g.bytes) := by
  intro c hc
  obtain ⟨b, hb, rfl⟩ := List.mem_map.mp hc
  rcases g.space b hb with rfl | rfl | rfl | rfl <;> rfl

theorem PlainStr.jsonPlain {s : PlainStr} (h : s.Ascii) : Json.Plain (asciiDecode s.bytes) := by
  intro c hc
  obtain ⟨b, hb, rfl⟩ := List.mem_map.mp hc
  obtain ⟨hquote, hback, _⟩ := s.plain b hb
  refine ⟨UInt8.le_iff_toNat_le.mp (h b hb).1, fun heq => hquote ?_, fun heq => hback ?_⟩
  · exact UInt8.toNat_inj.mp heq
  · exact UInt8.toNat_inj.mp heq

theorem asciiDecode_quoted (s : List UInt8) :
    asciiDecode (Search.quoted quote s) = Json.quoted (asciiDecode s) := by
  rw [Search.quoted, asciiDecode_cons, asciiDecode_append]
  rfl

theorem asciiDecode_intLit (n : IntLit) : asciiDecode n.text = Json.intText n.neg n.mag := by
  have hdigits : asciiDecode (utf8 (decimal n.mag)) = Json.digits n.mag := by
    refine asciiDecode_utf8 fun c hc => ?_
    have hdigit := Json.digits_isDigit n.mag c hc
    simp only [Json.isDigit, Bool.and_eq_true, decide_eq_true_eq] at hdigit
    omega
  rw [IntLit.text, asciiDecode_append, hdigits, Json.intText]
  cases n.neg <;> rfl

theorem Scalar.spells (v : Scalar) (h : v.Ascii) :
    Json.Spells (asciiDecode v.text) v.json := by
  cases v with
  | int n =>
    rw [Scalar.text, asciiDecode_intLit]
    exact Json.spells_int n.neg n.mag
  | str s =>
    rw [Scalar.text, asciiDecode_quoted]
    exact Json.spells_str (s.jsonPlain h)
  | bool b =>
    have htext : ∀ b,
        asciiDecode (Scalar.bool b).text = Json.text (if b then "true" else "false") := by
      decide
    rw [htext]
    exact Json.spells_bool b
  | null =>
    rw [show asciiDecode Scalar.null.text = Json.text "null" by decide]
    exact Json.spells_null

theorem JsonMember.padded {m : JsonMember} (h : m.Ascii) :
    Json.PaddedMember (asciiDecode m.text) m.json := by
  refine ⟨_, _, _, _, _, ?_, m.pre.ws, m.mid.ws, m.post.ws, m.tail.ws, m.key.jsonPlain h.1,
    m.value.spells h.2⟩
  simp only [JsonMember.text, asciiDecode_append, asciiDecode_cons, asciiDecode_quoted]
  rfl

/-- Induction on the members after the first. -/
theorem asciiDecode_later (trail : List UInt8) (ms : List JsonMember) :
    asciiDecode (laterText trail ms) =
      Json.moreText Json.closeBrace (ms.map fun m => asciiDecode m.text) ++ asciiDecode trail := by
  induction ms with
  | nil => rfl
  | cons m ms ih =>
    rw [laterText, asciiDecode_cons, asciiDecode_append, ih, List.map_cons, Json.moreText,
      List.cons_append, List.append_assoc]
    rfl

/-- **What Python reads in the line**: all of its members. -/
theorem loads_line (l : JsonLine) :
    Json.loads (asciiDecode l.text) = some (.obj (l.members.map JsonMember.json)) := by
  have hpadded : ∀ ms : List JsonMember, (∀ m ∈ ms, m.Ascii) →
      List.Forall₂ Json.PaddedMember (ms.map fun m => asciiDecode m.text)
        (ms.map JsonMember.json) := by
    intro ms h
    rw [List.forall₂_map_left_iff, List.forall₂_map_right_iff, List.forall₂_same]
    exact fun m hm => JsonMember.padded (h m hm)
  have hascii := l.ascii
  have hopen : openBrace.toNat = Json.openBrace := rfl
  have hclose : closeBrace.toNat = Json.closeBrace := rfl
  rw [JsonLine.text, asciiDecode_append, asciiDecode_cons, asciiDecode_append, hopen]
  cases hms : l.members with
  | nil =>
    have hspells := Json.loads_spells (Json.spells_empty l.inner.ws) l.lead.ws l.trail.ws
    rw [List.cons_append, List.append_assoc, List.singleton_append] at hspells
    rw [asciiDecode_cons, hclose]
    exact hspells
  | cons m ms =>
    rw [hms] at hascii
    -- The white space after the brace belongs to the first member.
    obtain ⟨a, mid, post, u, b, htext, ha, hmid, hpost, hb, hkey, hu⟩ :=
      JsonMember.padded (hascii m List.mem_cons_self)
    have hfirst : Json.PaddedMember (asciiDecode l.inner.bytes ++ asciiDecode m.text) m.json := by
      refine ⟨asciiDecode l.inner.bytes ++ a, mid, post, u, b, ?_, l.inner.ws.append ha, hmid,
        hpost, hb, hkey, hu⟩
      rw [htext, List.append_assoc]
    have hspells := Json.loads_spells
      (Json.spells_obj hfirst (hpadded ms fun m' hm' => hascii m' (List.mem_cons_of_mem m hm')))
      l.lead.ws l.trail.ws
    rw [List.cons_append, List.append_assoc, List.append_assoc] at hspells
    rw [asciiDecode_append, asciiDecode_later]
    exact hspells

/-- The keys of the object are those of the line. -/
theorem get?_line (l : JsonLine) (key : List UInt8) :
    Json.get? (l.members.map JsonMember.json) (asciiDecode key) =
      (l.all.get? key).map Scalar.json := by
  have hnd : ((l.members.map JsonMember.json).map Prod.fst).Nodup := by
    rw [List.map_map]
    have hcomp : Prod.fst ∘ JsonMember.json = asciiDecode ∘ fun m => m.key.bytes := rfl
    rw [hcomp, ← List.map_map]
    exact l.distinct.map fun _ _ h => asciiDecode_inj.mp h
  cases hget : l.all.get? key with
  | some v =>
    obtain ⟨m, hm, rfl, rfl⟩ := (FlatObject.get?_iff _ _ _).mp hget
    obtain ⟨m', hm', rfl⟩ := List.mem_map.mp hm
    exact Json.get?_of_mem hnd (List.mem_map_of_mem hm')
  | none =>
    rw [Option.map_none, Json.get?, Option.map_eq_none_iff, List.find?_eq_none]
    intro kv hkv hsame
    obtain ⟨m, hm, rfl⟩ := List.mem_map.mp (List.mem_reverse.mp hkv)
    have hdecoded : asciiDecode m.key.bytes = asciiDecode key := beq_iff_eq.mp hsame
    have hkey := asciiDecode_inj.mp hdecoded
    have hsome := (FlatObject.get?_iff l.all key m.value).mpr
      ⟨m.tight, List.mem_map_of_mem hm, hkey, rfl⟩
    rw [hget] at hsome
    cases hsome

/-! ## What the server does of it -/

def RingState.mock (s : RingState) : MockRing :=
  ⟨s.r.toNat, s.g.toNat, s.b.toNat, s.brightness.toNat⟩

/-- The server's values are these. -/
structure PanelState.Shows (st : PanelState) (s : Settings) : Prop where
  rings : ∀ i, st.rings i = (s.rings i).mock
  lamp : st.lamp = s.lamp
  debounceMs : st.debounceMs = s.debounceMs.toNat

/-- The server's line. -/
def Answer.line (st : PanelState) : Answer → Text
  | .ack cmd => fmtAck cmd
  | .err msg => fmtErr msg
  | .hello => fmtHello st

/-- The server replies to the request and does it. -/
structure Plays (st : PanelState) (q : Request) (done : PanelState × Text × Bool) : Prop where
  reply : done.2.1 = q.answer.line st
  isOta : done.2.2 = decide (q = .ota)
  shows : ∀ s, st.Shows s → done.1.Shows (q.perform s)

theorem toNat_ofInt8 {v : ℤ} (h : 0 ≤ v ∧ v ≤ 255) : ((UInt8.ofInt v).toNat : ℤ) = v := by
  rw [UInt8.ofInt, UInt8.toNat_ofNat']
  omega

theorem toNat_ofInt16 {v : ℤ} (h : 0 ≤ v ∧ v ≤ 1000) : ((UInt16.ofInt v).toNat : ℤ) = v := by
  rw [UInt16.ofInt, UInt16.toNat_ofNat']
  omega

section Object

variable {o : FlatObject} {get : String → Option Json.Value}

/-- The server's lookups are the object's. -/
def Looks (o : FlatObject) (get : String → Option Json.Value) : Prop :=
  ∀ key ∈ protoKeys, get key = (o.get? (cstr key)).map Scalar.json

theorem Looks.asInt (h : Looks o get) {key : String} (hkey : key ∈ protoKeys) :
    asInt (get key) = o.int? key := by
  rw [h key hkey, FlatObject.int?]
  cases o.get? (cstr key) with
  | none => rfl
  | some v => cases v <;> rfl

theorem Looks.lampVal (h : Looks o get) (floatEq : Text → ℤ → Bool) :
    lampVal floatEq (get "on") = o.switch? "on" := by
  rw [h "on" (by decide), FlatObject.switch?]
  cases o.get? (cstr "on") with
  | none => rfl
  | some v =>
    cases v with
    | int n =>
      simp only [Option.map_some, Scalar.json, EthPanel.lampVal]
      by_cases hone : n.value = 1
      · simp [hone]
      · by_cases hzero : n.value = 0
        · simp [hzero]
        · simp [hone, hzero]
    | str s => rfl
    | bool b => rfl
    | null => rfl

theorem Looks.ringVals_cons (h : Looks o get) {k : String} (hk : k ∈ protoKeys) (ks : List String) :
    ringVals get (k :: ks) = (o.byte? k).bind fun x => (ringVals get ks).map fun vals =>
      (x.map fun v => (k, (v.toNat : ℤ))).toList ++ vals := by
  rw [ringVals, h.asInt hk, FlatObject.byte?]
  cases o.int? k with
  | none => simp
  | some v =>
    dsimp only
    split
    · rename_i hv
      simp [toNat_ofInt8 hv]
    · rfl

theorem MockRing.update_channels (s : MockRing) (r g b brightness : Option UInt8) :
    s.update ((r.map fun v => ("r", (v.toNat : ℤ))).toList ++
      ((g.map fun v => ("g", (v.toNat : ℤ))).toList ++
        ((b.map fun v => ("b", (v.toNat : ℤ))).toList ++
          ((brightness.map fun v => ("brightness", (v.toNat : ℤ))).toList ++ [])))) =
      ⟨r.elim s.r fun v => v.toNat, g.elim s.g fun v => v.toNat, b.elim s.b fun v => v.toNat,
        brightness.elim s.brightness fun v => v.toNat⟩ := by
  cases r <;> cases g <;> cases b <;> cases brightness <;> simp [MockRing.update, MockRing.set]

/-- The four channels, as the object has them. -/
theorem Looks.ringVals (h : Looks o get) :
    ringVals get ["r", "g", "b", "brightness"] = (o.byte? "r").bind fun r =>
      (o.byte? "g").bind fun g => (o.byte? "b").bind fun b => (o.byte? "brightness").map fun w =>
        (r.map fun v => ("r", (v.toNat : ℤ))).toList ++
          ((g.map fun v => ("g", (v.toNat : ℤ))).toList ++
            ((b.map fun v => ("b", (v.toNat : ℤ))).toList ++
              ((w.map fun v => ("brightness", (v.toNat : ℤ))).toList ++ []))) := by
  rw [h.ringVals_cons (by decide), h.ringVals_cons (by decide), h.ringVals_cons (by decide),
    h.ringVals_cons (by decide), EthPanel.ringVals]
  cases o.byte? "r" <;> cases o.byte? "g" <;> cases o.byte? "b" <;> cases o.byte? "brightness" <;>
    rfl

theorem plays_err (st : PanelState) {q : Request} {msg : String} (hanswer : q.answer = .err msg)
    (hperform : ∀ s, q.perform s = s) : Plays st q (st, fmtErr msg, false) where
  reply := by rw [hanswer]; rfl
  isOta := by cases q <;> first | rfl | cases hanswer
  shows s hs := by rw [hperform]; exact hs

theorem plays_ring (h : Looks o get) (floatEq : Text → ℤ → Bool) (st : PanelState) :
    Plays st o.ringRequest (processCmd floatEq st (Json.text "ring") get) := by
  have hbad : Plays st .badRing (st, fmtErr "bad ring cmd", false) := plays_err st rfl fun _ => rfl
  rw [processCmd, if_pos rfl, h.asInt (by decide), h.ringVals]
  unfold FlatObject.ringRequest
  cases hring : o.ring? with
  | none =>
    unfold FlatObject.ring? at hring
    cases hid : o.int? "id" with
    | none => exact hbad
    | some v =>
      rw [hid] at hring
      have hv : ¬ (1 ≤ v ∧ v ≤ 2) := by
        intro hv
        dsimp only at hring
        split_ifs at hring
        omega
      simp only [dif_neg hv]
      exact hbad
  | some i =>
    have hid : o.int? "id" = some (i.val + 1 : ℤ) := (ring?_iff i).mp hring
    have hlt : i.val < 2 := i.2
    have hrange : 1 ≤ (i.val + 1 : ℤ) ∧ (i.val + 1 : ℤ) ≤ 2 := by omega
    have hindex : (⟨((i.val + 1 : ℤ) - 1).toNat, by omega⟩ : Fin 2) = i := by
      rw [Fin.ext_iff]
      show ((i.val + 1 : ℤ) - 1).toNat = i.val
      omega
    simp only [hid, dif_pos hrange]
    cases hr : o.byte? "r" with
    | none => exact hbad
    | some r =>
    cases hg : o.byte? "g" with
    | none => exact hbad
    | some g =>
    cases hb : o.byte? "b" with
    | none => exact hbad
    | some b =>
    cases hbrightness : o.byte? "brightness" with
    | none => exact hbad
    | some brightness =>
      simp only [Option.bind_some, Option.map_some, hindex, MockRing.update_channels]
      refine ⟨rfl, rfl, fun s hs => ⟨fun j => ?_, hs.lamp, hs.debounceMs⟩⟩
      show Function.update st.rings i _ j = (Function.update s.rings i _ j).mock
      by_cases hj : j = i
      · subst hj
        rw [Function.update_self, Function.update_self, hs.rings]
        cases r <;> cases g <;> cases b <;> cases brightness <;> rfl
      · rw [Function.update_of_ne hj, Function.update_of_ne hj]
        exact hs.rings j

theorem plays_lamp (h : Looks o get) (floatEq : Text → ℤ → Bool) (st : PanelState) :
    Plays st o.lampRequest (processCmd floatEq st (Json.text "lamp") get) := by
  rw [processCmd, if_neg (by decide), if_pos rfl, h.lampVal, FlatObject.lampRequest]
  cases o.switch? "on" with
  | none => exact plays_err st rfl fun _ => rfl
  | some on => exact ⟨rfl, rfl, fun s hs => ⟨hs.rings, rfl, hs.debounceMs⟩⟩

theorem plays_config (h : Looks o get) (floatEq : Text → ℤ → Bool) (st : PanelState) :
    Plays st o.configRequest (processCmd floatEq st (Json.text "config") get) := by
  have hbad : Plays st .badDebounce (st, fmtErr "bad debounce_ms", false) :=
    plays_err st rfl fun _ => rfl
  rw [processCmd, if_neg (by decide), if_neg (by decide), if_pos rfl,
    h.asInt (by decide), FlatObject.configRequest]
  cases o.int? "debounce_ms" with
  | none => exact hbad
  | some ms =>
    dsimp only
    split
    · rename_i hms
      have hvalue : ((UInt16.ofInt ms).toNat : ℤ) = ms := toNat_ofInt16 (by omega)
      exact ⟨rfl, rfl, fun s hs => ⟨hs.rings, hs.lamp, hvalue.symm⟩⟩
    · exact hbad

/-- The verb as the server compares it. -/
theorem plays_verb (h : Looks o get) (floatEq : Text → ℤ → Bool) (st : PanelState)
    {verb : List UInt8} (hverb : o.verb? = some verb) :
    Plays st o.request (processCmd floatEq st (asciiDecode verb) get) := by
  have hword : ∀ w ∈ verbs, asciiDecode (cstr w) = Json.text w := by decide
  unfold FlatObject.request
  rw [hverb]
  dsimp only
  rcases CmdType.named_cases verb with ⟨rfl, htype⟩ | ⟨rfl, htype⟩ | ⟨rfl, htype⟩ | ⟨rfl, htype⟩ |
    ⟨rfl, htype⟩ | ⟨rfl, htype⟩ | ⟨hother, htype⟩
  · rw [htype, hword "ring" (by decide)]
    exact plays_ring h floatEq st
  · rw [htype, hword "lamp" (by decide)]
    exact plays_lamp h floatEq st
  · rw [htype, hword "config" (by decide)]
    exact plays_config h floatEq st
  · rw [htype, hword "ping" (by decide), processCmd, if_neg (by decide),
      if_neg (by decide), if_neg (by decide), if_pos rfl]
    exact ⟨rfl, rfl, fun s hs => hs⟩
  · rw [htype, hword "ota" (by decide), processCmd, if_neg (by decide),
      if_neg (by decide), if_neg (by decide), if_neg (by decide),
      if_neg (by decide), if_pos rfl]
    exact ⟨rfl, rfl, fun s hs => hs⟩
  · rw [htype, hword "hello" (by decide), processCmd, if_neg (by decide),
      if_neg (by decide), if_neg (by decide), if_neg (by decide),
      if_pos rfl]
    exact ⟨rfl, rfl, fun s hs => hs⟩
  · have hne : ∀ w ∈ verbs, asciiDecode verb ≠ Json.text w := by
      intro w hw
      rw [← hword w hw, Ne, asciiDecode_inj]
      exact hother w hw
    rw [htype, processCmd, if_neg (hne "ring" (by decide)), if_neg (hne "lamp" (by decide)),
      if_neg (hne "config" (by decide)), if_neg (hne "ping" (by decide)),
      if_neg (hne "hello" (by decide)), if_neg (hne "ota" (by decide))]
    exact plays_err st rfl fun _ => rfl

end Object

/-- **The server does what the object asks for**, all of it. -/
theorem process_request (floatEq : Text → ℤ → Bool) (st : PanelState) {l : JsonLine}
    (hlen : l.text.length ≤ 255) :
    Plays st l.all.request (process floatEq st (asciiDecode l.text)) := by
  have hshort : ¬ (asciiDecode l.text).length > 255 := by
    rw [asciiDecode, List.length_map]
    omega
  have hlooks : Looks l.all fun key =>
      Json.get? (l.members.map JsonMember.json) (Json.text key) := by
    have hword : ∀ key ∈ protoKeys, asciiDecode (cstr key) = Json.text key := by decide
    intro key hkey
    dsimp only
    rw [← hword key hkey, get?_line]
  have hcmd := hlooks "cmd" (by decide)
  dsimp only at hcmd
  rw [process, if_neg hshort, loads_line]
  dsimp only
  rw [hcmd]
  have hnone : l.all.verb? = none → Plays st l.all.request (st, fmtErr "no cmd", false) := by
    intro h
    rw [FlatObject.request, h]
    exact plays_err st rfl fun _ => rfl
  cases hget : l.all.get? (cstr "cmd") with
  | none => exact hnone (by rw [FlatObject.verb?, hget])
  | some v =>
    cases v with
    | str s => exact plays_verb hlooks floatEq st (by rw [FlatObject.verb?, hget])
    | int n => exact hnone (by rw [FlatObject.verb?, hget])
    | bool b => exact hnone (by rw [FlatObject.verb?, hget])
    | null => exact hnone (by rw [FlatObject.verb?, hget])

end EthPanel
