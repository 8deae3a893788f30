import EthPanel.App.Lines
import EthPanel.App.Protocol
import EthPanel.Lib.Spells
import Mathlib.Data.List.DropRight

/-!
# `panel_protocol.py`, device to host

`parse_event` of a line, and the round trip: what the four formatters of `protocol.c` print is read
back with its fields (`protoFmt_parseEvent`), for arguments that need no escape.
-/

namespace EthPanel

open Json (Text)

/-! ## `parse_event` -/

/-- What of Python's floats and `repr` the parser can come across; no line of the device has any. -/
structure Builtins where
  /-- `str` of a float, a list or a dict. -/
  repr : Json.Value → Text
  /-- Whether what a literal with a fraction or an exponent stands for is zero. -/
  floatIsZero : Text → Bool

namespace Builtins

variable (py : Builtins)

/-- `str(v)`. -/
def str : Json.Value → Text
  | .str s => s
  | .int v => Json.intText (v < 0) v.natAbs
  | .bool b => Json.text (if b then "True" else "False")
  | .null => Json.text "None"
  | v => py.repr v

/-- `bool(v)`. -/
def bool : Json.Value → Bool
  | .null => false
  | .bool b => b
  | .int v => v ≠ 0
  | .float lit => !py.floatIsZero lit
  | .str s => s ≠ []
  | .arr vs => !vs.isEmpty
  | .obj ms => !ms.isEmpty

end Builtins

/-- `str.isspace` of one character. -/
def isPySpace (c : ℕ) : Bool :=
  0x09 ≤ c && c ≤ 0x0D || 0x1C ≤ c && c ≤ 0x20 || c == 0x85 || c == 0xA0 || c == 0x1680 ||
    0x2000 ≤ c && c ≤ 0x200A || c == 0x2028 || c == 0x2029 || c == 0x202F || c == 0x205F ||
    c == 0x3000

/-- `str.strip`. -/
def pyStrip (s : Text) : Text := (s.dropWhile isPySpace).rdropWhile isPySpace

/-- What `parse_event` returns; `None` in a field that can hold any value is `null`. -/
inductive HostEvent
  | btn (id : ℤ) (e : Text) (ms : Json.Value)
  | hello (fw : Option Text) (buttons : Json.Value) (rings : List Json.Value) (pressed : List Bool)
      (ip : Option Text)
  | ack (cmd : Option Text)
  | err (msg : Text)

/-- `ms if isinstance(ms, int) else None`: a `bool` is an `int`. -/
def msField : Option Json.Value → Json.Value
  | some (.int v) => .int v
  | some (.bool b) => .bool b
  | _ => .null

/-- A list, or an empty one for anything else. -/
def listField : Option Json.Value → List Json.Value
  | some (.arr vs) => vs
  | _ => []

/-- `str(v) if v is not None else None`. -/
def cmdField (py : Builtins) : Option Json.Value → Option Text
  | none | some .null => none
  | some v => some (py.str v)

/-- The event in an object, of which `get` is the lookup. -/
def eventOf (py : Builtins) (get : String → Option Json.Value) : Option HostEvent :=
  match get "t" with
  | some (.str t) =>
    if t = Json.text "btn" then
      match get "id", get "e" with
      | some (.int bid), some (.str edge) =>
        if edge = Json.text "down" ∨ edge = Json.text "up" then
          some (.btn bid edge (msField (get "ms")))
        else none
      | _, _ => none
    else if t = Json.text "hello" then
      some (.hello ((get "fw").map py.str) ((get "buttons").getD .null) (listField (get "rings"))
        ((listField (get "pressed")).map py.bool) ((get "ip").map py.str))
    else if t = Json.text "ack" then some (.ack (cmdField py (get "cmd")))
    else if t = Json.text "err" then some (.err (py.str ((get "msg").getD (.str []))))
    else none
  | _ => none

/-- `parse_event`. -/
def parseEvent (py : Builtins) (line : Text) : Option HostEvent :=
  if pyStrip line = [] then none
  else
    match Json.loads (pyStrip line) with
    | some (.obj obj) => eventOf py fun key => Json.get? obj (Json.text key)
    | _ => none

/-- `bytes.decode`, of ASCII. -/
def asciiDecode (bs : List UInt8) : Text := bs.map UInt8.toNat

/-! ## What the device means -/

def codes (s : List Char) : Text := s.map Char.toNat

/-- The event with its fields. -/
def ProtoEvent.received : ProtoEvent → HostEvent
  | .btn id pressed ms => .btn id (Json.text (if pressed then "down" else "up")) (.int ms.toNat)
  | .hello fw nleds pressed ip =>
    .hello (some (codes fw.toList)) (.int 2) [.int (nleds 0).toNat, .int (nleds 1).toNat]
      [pressed 0, pressed 1] (some (codes ip))
  | .ack cmd => .ack (some (codes cmd.toList))
  | .err msg => .err (codes msg.toList)

def Printable (c : Char) : Prop := 0x20 ≤ c.toNat ∧ c.toNat ≤ 0x7E

/-- Printable ASCII without quotes and backslashes. -/
def PlainText (s : List Char) : Prop := ∀ c ∈ s, Printable c ∧ c ≠ '"' ∧ c ≠ '\\'

instance (c : Char) : Decidable (Printable c) := inferInstanceAs (Decidable (_ ∧ _))

instance (s : List Char) : Decidable (PlainText s) := List.decidableBAll _ s

def ProtoEvent.PlainArgs : ProtoEvent → Prop
  | .btn .. => True
  | .hello fw _ _ ip => PlainText fw.toList ∧ PlainText ip
  | .ack cmd => PlainText cmd.toList
  | .err msg => PlainText msg.toList

/-- What `proto_fmt_btn`, `proto_fmt_hello`, `proto_fmt_ack` and `proto_fmt_err` return. -/
def protoFmt (n : ℕ) (e : ProtoEvent) : ℤ :=
  match finish n e with
  | some line => line.length
  | none => -1

/-! ## The lines are objects -/

/-- A member as the formatters print it. -/
structure EventField where
  key : String
  text : Text
  value : Json.Value

def EventField.member (f : EventField) : Text :=
  Json.quoted (Json.text f.key) ++ Json.colon :: f.text

/-- Printable ASCII. -/
def Visible (t : Text) : Prop := ∀ c ∈ t, 0x20 ≤ c ∧ c ≤ 0x7E

instance (t : Text) : Decidable (Visible t) := List.decidableBAll _ t

/-- A field that is read back. -/
structure EventField.Ok (f : EventField) : Prop where
  plain : Json.Plain (Json.text f.key)
  spells : Json.Spells f.text f.value
  visible : Visible f.member

/-- An object, the tag `t` first, and its text. -/
def objectOf (tag : Text) (fields : List EventField) : List (Text × Json.Value) :=
  (Json.text "t", .str tag) :: fields.map fun f => (Json.text f.key, f.value)

def objectText (tag : Text) (fields : List EventField) : Text :=
  Json.openBrace :: (EventField.member ⟨"t", Json.quoted tag, .str tag⟩ ++
    Json.moreText Json.closeBrace (fields.map EventField.member))

def strField (key : String) (s : List Char) : EventField :=
  ⟨key, Json.quoted (codes s), .str (codes s)⟩

def natField (key : String) (n : ℕ) : EventField := ⟨key, Json.digits n, .int n⟩

namespace ProtoEvent

def tag : ProtoEvent → String
  | .btn .. => "btn"
  | .hello .. => "hello"
  | .ack .. => "ack"
  | .err .. => "err"

def fields : ProtoEvent → List EventField
  | .btn id pressed ms =>
    [⟨"id", Json.intText (id < 0) id.natAbs, .int id⟩,
      strField "e" (if pressed then "down".toList else "up".toList), natField "ms" ms.toNat]
  | .hello fw nleds pressed ip =>
    [strField "fw" fw.toList, natField "buttons" 2,
      ⟨"rings", Json.openBracket :: (Json.digits (nleds 0).toNat ++
        Json.moreText Json.closeBracket [Json.digits (nleds 1).toNat]),
        .arr [.int (nleds 0).toNat, .int (nleds 1).toNat]⟩,
      ⟨"pressed", Json.openBracket :: (codes (boolText (pressed 0)) ++
        Json.moreText Json.closeBracket [codes (boolText (pressed 1))]),
        .arr [.bool (pressed 0), .bool (pressed 1)]⟩,
      strField "ip" ip]
  | .ack cmd => [strField "cmd" cmd.toList]
  | .err msg => [strField "msg" msg.toList]

end ProtoEvent

theorem codes_append (s t : List Char) : codes (s ++ t) = codes s ++ codes t := List.map_append

theorem codes_decimal (n : ℕ) : codes (decimal n) = Json.digits n := rfl

theorem codes_decimalInt (v : ℤ) : codes (decimalInt v) = Json.intText (v < 0) v.natAbs := by
  unfold decimalInt Json.intText
  by_cases hv : v < 0
  · rw [if_pos hv, decide_eq_true hv, codes_append]
    rfl
  · have habs : v.toNat = v.natAbs := by omega
    rw [if_neg hv, decide_eq_false hv, habs]
    rfl

theorem intValue_natAbs (v : ℤ) : Json.intValue (v < 0) v.natAbs = v := by
  unfold Json.intValue
  by_cases hv : v < 0
  · rw [decide_eq_true hv, if_pos rfl]
    omega
  · rw [decide_eq_false hv, if_neg Bool.false_ne_true]
    omega

/-- **What the formatters print is an object and a newline.** -/
theorem codes_text (e : ProtoEvent) :
    codes e.text = objectText (Json.text e.tag) e.fields ++ [0x0A] := by
  cases e with
  | btn id pressed ms =>
    have h₁ : codes "\x7b\"t\":\"btn\",\"id\":".toList =
        Json.openBrace :: (EventField.member ⟨"t", Json.quoted (Json.text "btn"), .null⟩ ++
          Json.comma :: (Json.quoted (Json.text "id") ++ [Json.colon])) := by decide
    have h₂ : codes ",\"e\":\"".toList =
        Json.comma :: (Json.quoted (Json.text "e") ++ [Json.colon, Json.quote]) := by decide
    have h₃ : codes "\",\"ms\":".toList =
        Json.quote :: Json.comma :: (Json.quoted (Json.text "ms") ++ [Json.colon]) := by
      decide
    have h₄ : codes "\x7d\n".toList = [Json.closeBrace, 0x0A] := by decide
    unfold ProtoEvent.text
    simp only [codes_append, h₁, h₂, h₃, h₄, codes_decimalInt, codes_decimal]
    simp [objectText, ProtoEvent.tag, ProtoEvent.fields, strField, natField, EventField.member,
      Json.moreText, Json.quoted]
  | hello fw nleds pressed ip =>
    have h₁ : codes "\x7b\"t\":\"hello\",\"fw\":\"".toList =
        Json.openBrace :: (EventField.member ⟨"t", Json.quoted (Json.text "hello"), .null⟩ ++
          Json.comma :: (Json.quoted (Json.text "fw") ++ [Json.colon, Json.quote])) := by
      decide
    have h₂ : codes "\",\"buttons\":2,\"rings\":[".toList =
        Json.quote :: Json.comma :: (Json.quoted (Json.text "buttons") ++ Json.colon ::
          (Json.digits 2 ++ Json.comma :: (Json.quoted (Json.text "rings") ++
            [Json.colon, Json.openBracket]))) := by
      decide
    have h₃ : codes ",".toList = [Json.comma] := by decide
    have h₄ : codes "],\"pressed\":[".toList =
        Json.closeBracket :: Json.comma :: (Json.quoted (Json.text "pressed") ++
          [Json.colon, Json.openBracket]) := by
      decide
    have h₅ : codes "],\"ip\":\"".toList =
        Json.closeBracket :: Json.comma :: (Json.quoted (Json.text "ip") ++
          [Json.colon, Json.quote]) := by
      decide
    have h₆ : codes "\"\x7d\n".toList = [Json.quote, Json.closeBrace, 0x0A] := by decide
    unfold ProtoEvent.text
    simp only [codes_append, h₁, h₂, h₃, h₄, h₅, h₆, codes_decimal]
    simp [objectText, ProtoEvent.tag, ProtoEvent.fields, strField, natField, EventField.member,
      Json.moreText, Json.quoted]
  | ack cmd =>
    have h₁ : codes "\x7b\"t\":\"ack\",\"cmd\":\"".toList =
        Json.openBrace :: (EventField.member ⟨"t", Json.quoted (Json.text "ack"), .null⟩ ++
          Json.comma :: (Json.quoted (Json.text "cmd") ++ [Json.colon, Json.quote])) := by
      decide
    have h₂ : codes "\"\x7d\n".toList = [Json.quote, Json.closeBrace, 0x0A] := by decide
    unfold ProtoEvent.text
    simp only [codes_append, h₁, h₂]
    simp [objectText, ProtoEvent.tag, ProtoEvent.fields, strField, EventField.member, Json.moreText,
      Json.quoted]
  | err msg =>
    have h₁ : codes "\x7b\"t\":\"err\",\"msg\":\"".toList =
        Json.openBrace :: (EventField.member ⟨"t", Json.quoted (Json.text "err"), .null⟩ ++
          Json.comma :: (Json.quoted (Json.text "msg") ++ [Json.colon, Json.quote])) := by
      decide
    have h₂ : codes "\"\x7d\n".toList = [Json.quote, Json.closeBrace, 0x0A] := by decide
    unfold ProtoEvent.text
    simp only [codes_append, h₁, h₂]
    simp [objectText, ProtoEvent.tag, ProtoEvent.fields, strField, EventField.member, Json.moreText,
      Json.quoted]

/-! ## The fields are read back -/

theorem Visible.append {s t : Text} (hs : Visible s) (ht : Visible t) : Visible (s ++ t) := by
  intro c hc
  rcases List.mem_append.mp hc with hc | hc
  · exact hs c hc
  · exact ht c hc

theorem Visible.cons {c : ℕ} {t : Text} (hc : 0x20 ≤ c ∧ c ≤ 0x7E) (ht : Visible t) :
    Visible (c :: t) := by
  intro d hd
  rcases List.mem_cons.mp hd with rfl | hd
  · exact hc
  · exact ht d hd

theorem visible_quoted {w : Text} (hw : Visible w) : Visible (Json.quoted w) :=
  .cons (by decide) (hw.append (by decide))

theorem visible_moreText {close : ℕ} (hclose : 0x20 ≤ close ∧ close ≤ 0x7E) {ts : List Text}
    (h : ∀ t ∈ ts, Visible t) : Visible (Json.moreText close ts) := by
  induction ts with
  | nil => exact .cons hclose fun _ hc => nomatch hc
  | cons t ts ih =>
    exact .cons (by decide) ((h t List.mem_cons_self).append
      (ih fun t' ht' => h t' (List.mem_cons_of_mem t ht')))

theorem visible_digits (n : ℕ) : Visible (Json.digits n) := by
  intro c hc
  have hdigit := Json.digits_isDigit n c hc
  simp only [Json.isDigit, Bool.and_eq_true, decide_eq_true_eq] at hdigit
  omega

theorem visible_intText (neg : Bool) (n : ℕ) : Visible (Json.intText neg n) := by
  refine Visible.append ?_ (visible_digits n)
  cases neg <;> decide

theorem PlainText.visible {s : List Char} (h : PlainText s) : Visible (codes s) := by
  intro c hc
  obtain ⟨d, hd, rfl⟩ := List.mem_map.mp hc
  exact (h d hd).1

theorem PlainText.plain {s : List Char} (h : PlainText s) : Json.Plain (codes s) := by
  intro c hc
  obtain ⟨d, hd, rfl⟩ := List.mem_map.mp hc
  obtain ⟨hvisible, hquote, hback⟩ := h d hd
  have hne : ∀ d' : Char, d ≠ d' → d.toNat ≠ d'.toNat := by
    intro d' hne heq
    exact hne (Char.toNat_inj.mp heq)
  exact ⟨hvisible.1, hne '"' hquote, hne '\\' hback⟩

theorem spells_digits (n : ℕ) : Json.Spells (Json.digits n) (.int n) := Json.spells_int false n

theorem spells_bool (b : Bool) : Json.Spells (codes (boolText b)) (.bool b) := by
  cases b with
  | true => exact Json.spells_bool true
  | false => exact Json.spells_bool false

theorem spells_pair {s t : Text} {v w : Json.Value} (hs : Json.Spells s v) (ht : Json.Spells t w) :
    Json.Spells (Json.openBracket :: (s ++ Json.moreText Json.closeBracket [t])) (.arr [v, w]) :=
  Json.spells_arr (.tight hs) (.cons (.tight ht) .nil)

theorem visible_pair {s t : Text} (hs : Visible s) (ht : Visible t) :
    Visible (Json.openBracket :: (s ++ Json.moreText Json.closeBracket [t])) := by
  refine .cons (by decide) (hs.append (visible_moreText (by decide) ?_))
  intro t' ht'
  rw [List.mem_singleton.mp ht']
  exact ht

/-- The keys and the words of the events. -/
def eventWords : List String :=
  ["t", "id", "e", "ms", "fw", "buttons", "rings", "pressed", "ip", "cmd", "msg", "btn", "hello",
    "ack", "err"]

theorem eventWords_ok : ∀ w ∈ eventWords, Json.Plain (Json.text w) ∧ Visible (Json.text w) := by
  decide

theorem EventField.Ok.of_spells {f : EventField}
    (hkey : Json.Plain (Json.text f.key) ∧ Visible (Json.text f.key))
    (hspells : Json.Spells f.text f.value) (hvisible : Visible f.text) : f.Ok :=
  ⟨hkey.1, hspells, (visible_quoted hkey.2).append (.cons (by decide) hvisible)⟩

theorem strField_ok {key : String} (hkey : Json.Plain (Json.text key) ∧ Visible (Json.text key))
    {s : List Char} (hs : PlainText s) : (strField key s).Ok :=
  .of_spells hkey (Json.spells_str hs.plain) (visible_quoted hs.visible)

theorem natField_ok {key : String} (hkey : Json.Plain (Json.text key) ∧ Visible (Json.text key))
    (n : ℕ) : (natField key n).Ok :=
  .of_spells hkey (spells_digits n) (visible_digits n)

theorem ProtoEvent.fields_ok {e : ProtoEvent} (h : e.PlainArgs) : ∀ f ∈ e.fields, f.Ok := by
  cases e with
  | btn id pressed ms =>
    have hid : Json.Spells (Json.intText (id < 0) id.natAbs) (.int id) := by
      have hspells := Json.spells_int (id < 0) id.natAbs
      rwa [intValue_natAbs] at hspells
    have hedge : PlainText (if pressed then "down".toList else "up".toList) := by
      cases pressed <;> decide
    intro f hf
    simp only [fields, List.mem_cons, List.not_mem_nil, or_false] at hf
    rcases hf with rfl | rfl | rfl
    · exact .of_spells (eventWords_ok "id" (by decide)) hid (visible_intText _ _)
    · exact strField_ok (eventWords_ok "e" (by decide)) hedge
    · exact natField_ok (eventWords_ok "ms" (by decide)) _
  | hello fw nleds pressed ip =>
    have hbool : ∀ b, Visible (codes (boolText b)) := by decide
    intro f hf
    simp only [fields, List.mem_cons, List.not_mem_nil, or_false] at hf
    rcases hf with rfl | rfl | rfl | rfl | rfl
    · exact strField_ok (eventWords_ok "fw" (by decide)) h.1
    · exact natField_ok (eventWords_ok "buttons" (by decide)) _
    · exact .of_spells (eventWords_ok "rings" (by decide))
        (spells_pair (spells_digits _) (spells_digits _))
        (visible_pair (visible_digits _) (visible_digits _))
    · exact .of_spells (eventWords_ok "pressed" (by decide))
        (spells_pair (spells_bool _) (spells_bool _))
        (visible_pair (hbool _) (hbool _))
    · exact strField_ok (eventWords_ok "ip" (by decide)) h.2
  | ack cmd =>
    intro f hf
    rw [fields, List.mem_singleton] at hf
    rw [hf]
    exact strField_ok (eventWords_ok "cmd" (by decide)) h
  | err msg =>
    intro f hf
    rw [fields, List.mem_singleton] at hf
    rw [hf]
    exact strField_ok (eventWords_ok "msg" (by decide)) h

/-! ## The round trip -/

theorem spells_objectText {tag : Text} (htag : Json.Plain tag) {fields : List EventField}
    (h : ∀ f ∈ fields, f.Ok) :
    Json.Spells (objectText tag fields) (.obj (objectOf tag fields)) := by
  have hmore : List.Forall₂ Json.PaddedMember (fields.map EventField.member)
      (fields.map fun f => (Json.text f.key, f.value)) := by
    rw [List.forall₂_map_left_iff, List.forall₂_map_right_iff]
    exact List.forall₂_same.mpr fun f hf => .tight (h f hf).plain (h f hf).spells
  exact Json.spells_obj (.tight (eventWords_ok "t" (by decide)).1 (Json.spells_str htag)) hmore

/-- A text between its braces has nothing to strip but what is outside of them. -/
theorem pyStrip_braces (s : Text) {trail : Text} (htrail : ∀ c ∈ trail, isPySpace c = true) :
    pyStrip (Json.openBrace :: (s ++ [Json.closeBrace]) ++ trail) =
      Json.openBrace :: (s ++ [Json.closeBrace]) := by
  have hopen : ∀ s, (Json.openBrace :: s).dropWhile isPySpace = Json.openBrace :: s :=
    fun _ => List.dropWhile_cons_of_neg (by decide)
  rw [pyStrip, List.cons_append, hopen]
  induction trail using List.reverseRecOn with
  | nil =>
    rw [List.append_nil, ← List.cons_append]
    exact List.rdropWhile_concat_neg _ _ _ (by decide)
  | append_singleton trail c ih =>
    rw [← List.append_assoc, ← List.cons_append,
      List.rdropWhile_concat_pos _ _ _ (htrail c (by simp))]
    exact ih fun d hd => htrail d (List.mem_append_left _ hd)

theorem moreText_concat (close : ℕ) (ts : List Text) :
    ∃ s, Json.moreText close ts = s ++ [close] := by
  induction ts with
  | nil => exact ⟨[], rfl⟩
  | cons t ts ih =>
    obtain ⟨s, hs⟩ := ih
    exact ⟨Json.comma :: (t ++ s), by simp [Json.moreText, hs]⟩

theorem parseEvent_objectText (py : Builtins) {tag : Text} (htag : Json.Plain tag)
    {fields : List EventField} (h : ∀ f ∈ fields, f.Ok) {trail : Text}
    (htrail : ∀ c ∈ trail, isPySpace c = true) :
    parseEvent py (objectText tag fields ++ trail) =
      eventOf py fun key => Json.get? (objectOf tag fields) (Json.text key) := by
  obtain ⟨s, hs⟩ := moreText_concat Json.closeBrace (fields.map EventField.member)
  have hstrip : pyStrip (objectText tag fields ++ trail) = objectText tag fields := by
    rw [objectText, hs, ← List.append_assoc]
    exact pyStrip_braces _ htrail
  have hloads := Json.loads_spells (spells_objectText htag h) .nil .nil
  rw [List.nil_append, List.append_nil] at hloads
  rw [parseEvent, hstrip, if_neg (by rw [objectText]; exact List.cons_ne_nil _ _), hloads]

theorem objectOf_keys (tag : Text) (fields : List EventField) :
    (objectOf tag fields).map Prod.fst = ("t" :: fields.map EventField.key).map Json.text := by
  simp [objectOf]

theorem ProtoEvent.keys_nodup (e : ProtoEvent) :
    (("t" :: e.fields.map EventField.key).map Json.text).Nodup := by
  cases e with
  | btn id pressed ms =>
    show (["t", "id", "e", "ms"].map Json.text).Nodup
    decide
  | hello fw nleds pressed ip =>
    show (["t", "fw", "buttons", "rings", "pressed", "ip"].map Json.text).Nodup
    decide
  | ack cmd =>
    show (["t", "cmd"].map Json.text).Nodup
    decide
  | err msg =>
    show (["t", "msg"].map Json.text).Nodup
    decide

/-- `obj.get` on what the line of an event is read as. -/
def ProtoEvent.get (e : ProtoEvent) (key : String) : Option Json.Value :=
  Json.get? (objectOf (Json.text e.tag) e.fields) (Json.text key)

theorem ProtoEvent.get_tag (e : ProtoEvent) : e.get "t" = some (.str (Json.text e.tag)) := by
  refine Json.get?_of_mem ?_ List.mem_cons_self
  rw [objectOf_keys]
  exact e.keys_nodup

theorem ProtoEvent.get_field (e : ProtoEvent) :
    ∀ f ∈ e.fields, e.get f.key = some f.value := by
  intro f hf
  refine Json.get?_of_mem ?_ (List.mem_cons_of_mem _ (List.mem_map.mpr ⟨f, hf, rfl⟩))
  rw [objectOf_keys]
  exact e.keys_nodup

/-- **The fields of the object are the event's.** -/
theorem eventOf_get (py : Builtins) (e : ProtoEvent) : eventOf py e.get = some e.received := by
  have htag := e.get_tag
  have hfields := e.get_field
  have hhello : Json.text "hello" ≠ Json.text "btn" := by decide
  have hack : Json.text "ack" ≠ Json.text "btn" ∧ Json.text "ack" ≠ Json.text "hello" := by
    decide
  have herr : Json.text "err" ≠ Json.text "btn" ∧ Json.text "err" ≠ Json.text "hello" ∧
      Json.text "err" ≠ Json.text "ack" := by
    decide
  generalize hget : e.get = get at htag hfields ⊢
  cases e with
  | btn id pressed ms =>
    simp only [ProtoEvent.fields, List.forall_mem_cons, strField, natField] at hfields
    obtain ⟨hid, hedge, hms, _⟩ := hfields
    simp only [eventOf, htag, ProtoEvent.tag, hid, hedge, hms, if_true]
    cases pressed with
    | true => exact if_pos (Or.inl rfl)
    | false => exact if_pos (Or.inr rfl)
  | hello fw nleds pressed ip =>
    simp only [ProtoEvent.fields, List.forall_mem_cons, strField, natField] at hfields
    obtain ⟨hfw, hbuttons, hrings, hpressed, hip, _⟩ := hfields
    simp only [eventOf, htag, ProtoEvent.tag, if_neg hhello, if_true, hfw, hbuttons, hrings,
      hpressed, hip]
    rfl
  | ack cmd =>
    simp only [ProtoEvent.fields, List.forall_mem_cons, strField] at hfields
    simp only [eventOf, htag, ProtoEvent.tag, if_neg hack.1, if_neg hack.2, if_true, hfields.1]
    rfl
  | err msg =>
    simp only [ProtoEvent.fields, List.forall_mem_cons, strField] at hfields
    simp only [eventOf, htag, ProtoEvent.tag, if_neg herr.1, if_neg herr.2.1, if_neg herr.2.2,
      if_true, hfields.1]
    rfl

/-! ## On the wire -/

theorem utf8EncodeChar_ascii {c : Char} (h : c.toNat < 128) :
    String.utf8EncodeChar c = [c.toUInt8] ∧ c.toUInt8.toNat = c.toNat := by
  have hsize : c.utf8Size = 1 := by
    rw [Char.utf8Size_eq_one_iff, UInt32.le_iff_toNat_le]
    exact Nat.le_of_lt_succ h
  refine ⟨by rw [String.utf8EncodeChar_eq_singleton hsize, Char.toUInt8_val], ?_⟩
  simp only [Char.toUInt8, UInt32.toNat_toUInt8]
  exact Nat.mod_eq_of_lt (by simp only [Char.toNat] at h; omega)

theorem asciiDecode_utf8 {s : List Char} (h : ∀ c ∈ codes s, c < 128) :
    asciiDecode (utf8 s) = codes s := by
  induction s with
  | nil => rfl
  | cons c s ih =>
    obtain ⟨hone, hval⟩ := utf8EncodeChar_ascii (h c.toNat List.mem_cons_self)
    have hrest := ih fun d hd => h d (List.mem_cons_of_mem _ hd)
    rw [show utf8 (c :: s) = String.utf8EncodeChar c ++ utf8 s from rfl, hone]
    rw [show codes (c :: s) = c.toNat :: codes s from rfl, ← hrest, ← hval]
    rfl

theorem visible_objectText {tag : Text} (htag : Visible tag) {fields : List EventField}
    (h : ∀ f ∈ fields, f.Ok) : Visible (objectText tag fields) := by
  have hmore : ∀ t ∈ fields.map EventField.member, Visible t := by
    intro t ht
    obtain ⟨f, hf, rfl⟩ := List.mem_map.mp ht
    exact (h f hf).visible
  have hfirst : Visible (EventField.member ⟨"t", Json.quoted tag, .str tag⟩) :=
    (visible_quoted (eventWords_ok "t" (by decide)).2).append
      (.cons (by decide) (visible_quoted htag))
  exact .cons (by decide) (hfirst.append (visible_moreText (by decide) hmore))

theorem tag_ok (e : ProtoEvent) : Json.Plain (Json.text e.tag) ∧ Visible (Json.text e.tag) := by
  cases e with
  | btn => exact eventWords_ok "btn" (by decide)
  | hello => exact eventWords_ok "hello" (by decide)
  | ack => exact eventWords_ok "ack" (by decide)
  | err => exact eventWords_ok "err" (by decide)

/-- The line is the object's text and the one newline. -/
theorem utf8_text {e : ProtoEvent} (h : e.PlainArgs) : ∃ body,
    utf8 e.text = body ++ [newline] ∧ newline ∉ body ∧
      asciiDecode body = objectText (Json.text e.tag) e.fields := by
  have hvisible := visible_objectText (tag_ok e).2 (ProtoEvent.fields_ok h)
  have hascii : ∀ c ∈ codes e.text, c < 128 := by
    intro c hc
    rw [codes_text] at hc
    rcases List.mem_append.mp hc with hc | hc
    · have := (hvisible c hc).2
      omega
    · rw [List.mem_singleton.mp hc]
      decide
  have hcodes : asciiDecode (utf8 e.text) = objectText (Json.text e.tag) e.fields ++ [0x0A] := by
    rw [asciiDecode_utf8 hascii, codes_text]
  obtain ⟨body, last, hline, hbody, hlast⟩ := List.map_eq_append_iff.mp hcodes
  obtain ⟨b, rfl, hb⟩ := List.map_eq_singleton_iff.mp hlast
  obtain rfl : b = newline := UInt8.toNat_inj.mp hb
  refine ⟨body, hline, fun hmem => ?_, hbody⟩
  have hcode : newline.toNat ∈ objectText (Json.text e.tag) e.fields := by
    rw [← hbody]
    exact List.mem_map.mpr ⟨newline, hmem, rfl⟩
  exact absurd (hvisible _ hcode).1 (by decide)

/-- **Event lines round-trip**: a formatter returns -1 just when the line does not fit with its
newline and NUL, and otherwise the length of a line with one newline, at its end, in which
`parse_event` finds the event. -/
theorem protoFmt_parseEvent (py : Builtins) (n : ℕ) {e : ProtoEvent} (h : e.PlainArgs) :
    (protoFmt n e = -1 ↔ n < (utf8 e.text).length + 1) ∧
    ∀ line, finish n e = some line → protoFmt n e = line.length ∧
      parseEvent py (asciiDecode line) = some e.received ∧
      ∃ body, line = body ++ [newline] ∧ newline ∉ body ∧
        parseEvent py (asciiDecode body) = some e.received := by
  obtain ⟨body, htext, hnewline, hbody⟩ := utf8_text h
  have hparse : ∀ trail : Text, (∀ c ∈ trail, isPySpace c = true) →
      parseEvent py (asciiDecode body ++ trail) = some e.received := by
    intro trail htrail
    rw [hbody, parseEvent_objectText py (tag_ok e).1 (ProtoEvent.fields_ok h) htrail]
    exact eventOf_get py e
  constructor
  · unfold protoFmt finish
    by_cases hfit : (utf8 e.text).length ≥ n
    · rw [if_pos hfit]
      exact ⟨fun _ => Nat.lt_succ_of_le hfit, fun _ => rfl⟩
    · rw [if_neg hfit]
      constructor
      · intro hneg
        exact absurd hneg (by simp only; omega)
      · intro hlt
        exact absurd (Nat.le_of_lt_succ hlt) hfit
  · intro line hline
    have hlen : protoFmt n e = line.length := by rw [protoFmt, hline]
    unfold finish at hline
    split at hline
    · cases hline
    obtain rfl := Option.some.inj hline
    refine ⟨hlen, ?_, body, htext, hnewline, ?_⟩
    · rw [htext, asciiDecode, List.map_append]
      exact hparse [0x0A] (by decide)
    · have hplain := hparse [] fun c hc => nomatch hc
      rwa [List.append_nil] at hplain

theorem protoFmt_parseEvent_err :
    parseEvent ⟨fun _ => [], fun _ => false⟩ (asciiDecode (utf8 (ProtoEvent.err "no cmd").text)) =
      some (.err (codes "no cmd".toList)) := by
  have hplain : (ProtoEvent.err "no cmd").PlainArgs := by
    show PlainText _
    decide
  exact ((protoFmt_parseEvent _ 80 hplain).2 _ (by decide)).2.1

end EthPanel
