import EthPanel.Driver.ParseEvent
import EthPanel.Lib.Terminated

/-!
# `panel_node.py`: from bytes to messages

The reader puts what it receives behind what is left of its buffer, takes whole lines off it, and
hands each to `_handle_line`. What the node then does with it, `NodeAct`, is a matter of the line
alone.

A line of the device is handled as the event that it is (`handleLine_event`), and the end of one, as
a reader gets that begins in the middle of it, as nothing at all (`handleLine_partial`).
-/

namespace EthPanel

open Json (Text)

/-! ## `bytes.decode("utf-8", "replace")` -/

/-- A character of which some bytes are there: its bits, how many bytes there are to come, and
between which two the next one has to be. -/
structure Utf8Part where
  code : ℕ
  more : ℕ
  lo : UInt8
  hi : UInt8

def replacementChar : ℕ := 0xFFFD

/-- A byte where a character begins. -/
def utf8Start (b : UInt8) : Text × Option Utf8Part :=
  if b < 0x80 then ([b.toNat], none)
  else if 0xC2 ≤ b && b ≤ 0xDF then ([], some ⟨b.toNat - 0xC0, 1, 0x80, 0xBF⟩)
  else if b == 0xE0 then ([], some ⟨0, 2, 0xA0, 0xBF⟩)
  else if b == 0xED then ([], some ⟨0xD, 2, 0x80, 0x9F⟩)
  else if 0xE1 ≤ b && b ≤ 0xEF then ([], some ⟨b.toNat - 0xE0, 2, 0x80, 0xBF⟩)
  else if b == 0xF0 then ([], some ⟨0, 3, 0x90, 0xBF⟩)
  else if 0xF1 ≤ b && b ≤ 0xF3 then ([], some ⟨b.toNat - 0xF0, 3, 0x80, 0xBF⟩)
  else if b == 0xF4 then ([], some ⟨4, 3, 0x80, 0x8F⟩)
  else ([replacementChar], none)

/-- The longest part of a character that cannot go on is replaced as a whole. -/
def utf8Replace : Option Utf8Part → List UInt8 → Text
  | none, [] => []
  | some _, [] => [replacementChar]
  | none, b :: bs => (utf8Start b).1 ++ utf8Replace (utf8Start b).2 bs
  | some part, b :: bs =>
    if part.lo ≤ b && b ≤ part.hi then
      if part.more = 1 then (part.code * 64 + (b.toNat - 0x80)) :: utf8Replace none bs
      else utf8Replace (some ⟨part.code * 64 + (b.toNat - 0x80), part.more - 1, 0x80, 0xBF⟩) bs
    else replacementChar :: (utf8Start b).1 ++ utf8Replace (utf8Start b).2 bs

def decodeReplace (bs : List UInt8) : Text := utf8Replace none bs

theorem decodeReplace_ascii {bs : List UInt8} (h : ∀ b ∈ bs, b.toNat < 128) :
    decodeReplace bs = asciiDecode bs := by
  induction bs with
  | nil => rfl
  | cons b bs ih =>
    have hb : b < 0x80 := UInt8.lt_iff_toNat_lt.mpr (h b List.mem_cons_self)
    have hrest := ih fun b' hb' => h b' (List.mem_cons_of_mem b hb')
    unfold decodeReplace at hrest ⊢
    rw [utf8Replace, utf8Start, if_pos hb, hrest]
    rfl

/-! ## The node -/

/-- What a line makes the node do. -/
inductive NodeAct
  | publish (btnId : ℤ) (pressed : Bool)
  /-- There is no publisher. -/
  | unknownButton (btnId : ℤ)
  | helloSeen
  | resync
  deriving DecidableEq

/-- `_publish_button`. -/
def publishButton (btnId : ℤ) (pressed : Bool) : List NodeAct :=
  if btnId = 1 ∨ btnId = 2 then [.publish btnId pressed] else [.unknownButton btnId]

/-- `_handle_line`. -/
def handleLine (py : Builtins) (line : Text) : List NodeAct :=
  match parseEvent py line with
  | none => []
  | some (.btn btnId e _) => publishButton btnId (decide (e = Json.text "down"))
  | some (.hello _ _ _ pressed _) =>
    .helloSeen :: (pressed.zipIdx.flatMap fun p => publishButton (p.2 + 1) p.1) ++ [.resync]
  | some (.ack _) | some (.err _) => []

/-- What the reader does with all that `recv` brings on one connection, piece by piece. -/
def readerActs (py : Builtins) (pieces : List (List UInt8)) : List NodeAct :=
  (Terminated.readAll newline [] pieces).1.flatMap fun line => handleLine py (decodeReplace line)

/-! ## The lines of the device -/

/-- What an event is to the node. -/
def ProtoEvent.acts : ProtoEvent → List NodeAct
  | .btn id pressed _ => publishButton id pressed
  | .hello _ _ pressed _ => [.helloSeen, .publish 1 (pressed 0), .publish 2 (pressed 1), .resync]
  | .ack _ | .err _ => []

/-- The line without its newline. -/
def ProtoEvent.body (e : ProtoEvent) : List UInt8 := (utf8 e.text).dropLast

theorem ProtoEvent.utf8_text_eq {e : ProtoEvent} (h : e.PlainArgs) :
    utf8 e.text = e.body ++ [newline] ∧ newline ∉ e.body ∧ (∀ b ∈ e.body, b.toNat < 128) ∧
      asciiDecode e.body = objectText (Json.text e.tag) e.fields := by
  obtain ⟨body, htext, hnewline, hbody⟩ := utf8_text h
  have heq : e.body = body := by rw [ProtoEvent.body, htext, List.dropLast_concat]
  rw [heq]
  refine ⟨htext, hnewline, fun b hb => ?_, hbody⟩
  have hcode : b.toNat ∈ objectText (Json.text e.tag) e.fields := by
    rw [← hbody]
    exact List.mem_map.mpr ⟨b, hb, rfl⟩
  have hvisible := visible_objectText (tag_ok e).2 (ProtoEvent.fields_ok h) _ hcode
  omega

/-- **A line of the device is handled as its event.** -/
theorem handleLine_event (py : Builtins) {e : ProtoEvent} (h : e.PlainArgs) :
    handleLine py (decodeReplace e.body) = e.acts := by
  obtain ⟨-, -, hascii, hbody⟩ := ProtoEvent.utf8_text_eq h
  have hparse : parseEvent py (decodeReplace e.body) = some e.received := by
    rw [decodeReplace_ascii hascii, hbody]
    have hobject := parseEvent_objectText py (tag_ok e).1 (ProtoEvent.fields_ok h)
      (fun c hc => absurd hc List.not_mem_nil)
    rw [List.append_nil] at hobject
    rw [hobject]
    exact eventOf_get py e
  unfold handleLine
  rw [hparse]
  cases e with
  | btn id pressed ms =>
    have hdown : decide (Json.text (if pressed then "down" else "up") = Json.text "down") =
        pressed := by
      cases pressed <;> decide
    simp only [ProtoEvent.received, ProtoEvent.acts, hdown]
  | hello fw nleds pressed ip => rfl
  | ack cmd => rfl
  | err msg => rfl

/-- A text with no brace in it is no event. -/
theorem handleLine_noBrace (py : Builtins) {line : Text} (h : Json.openBrace ∉ line) :
    handleLine py line = [] := by
  have hstrip : Json.openBrace ∉ pyStrip line := fun hmem =>
    h ((List.dropWhile_suffix _).subset ((List.rdropWhile_prefix _ _).subset hmem))
  have hparse : parseEvent py line = none := by
    unfold parseEvent
    split
    · rfl
    · split
      · rename_i obj hobj
        exact absurd (Json.loads_obj hobj) hstrip
      · rfl
  unfold handleLine
  rw [hparse]

/-- No brace in an argument. -/
def ProtoEvent.BracelessArgs : ProtoEvent → Prop
  | .btn .. => True
  | .hello fw _ _ ip => '\x7b' ∉ fw.toList ∧ '\x7b' ∉ ip
  | .ack cmd => '\x7b' ∉ cmd.toList
  | .err msg => '\x7b' ∉ msg.toList

theorem quoted_braceless {w : Text} (h : Json.openBrace ∉ w) : Json.openBrace ∉ Json.quoted w := by
  have hquote : Json.openBrace ≠ Json.quote := by decide
  simp [Json.quoted, h, hquote]

theorem digits_braceless (n : ℕ) : Json.openBrace ∉ Json.digits n := fun h =>
  absurd (Json.digits_isDigit n _ h) (by decide)

theorem moreText_braceless {close : ℕ} (hclose : Json.openBrace ≠ close) {ts : List Text}
    (h : ∀ t ∈ ts, Json.openBrace ∉ t) : Json.openBrace ∉ Json.moreText close ts := by
  have hcomma : Json.openBrace ≠ Json.comma := by decide
  induction ts with
  | nil => simpa [Json.moreText] using hclose
  | cons t ts ih =>
    have hrest := ih fun t' ht' => h t' (List.mem_cons_of_mem t ht')
    simp [Json.moreText, hcomma, h t List.mem_cons_self, hrest]

theorem intText_braceless (neg : Bool) (n : ℕ) : Json.openBrace ∉ Json.intText neg n := by
  have hminus : Json.openBrace ∉ if neg then [Json.minus] else [] := by
    cases neg <;> decide
  rw [Json.intText, List.mem_append, not_or]
  exact ⟨hminus, digits_braceless n⟩

theorem pair_braceless {s t : Text} (hs : Json.openBrace ∉ s) (ht : Json.openBrace ∉ t) :
    Json.openBrace ∉ Json.openBracket :: (s ++ Json.moreText Json.closeBracket [t]) := by
  have hbracket : Json.openBrace ≠ Json.openBracket := by decide
  have hmore : Json.openBrace ∉ Json.moreText Json.closeBracket [t] :=
    moreText_braceless (by decide) fun t' ht' => by rwa [List.mem_singleton.mp ht']
  simp [hbracket, hs, hmore]

theorem eventWords_braceless : ∀ w ∈ eventWords, Json.openBrace ∉ Json.text w := by decide +kernel

theorem member_braceless {f : EventField} (hkey : f.key ∈ eventWords)
    (h : Json.openBrace ∉ f.text) : Json.openBrace ∉ f.member := by
  have hcolon : Json.openBrace ≠ Json.colon := by decide
  simp [EventField.member, quoted_braceless (eventWords_braceless f.key hkey), hcolon, h]

theorem strField_braceless {key : String} (hkey : key ∈ eventWords) {s : List Char}
    (hs : '\x7b' ∉ s) : Json.openBrace ∉ (strField key s).member := by
  refine member_braceless hkey (quoted_braceless fun hmem => hs ?_)
  obtain ⟨c, hc, hcode⟩ := List.mem_map.mp hmem
  rwa [← show c = '\x7b' from Char.toNat_inj.mp hcode]

theorem ProtoEvent.fields_braceless {e : ProtoEvent} (h : e.BracelessArgs) :
    ∀ f ∈ e.fields, Json.openBrace ∉ f.member := by
  cases e with
  | btn id pressed ms =>
    have hedge : '\x7b' ∉ (if pressed then "down".toList else "up".toList) := by
      cases pressed <;> decide +kernel
    intro f hf
    simp only [fields, List.mem_cons, List.not_mem_nil, or_false] at hf
    rcases hf with rfl | rfl | rfl
    · exact member_braceless (show "id" ∈ eventWords by decide)
        (intText_braceless _ _)
    · exact strField_braceless (by decide) hedge
    · exact member_braceless (show "ms" ∈ eventWords by decide) (digits_braceless _)
  | hello fw nleds pressed ip =>
    have hbool : ∀ b, Json.openBrace ∉ codes (boolText b) := by decide +kernel
    intro f hf
    simp only [fields, List.mem_cons, List.not_mem_nil, or_false] at hf
    rcases hf with rfl | rfl | rfl | rfl | rfl
    · exact strField_braceless (by decide) h.1
    · exact member_braceless (show "buttons" ∈ eventWords by decide) (digits_braceless _)
    · exact member_braceless (show "rings" ∈ eventWords by decide)
        (pair_braceless (digits_braceless _) (digits_braceless _))
    · exact member_braceless (show "pressed" ∈ eventWords by decide)
        (pair_braceless (hbool _) (hbool _))
    · exact strField_braceless (by decide) h.2
  | ack cmd =>
    intro f hf
    rw [List.mem_singleton.mp hf]
    exact strField_braceless (by decide) h
  | err msg =>
    intro f hf
    rw [List.mem_singleton.mp hf]
    exact strField_braceless (by decide) h

/-- There is no brace in the line but the one it begins with. -/
theorem objectText_braceless {tag : String} (htag : tag ∈ eventWords) {fields : List EventField}
    (h : ∀ f ∈ fields, Json.openBrace ∉ f.member) :
    Json.openBrace ∉ (objectText (Json.text tag) fields).tail := by
  have htagMember : Json.openBrace ∉
      (EventField.member ⟨"t", Json.quoted (Json.text tag), .str (Json.text tag)⟩) :=
    member_braceless (show "t" ∈ eventWords by decide)
      (quoted_braceless (eventWords_braceless tag htag))
  have hmore : Json.openBrace ∉ Json.moreText Json.closeBrace (fields.map EventField.member) :=
    moreText_braceless (by decide) fun t ht => by
      obtain ⟨f, hf, rfl⟩ := List.mem_map.mp ht
      exact h f hf
  rw [objectText, List.tail_cons, List.mem_append, not_or]
  exact ⟨htagMember, hmore⟩

/-- **The end of a line of the device is handled as nothing.** -/
theorem handleLine_partial (py : Builtins) {e : ProtoEvent} (hplain : e.PlainArgs)
    (hbrace : e.BracelessArgs) {k : ℕ} (hk : 0 < k) :
    handleLine py (decodeReplace (e.body.drop k)) = [] := by
  obtain ⟨-, -, hascii, hbody⟩ := ProtoEvent.utf8_text_eq hplain
  have htag : e.tag ∈ eventWords := by
    cases e with
    | btn => exact (by decide : "btn" ∈ eventWords)
    | hello => exact (by decide : "hello" ∈ eventWords)
    | ack => exact (by decide : "ack" ∈ eventWords)
    | err => exact (by decide : "err" ∈ eventWords)
  rw [decodeReplace_ascii fun b hb => hascii b (List.mem_of_mem_drop hb)]
  refine handleLine_noBrace py fun hmem => ?_
  obtain ⟨n, rfl⟩ := Nat.exists_eq_succ_of_ne_zero (Nat.ne_of_gt hk)
  rw [asciiDecode, List.map_drop, ← asciiDecode, hbody, ← List.drop_tail] at hmem
  exact objectText_braceless htag (ProtoEvent.fields_braceless hbrace) (List.mem_of_mem_drop hmem)

end EthPanel
