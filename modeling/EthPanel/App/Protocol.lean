import EthPanel.Lib.Search
import Mathlib.Algebra.Group.Int.Defs
import Mathlib.Algebra.GroupWithZero.Nat
import Mathlib.Tactic.SplitIfs
import Mathlib.Data.Int.Notation

/-!
# `protocol/protocol.c`

Events out, commands in. A C string is the list of its bytes before the NUL, and a pointer into
one is the rest of it. `long` is 32 bits wide, as on the RP2040, so `strtol` saturates there and the
conversion to `int` changes nothing.

There is no tokenizer: a field is found by searching the text for its quoted name with a colon
after it (`findKey`). What that means on a JSON object is in `App/FlatJson.lean`.
-/

namespace EthPanel

/-- The bytes of a text. -/
def utf8 (s : List Char) : List UInt8 := s.flatMap String.utf8EncodeChar

/-- A string literal. -/
def cstr (s : String) : List UInt8 := utf8 s.toList

/-- A byte string with no NUL inside. -/
structure CString where
  bytes : List UInt8
  noNul : ∀ c ∈ bytes, c ≠ 0
  deriving DecidableEq

/-- What a buffer holds as a C string. -/
def CString.ofBuf (buf : List UInt8) : CString where
  bytes := buf.takeWhile fun c => c != 0
  noNul c hc := by simpa using List.mem_takeWhile_imp hc

theorem CString.ofBuf_eq {buf : List UInt8} (h : ∀ c ∈ buf, c ≠ 0) : ofBuf buf = ⟨buf, h⟩ := by
  have hall : buf.takeWhile (fun c => c != 0) = buf :=
    List.takeWhile_eq_self_iff.mpr fun c hc => bne_iff_ne.mpr (h c hc)
  simp only [ofBuf, hall]

/-! ## Event formatters -/

/-- `%u` and `%lu`. -/
def decimal (n : ℕ) : List Char := Nat.toDigits 10 n

/-- `%d`. -/
def decimalInt (v : ℤ) : List Char :=
  if v < 0 then "-".toList ++ decimal v.natAbs else decimal v.toNat

/-- The panel's rings and buttons come in twos. -/
instance neZeroTwo : NeZero 2 := ⟨by decide⟩

/-- The lines that the device sends. -/
inductive ProtoEvent
  | btn (id : ℤ) (pressed : Bool) (ms : UInt32)
  | hello (fw : String) (nleds : Fin 2 → UInt16) (pressed : Fin 2 → Bool) (ip : List Char)
  | ack (cmd : String)
  | err (msg : String)

def boolText (b : Bool) : List Char := if b then "true".toList else "false".toList

/-- What `proto_fmt_btn`, `proto_fmt_hello`, `proto_fmt_ack` and `proto_fmt_err` print. -/
def ProtoEvent.text : ProtoEvent → List Char
  | .btn id pressed ms =>
    "\x7b\"t\":\"btn\",\"id\":".toList ++ decimalInt id ++ ",\"e\":\"".toList ++
      (if pressed then "down".toList else "up".toList) ++ "\",\"ms\":".toList ++
      decimal ms.toNat ++ "\x7d\n".toList
  | .hello fw nleds pressed ip =>
    "\x7b\"t\":\"hello\",\"fw\":\"".toList ++ fw.toList ++ "\",\"buttons\":2,\"rings\":[".toList ++
      decimal (nleds 0).toNat ++ ",".toList ++ decimal (nleds 1).toNat ++
      "],\"pressed\":[".toList ++ boolText (pressed 0) ++ ",".toList ++ boolText (pressed 1) ++
      "],\"ip\":\"".toList ++ ip ++ "\"\x7d\n".toList
  | .ack cmd => "\x7b\"t\":\"ack\",\"cmd\":\"".toList ++ cmd.toList ++ "\"\x7d\n".toList
  | .err msg => "\x7b\"t\":\"err\",\"msg\":\"".toList ++ msg.toList ++ "\"\x7d\n".toList

/-- `finish`: the line, if it fits in a buffer of `n` bytes with its NUL. -/
def finish (n : ℕ) (e : ProtoEvent) : Option (List UInt8) :=
  if (utf8 e.text).length ≥ n then none else some (utf8 e.text)

/-! ## Field extraction -/

def isBlank (c : UInt8) : Bool := c == 0x20 || c == 0x09

def isDigit (c : UInt8) : Bool := 0x30 ≤ c && c ≤ 0x39

def isSpace (c : UInt8) : Bool := c == 0x20 || 0x09 ≤ c && c ≤ 0x0D

/-- `'"'`. -/
def quote : UInt8 := 0x22

/-- `':'`. -/
def colon : UInt8 := 0x3A

/-- `while (*q == ' ' || *q == '\t') q++;` -/
def skipBlanks (s : List UInt8) : List UInt8 := s.dropWhile isBlank

/-- The loop of `find_key` over the matches of `pat`. Each takes up some of the text, so its length
is fuel enough. -/
def findKeyLoop (pat : List UInt8) : ℕ → List UInt8 → Option (List UInt8)
  | 0, _ => none
  | n + 1, s =>
    match Search.find pat s with
    | none => none
    | some p =>
      match skipBlanks (p.drop pat.length) with
      | [] => findKeyLoop pat n (p.drop pat.length)
      | c :: q =>
        -- A string value is not followed by a colon: keep looking.
        if c = colon then some (skipBlanks q) else findKeyLoop pat n (p.drop pat.length)

/-- `find_key`; every key of this module fits its `pat[40]`. -/
def findKey (json key : List UInt8) : Option (List UInt8) :=
  findKeyLoop (Search.quoted quote key) json.length json

/-- `get_str` into a buffer of `dstn` bytes. -/
def getStr (json key : List UInt8) (dstn : ℕ) : Option (List UInt8) :=
  match findKey json key with
  | some (c :: p) => if c = quote then some ((p.takeWhile (· != quote)).take (dstn - 1)) else none
  | _ => none

/-- The number that decimal digits write. -/
def digitsValue (ds : List UInt8) : ℕ := ds.foldl (fun v c => 10 * v + (c.toNat - 0x30)) 0

/-- The nearest `long`. -/
def saturate (v : ℤ) : ℤ := max (-2 ^ 31) (min (2 ^ 31 - 1) v)

/-- `strtol(s, NULL, 10)`. -/
def strtol (s : List UInt8) : ℤ :=
  match s.dropWhile isSpace with
  | [] => 0
  | c :: p =>
    if c = 0x2D then saturate (-(digitsValue (p.takeWhile isDigit) : ℤ))
    else if c = 0x2B then saturate (digitsValue (p.takeWhile isDigit))
    else saturate (digitsValue ((c :: p).takeWhile isDigit))

/-- `get_int`. -/
def getInt (json key : List UInt8) : Option ℤ :=
  match findKey json key with
  | some (c :: p) => if c ≠ 0x2D ∧ isDigit c = false then none else some (strtol (c :: p))
  | _ => none

/-- `!isdigit((unsigned char)p[1])`, of the text after the first character. -/
def noDigit : List UInt8 → Bool
  | [] => true
  | c :: _ => !isDigit c

/-- `get_bool`. -/
def getBool (json key : List UInt8) : Option ℤ :=
  match findKey json key with
  | none => none
  | some p =>
    if (cstr "true").isPrefixOf p then some 1
    else if (cstr "false").isPrefixOf p then some 0
    else match p with
      | [] => none
      | c :: p =>
        if c = 0x31 ∧ noDigit p then some 1
        else if c = 0x30 ∧ noDigit p then some 0
        else none

/-! ## Commands -/

/-- `proto_cmd_type`. -/
inductive CmdType
  | none | ring | lamp | config | ping | ota | hello | unknown
  deriving DecidableEq

/-- `proto_cmd`: `-1` for what is absent. -/
structure ProtoCmd where
  type : CmdType
  id : ℤ
  r : ℤ
  g : ℤ
  b : ℤ
  brightness : ℤ
  on : ℤ
  debounceMs : ℤ
  deriving DecidableEq

def ProtoCmd.absent : ProtoCmd := ⟨.none, -1, -1, -1, -1, -1, -1, -1⟩

/-- `proto_parse`: what it returns, and what it leaves in `out`. -/
def protoParse (line : List UInt8) : Bool × ProtoCmd :=
  match getStr line (cstr "cmd") 16 with
  | none => (false, .absent)
  | some cmd =>
    (true,
      if cmd = cstr "ring" then
        { ProtoCmd.absent with
          type := .ring
          id := (getInt line (cstr "id")).getD (-1)
          r := (getInt line (cstr "r")).getD (-1)
          g := (getInt line (cstr "g")).getD (-1)
          b := (getInt line (cstr "b")).getD (-1)
          brightness := (getInt line (cstr "brightness")).getD (-1) }
      else if cmd = cstr "lamp" then
        { ProtoCmd.absent with type := .lamp, on := (getBool line (cstr "on")).getD (-1) }
      else if cmd = cstr "config" then
        { ProtoCmd.absent with
          type := .config
          debounceMs := (getInt line (cstr "debounce_ms")).getD (-1) }
      else if cmd = cstr "ping" then { ProtoCmd.absent with type := .ping }
      else if cmd = cstr "ota" then { ProtoCmd.absent with type := .ota }
      else if cmd = cstr "hello" then { ProtoCmd.absent with type := .hello }
      else { ProtoCmd.absent with type := .unknown })

example : protoParse (cstr "\x7b \"r\" : 9, \"cmd\":\"ring\" , \"id\":1,\"g\":-99999999999\x7d") =
    (true, ⟨.ring, 1, 9, -2147483648, -1, -1, -1, -1⟩) := by
  decide +kernel

/-- An `int` of the RP2040. -/
def IsInt (v : ℤ) : Prop := -2 ^ 31 ≤ v ∧ v < 2 ^ 31

theorem isInt_absent : IsInt (-1) := ⟨by decide, by decide⟩

theorem saturate_isInt (v : ℤ) : IsInt (saturate v) := by
  unfold saturate IsInt
  omega

theorem strtol_isInt (s : List UInt8) : IsInt (strtol s) := by
  unfold strtol
  split
  · exact ⟨by decide, by decide⟩
  · split_ifs <;> exact saturate_isInt _

theorem getInt_isInt (json key : List UInt8) : IsInt ((getInt json key).getD (-1)) := by
  unfold getInt
  split
  · split_ifs
    · exact isInt_absent
    · exact strtol_isInt _
  · exact isInt_absent

theorem protoParse_id_isInt (line : List UInt8) : IsInt (protoParse line).2.id := by
  unfold protoParse
  split
  · exact isInt_absent
  · dsimp only
    split_ifs
    · exact getInt_isInt _ _
    all_goals exact isInt_absent

/-! ## Numbers as text -/

@[simp] theorem utf8_append (s t : List Char) : utf8 (s ++ t) = utf8 s ++ utf8 t :=
  List.flatMap_append

theorem utf8EncodeChar_digit {c : Char} (h : c.isDigit = true) :
    String.utf8EncodeChar c = [c.toUInt8] ∧ isDigit c.toUInt8 = true ∧
      c.toUInt8.toNat - 0x30 = c.toNat - '0'.toNat := by
  have hdigit : 48 ≤ c.toNat ∧ c.toNat ≤ 57 := by
    simpa [Char.isDigit, UInt32.le_iff_toNat_le] using h
  have hval : c.toUInt8.toNat = c.toNat := by
    simp only [Char.toUInt8, UInt32.toNat_toUInt8]
    exact Nat.mod_eq_of_lt (by have := hdigit.2; simp only [Char.toNat] at this; omega)
  refine ⟨?_, ?_, ?_⟩
  · have hsize : c.utf8Size = 1 := by
      rw [Char.utf8Size_eq_one_iff, UInt32.le_iff_toNat_le]
      exact hdigit.2.trans (by decide)
    rw [String.utf8EncodeChar_eq_singleton hsize, Char.toUInt8_val]
  · simp [isDigit, UInt8.le_iff_toNat_le, hval, hdigit.1, hdigit.2]
  · rw [hval]; rfl

theorem decimal_isDigit (n : ℕ) : ∀ b ∈ utf8 (decimal n), isDigit b = true := by
  intro b hb
  obtain ⟨c, hc, hbc⟩ := List.mem_flatMap.mp hb
  have hdigit := utf8EncodeChar_digit (Nat.isDigit_of_mem_toDigits (by omega) (by omega) hc)
  rw [hdigit.1, List.mem_singleton] at hbc
  rw [hbc]
  exact hdigit.2.1

theorem digitsValue_decimal (n : ℕ) : digitsValue (utf8 (decimal n)) = n := by
  have hfold : ∀ (cs : List Char) (v : ℕ), (∀ c ∈ cs, c.isDigit = true) →
      (utf8 cs).foldl (fun v c => 10 * v + (c.toNat - 0x30)) v = Nat.ofDigitChars 10 cs v := by
    intro cs
    induction cs with
    | nil => intro v _; rfl
    | cons c cs ih =>
      intro v h
      have hdigit := utf8EncodeChar_digit (h c List.mem_cons_self)
      rw [show utf8 (c :: cs) = String.utf8EncodeChar c ++ utf8 cs from rfl, hdigit.1,
        List.singleton_append, List.foldl_cons, hdigit.2.2, Nat.ofDigitChars_cons]
      exact ih _ fun c' hc' => h c' (List.mem_cons_of_mem c hc')
  unfold digitsValue decimal
  rw [hfold _ 0 fun c hc => Nat.isDigit_of_mem_toDigits (by omega) (by omega) hc,
    Nat.ofDigitChars_ten_toDigits]

theorem decimal_cons (n : ℕ) : ∃ c cs, utf8 (decimal n) = c :: cs ∧ isDigit c = true := by
  cases h : utf8 (decimal n) with
  | nil =>
    have hval := digitsValue_decimal n
    rw [h] at hval
    subst hval
    exact absurd h (by decide)
  | cons c cs => exact ⟨c, cs, rfl, decimal_isDigit n c (by rw [h]; exact List.mem_cons_self)⟩

end EthPanel
