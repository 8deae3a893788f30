import Mathlib.Data.Int.Notation
import Mathlib.Data.List.TakeWhile
import Mathlib.Tactic.Common

/-!
# JSON, as Python reads it

`loads` is `json.loads` of a text given by its code points: a value with white space around it, and
nothing else. What it does not read raises `ValueError`, here `none`. Floating point is left alone:
a number with a fraction or an exponent stays as it is written.

The readers take fuel, and the text's own length is enough: what they make of a text is in
`Lib/Spells.lean`.
-/

namespace Json

/-- A text by its code points. -/
abbrev Text := List ℕ

def text (s : String) : Text := s.toList.map Char.toNat

def quote : ℕ := 0x22
def comma : ℕ := 0x2C
def minus : ℕ := 0x2D
def colon : ℕ := 0x3A
def backslash : ℕ := 0x5C
def openBracket : ℕ := 0x5B
def closeBracket : ℕ := 0x5D
def openBrace : ℕ := 0x7B
def closeBrace : ℕ := 0x7D

inductive Value
  | null
  | bool (b : Bool)
  | int (v : ℤ)
  /-- A number with a fraction or an exponent, or one of the constants that Python adds. -/
  | float (lit : Text)
  | str (s : Text)
  | arr (vs : List Value)
  | obj (ms : List (Text × Value))

/-- `dict.get`: of equal keys the last one counts. -/
def get? (ms : List (Text × Value)) (key : Text) : Option Value :=
  (ms.reverse.find? fun m => m.1 == key).map Prod.snd

/-! ## Tokens -/

def isWs (c : ℕ) : Bool := c == 0x20 || c == 0x09 || c == 0x0A || c == 0x0D

def skipWs (s : Text) : Text := s.dropWhile isWs

def isDigit (c : ℕ) : Bool := 0x30 ≤ c && c ≤ 0x39

/-- The text after the token `c`. -/
def expect (c : ℕ) : Text → Option Text
  | [] => none
  | d :: s => if d = c then some s else none

def hexDigit (c : ℕ) : Option ℕ :=
  if isDigit c then some (c - 0x30)
  else if 0x41 ≤ c ∧ c ≤ 0x46 then some (c - 0x37)
  else if 0x61 ≤ c ∧ c ≤ 0x66 then some (c - 0x57)
  else none

def hex4 : Text → Option (ℕ × Text)
  | a :: b :: c :: d :: s => do
    let a ← hexDigit a
    let b ← hexDigit b
    let c ← hexDigit c
    let d ← hexDigit d
    some (0x1000 * a + 0x100 * b + 0x10 * c + d, s)
  | _ => none

/-- What follows `\u`: two surrogates in a row are one code point, a lone one stays. -/
def unicodeEscape (s : Text) : Option (ℕ × Text) := do
  let (hi, s) ← hex4 s
  if 0xD800 ≤ hi ∧ hi ≤ 0xDBFF then
    match s with
    | 0x5C :: 0x75 :: r => do
      let (lo, r) ← hex4 r
      if 0xDC00 ≤ lo ∧ lo ≤ 0xDFFF then some (0x10000 + 0x400 * (hi - 0xD800) + (lo - 0xDC00), r)
      else some (hi, s)
    | _ => some (hi, s)
  else some (hi, s)

/-- What follows a backslash. -/
def escape : Text → Option (ℕ × Text)
  | [] => none
  | c :: s =>
    match c with
    | 0x22 => some (0x22, s)
    | 0x5C => some (0x5C, s)
    | 0x2F => some (0x2F, s)
    | 0x62 => some (0x08, s)
    | 0x66 => some (0x0C, s)
    | 0x6E => some (0x0A, s)
    | 0x72 => some (0x0D, s)
    | 0x74 => some (0x09, s)
    | 0x75 => unicodeEscape s
    | _ => none

/-- A string from after its opening quote on: no control characters, closed by a quote. -/
def scanString : ℕ → Text → Option (Text × Text)
  | 0, _ => none
  | _ + 1, [] => none
  | n + 1, c :: s =>
    if c = quote then some ([], s)
    else if c = backslash then do
      let (e, s) ← escape s
      let (w, s) ← scanString n s
      some (e :: w, s)
    else if c < 0x20 then none
    else do
      let (w, s) ← scanString n s
      some (c :: w, s)

def digitsVal (ds : Text) : ℕ := ds.foldl (fun v c => 10 * v + (c - 0x30)) 0

/-- A point and digits, if the text begins so. -/
def fraction : Text → Text
  | 0x2E :: s => if s.takeWhile isDigit = [] then [] else 0x2E :: s.takeWhile isDigit
  | _ => []

def exponent : Text → Text
  | [] => []
  | c :: s =>
    if c = 0x65 ∨ c = 0x45 then
      let sign := s.take 1 |>.filter fun d => d == 0x2B || d == minus
      let ds := (s.drop sign.length).takeWhile isDigit
      if ds = [] then [] else c :: (sign ++ ds)
    else []

/-- The whole part of a number: a zero stands by itself. -/
def wholePart : Text → Text
  | [] => []
  | c :: s => if c = 0x30 then [c] else (c :: s).takeWhile isDigit

/-- A number without its sign. -/
def magnitude (neg : Bool) (s : Text) : Option (Value × Text) :=
  let whole := wholePart s
  let rest := s.drop whole.length
  let frac := fraction rest
  let exp := exponent (rest.drop frac.length)
  if whole = [] then none
  else if frac = [] ∧ exp = [] then
    some (.int (if neg then -(digitsVal whole : ℤ) else digitsVal whole), rest)
  else
    some (.float ((if neg then [minus] else []) ++ (whole ++ (frac ++ exp))),
      rest.drop (frac.length + exp.length))

def number : Text → Option (Value × Text)
  | [] => none
  | c :: s => if c = minus then magnitude true s else magnitude false (c :: s)

/-- `null`, `true` and `false`, and what Python knows besides. -/
def literals : List (Text × Value) :=
  [(text "null", .null), (text "true", .bool true), (text "false", .bool false),
    (text "NaN", .float (text "NaN")), (text "Infinity", .float (text "Infinity")),
    (text "-Infinity", .float (text "-Infinity"))]

def literal (s : Text) : Option (Value × Text) :=
  literals.findSome? fun l => if l.1.isPrefixOf s then some (l.2, s.drop l.1.length) else none

/-! ## Values -/

mutual

/-- A value at the beginning of the text. -/
def value : ℕ → Text → Option (Value × Text)
  | 0, _ => none
  | _ + 1, [] => none
  | n + 1, c :: s =>
    if c = quote then do
      let (w, s) ← scanString (s.length + 1) s
      some (.str w, s)
    else if c = openBrace then
      if (expect closeBrace (skipWs s)).isSome then some (.obj [], (skipWs s).drop 1)
      else do
        let (ms, s) ← members n (skipWs s)
        some (.obj ms, s)
    else if c = openBracket then
      if (expect closeBracket (skipWs s)).isSome then some (.arr [], (skipWs s).drop 1)
      else do
        let (vs, s) ← elements n (skipWs s)
        some (.arr vs, s)
    else (literal (c :: s)).or (number (c :: s))

/-- The members of an object up to its closing brace. -/
def members : ℕ → Text → Option (List (Text × Value) × Text)
  | 0, _ => none
  | n + 1, s => do
    let s ← expect quote s
    let (key, s) ← scanString (s.length + 1) s
    let s ← expect colon (skipWs s)
    let (v, s) ← value n (skipWs s)
    match skipWs s with
    | [] => none
    | c :: s =>
      if c = closeBrace then some ([(key, v)], s)
      else if c = comma then do
        let (ms, s) ← members n (skipWs s)
        some ((key, v) :: ms, s)
      else none

/-- The elements of an array up to its closing bracket. -/
def elements : ℕ → Text → Option (List Value × Text)
  | 0, _ => none
  | n + 1, s => do
    let (v, s) ← value n s
    match skipWs s with
    | [] => none
    | c :: s =>
      if c = closeBracket then some ([v], s)
      else if c = comma then do
        let (vs, s) ← elements n (skipWs s)
        some (v :: vs, s)
      else none

end

/-- `json.loads`. -/
def loads (s : Text) : Option Value :=
  match value (s.length + 1) (skipWs s) with
  | some (v, r) => if skipWs r = [] then some v else none
  | none => none

end Json
