import EthPanel.App.Protocol
import Mathlib.Data.List.Nodup

/-!
# What the parser makes of a JSON object

`protocol.c` never looks at braces or commas. On a flat object with distinct keys and strings
without escapes it reads what a JSON parser would: a quote that opens a string begins nothing but
that string, a quote that closes one is followed by blanks, a colon, a comma or the closing brace,
and so the only place where a quoted key with a colon after it occurs is the member with that key
(`findKey_text`).

`FlatObject` is such an object together with its layout, and `FlatObject.text` its bytes.
-/

namespace EthPanel

open Search

/-- `','`. -/
def comma : UInt8 := 0x2C

/-- `'{'` and `'}'`. -/
def openBrace : UInt8 := 0x7B
def closeBrace : UInt8 := 0x7D

/-- Spaces and tabs. -/
structure Blanks where
  bytes : List UInt8
  blank : ∀ c ∈ bytes, isBlank c = true

/-- The inside of a string that needs no escape: no quote, backslash or NUL. -/
structure PlainStr where
  bytes : List UInt8
  plain : ∀ c ∈ bytes, c ≠ quote ∧ c ≠ 0x5C ∧ c ≠ 0
  deriving DecidableEq

/-! The words of the protocol. -/

namespace PlainStr

def cmd : PlainStr := ⟨cstr "cmd", by decide +kernel⟩
def ring : PlainStr := ⟨cstr "ring", by decide +kernel⟩
def lamp : PlainStr := ⟨cstr "lamp", by decide +kernel⟩
def ping : PlainStr := ⟨cstr "ping", by decide +kernel⟩
def hello : PlainStr := ⟨cstr "hello", by decide +kernel⟩
def id : PlainStr := ⟨cstr "id", by decide +kernel⟩
def r : PlainStr := ⟨cstr "r", by decide +kernel⟩
def g : PlainStr := ⟨cstr "g", by decide +kernel⟩
def b : PlainStr := ⟨cstr "b", by decide +kernel⟩
def brightness : PlainStr := ⟨cstr "brightness", by decide +kernel⟩
def on : PlainStr := ⟨cstr "on", by decide +kernel⟩

end PlainStr

/-- A JSON integer as it is written: `-0` is one. -/
structure IntLit where
  neg : Bool
  mag : ℕ
  deriving DecidableEq

def IntLit.value (n : IntLit) : ℤ := if n.neg then -n.mag else n.mag

def IntLit.text (n : IntLit) : List UInt8 := (if n.neg then [0x2D] else []) ++ utf8 (decimal n.mag)

inductive Scalar
  | int (n : IntLit)
  | str (s : PlainStr)
  | bool (b : Bool)
  | null
  deriving DecidableEq

def Scalar.text : Scalar → List UInt8
  | .int n => n.text
  | .str s => quoted quote s.bytes
  | .bool b => if b then cstr "true" else cstr "false"
  | .null => cstr "null"

/-- A member, with the blanks around its tokens. -/
structure Member where
  pre : Blanks
  key : PlainStr
  mid : Blanks
  post : Blanks
  value : Scalar
  tail : Blanks

def Member.text (m : Member) : List UInt8 :=
  m.pre.bytes ++ (quoted quote m.key.bytes ++ (m.mid.bytes ++
    colon :: (m.post.bytes ++ (m.value.text ++ m.tail.bytes))))

structure FlatObject where
  lead : Blanks
  inner : Blanks
  trail : Blanks
  members : List Member
  distinct : (members.map fun m => m.key.bytes).Nodup

/-- The members after the first, and the end of the object. -/
def moreText (trail : List UInt8) : List Member → List UInt8
  | [] => closeBrace :: trail
  | m :: ms => comma :: (m.text ++ moreText trail ms)

def membersText (trail : List UInt8) : List Member → List UInt8
  | [] => closeBrace :: trail
  | m :: ms => m.text ++ moreText trail ms

def FlatObject.text (o : FlatObject) : List UInt8 :=
  o.lead.bytes ++ openBrace :: (o.inner.bytes ++ membersText o.trail.bytes o.members)

/-- The value of a key. -/
def FlatObject.get? (o : FlatObject) (key : List UInt8) : Option Scalar :=
  (o.members.find? fun m => m.key.bytes == key).map Member.value

/-- Neither the order of the members nor the layout has a part in it. -/
theorem FlatObject.get?_iff (o : FlatObject) (key : List UInt8) (v : Scalar) :
    o.get? key = some v ↔ ∃ m ∈ o.members, m.key.bytes = key ∧ m.value = v := by
  unfold FlatObject.get?
  rw [Option.map_eq_some_iff]
  constructor
  · rintro ⟨m, hfind, rfl⟩
    exact ⟨m, List.mem_of_find?_eq_some hfind, by simpa using List.find?_some hfind, rfl⟩
  · rintro ⟨m, hm, rfl, rfl⟩
    cases hfind : o.members.find? fun m' => m'.key.bytes == m.key.bytes with
    | none => exact absurd (beq_self_eq_true m.key.bytes) (List.find?_eq_none.mp hfind m hm)
    | some m' =>
      have hkey : m'.key.bytes = m.key.bytes := by simpa using List.find?_some hfind
      have hsame := List.inj_on_of_nodup_map o.distinct (List.mem_of_find?_eq_some hfind) hm hkey
      exact ⟨m', rfl, congrArg Member.value hsame⟩

/-! ### Without blanks -/

def Blanks.none : Blanks := ⟨[], fun _ hc => nomatch hc⟩

def Member.tight (key : PlainStr) (value : Scalar) : Member :=
  ⟨.none, key, .none, .none, value, .none⟩

def FlatObject.tight (members : List Member)
    (distinct : (members.map fun m => m.key.bytes).Nodup) : FlatObject :=
  ⟨.none, .none, .none, members, distinct⟩

/-! ## `find_key`, without its fuel -/

theorem quoted_ne_nil (w : List UInt8) : quoted quote w ≠ [] := List.cons_ne_nil _ _

theorem length_drop_of_find {w s p : List UInt8} (h : find (quoted quote w) s = some p) :
    (p.drop (quoted quote w).length).length < s.length := by
  obtain ⟨hpre, hsuf⟩ := find_some h
  have h₁ := hpre.length_le
  have h₂ := hsuf.length_le
  have h₃ : 0 < (quoted quote w).length := List.length_pos_of_ne_nil (quoted_ne_nil w)
  rw [List.length_drop]
  omega

theorem findKeyLoop_fuel {key s : List UInt8} {n m : ℕ} (hn : s.length ≤ n) (hm : s.length ≤ m) :
    findKeyLoop (quoted quote key) n s = findKeyLoop (quoted quote key) m s := by
  have hnil : ∀ n, findKeyLoop (quoted quote key) n [] = none := by
    intro n
    cases n with
    | zero => rfl
    | succ n => rw [findKeyLoop, find, if_neg (quoted_ne_nil key)]
  induction n generalizing m s with
  | zero => rw [List.length_eq_zero_iff.mp (Nat.le_zero.mp hn), hnil, hnil]
  | succ n ih =>
    cases m with
    | zero => rw [List.length_eq_zero_iff.mp (Nat.le_zero.mp hm), hnil, hnil]
    | succ m =>
      rw [findKeyLoop, findKeyLoop]
      cases hfind : find (quoted quote key) s with
      | none => rfl
      | some p =>
        have hlt := length_drop_of_find hfind
        simp only [@ih (p.drop (quoted quote key).length) m (by omega) (by omega)]

/-- One round of the loop. -/
theorem findKey_eq (json key : List UInt8) : findKey json key =
    match find (quoted quote key) json with
    | none => none
    | some p =>
      match skipBlanks (p.drop (quoted quote key).length) with
      | [] => findKey (p.drop (quoted quote key).length) key
      | c :: q =>
        if c = colon then some (skipBlanks q)
        else findKey (p.drop (quoted quote key).length) key := by
  unfold findKey
  rw [@findKeyLoop_fuel key json json.length (json.length + 1) (Nat.le_refl _) (Nat.le_succ _),
    findKeyLoop]
  cases hfind : find (quoted quote key) json with
  | none => rfl
  | some p =>
    have hlt := length_drop_of_find hfind
    have hfuel := @findKeyLoop_fuel key (p.drop (quoted quote key).length) json.length
      (p.drop (quoted quote key).length).length (by omega) (Nat.le_refl _)
    dsimp only
    cases skipBlanks (p.drop (quoted quote key).length) with
    | nil => exact hfuel
    | cons c q => rw [hfuel]

/-! ## Going through the text -/

theorem findKey_raw {raw : List UInt8} (h : quote ∉ raw) (s key : List UInt8) :
    findKey (raw ++ s) key = findKey s key := by
  rw [findKey_eq, findKey_eq, find_raw h]

theorem findKey_other {key w s : List UInt8} (hkey : quote ∉ key) (hw : quote ∉ w) (hne : key ≠ w)
    (hs : ¬ key ++ [quote] <+: s) : findKey (quoted quote w ++ s) key = findKey s key := by
  rw [findKey_eq, findKey_eq s, find_quoted_ne hkey hw hne hs]

theorem findKey_found (key s : List UInt8) : findKey (quoted quote key ++ s) key =
    match skipBlanks s with
    | [] => findKey s key
    | c :: q => if c = colon then some (skipBlanks q) else findKey s key := by
  rw [findKey_eq, find_quoted_self]
  simp only [List.drop_left]

@[simp] theorem skipBlanks_append (b : Blanks) (s : List UInt8) :
    skipBlanks (b.bytes ++ s) = skipBlanks s :=
  List.dropWhile_append_of_pos b.blank

theorem skipBlanks_cons {c : UInt8} (h : isBlank c = false) (s : List UInt8) :
    skipBlanks (c :: s) = c :: s := by
  rw [skipBlanks, List.dropWhile_cons_of_neg (by simp [h])]

/-- What can come after a token other than a value. -/
def isSep (c : UInt8) : Bool := isBlank c || c == colon || c == comma || c == closeBrace

/-- A key that does not begin like the text between two tokens. -/
structure KeyName (key : List UInt8) : Prop where
  noQuote : quote ∉ key
  head : key.head?.all (fun c => !isSep c) = true

theorem KeyName.not_prefix {key : List UInt8} (hkey : KeyName key) {c : UInt8}
    (hc : isSep c = true) (s : List UInt8) : ¬ key ++ [quote] <+: c :: s := by
  intro h
  cases key with
  | nil =>
    obtain rfl := (List.cons_prefix_cons.mp h).1
    exact absurd hc (by decide)
  | cons c' key =>
    obtain rfl := (List.cons_prefix_cons.mp h).1
    have hhead := hkey.head
    simp [hc] at hhead

/-- The text after a value: blanks, then a comma or the closing brace. -/
structure Ends (s : List UInt8) : Prop where
  after : ∃ (b : Blanks) (c : UInt8) (rest : List UInt8),
    (c = comma ∨ c = closeBrace) ∧ s = b.bytes ++ c :: rest

theorem isBlank_of_delim {c : UInt8} (h : c = comma ∨ c = closeBrace) :
    isBlank c = false ∧ c ≠ colon ∧ c ≠ quote := by
  rcases h with rfl | rfl <;> decide

theorem Ends.moreText (b : Blanks) (trail : List UInt8) (ms : List Member) :
    Ends (b.bytes ++ moreText trail ms) := by
  cases ms with
  | nil => exact ⟨b, closeBrace, trail, Or.inr rfl, rfl⟩
  | cons m ms => exact ⟨b, comma, _, Or.inl rfl, rfl⟩

theorem Ends.head {s : List UInt8} (h : Ends s) : ∃ c rest, s = c :: rest ∧ isSep c = true := by
  obtain ⟨b, c, rest, hc, rfl⟩ := h.after
  cases hb : b.bytes with
  | nil => exact ⟨c, rest, rfl, by rcases hc with rfl | rfl <;> decide⟩
  | cons c' bs =>
    have hblank := b.blank c' (by rw [hb]; exact List.mem_cons_self)
    exact ⟨c', bs ++ c :: rest, rfl, by rw [isSep, hblank]; rfl⟩

theorem Ends.skip {s : List UInt8} (h : Ends s) :
    ∃ c rest, skipBlanks s = c :: rest ∧ c ≠ colon := by
  obtain ⟨b, c, rest, hc, rfl⟩ := h.after
  obtain ⟨hblank, hcolon, _⟩ := isBlank_of_delim hc
  exact ⟨c, rest, by rw [skipBlanks_append, skipBlanks_cons hblank], hcolon⟩

/-! ## Values -/

theorem ne_of_isDigit {c d : UInt8} (h : isDigit c = true) (hd : isDigit d = false) : c ≠ d := by
  rintro rfl
  rw [h] at hd
  cases hd

theorem isBlank_of_ne {c : UInt8} (h₁ : c ≠ 0x20) (h₂ : c ≠ 0x09) : isBlank c = false := by
  simp [isBlank, h₁, h₂]

theorem IntLit.text_cons (n : IntLit) :
    ∃ c cs, n.text = c :: cs ∧ (c = 0x2D ∨ isDigit c = true) := by
  obtain ⟨c, cs, hcons, hdigit⟩ := decimal_cons n.mag
  unfold IntLit.text
  cases n.neg with
  | true => exact ⟨0x2D, utf8 (decimal n.mag), rfl, Or.inl rfl⟩
  | false => exact ⟨c, cs, by rw [hcons]; rfl, Or.inr hdigit⟩

theorem IntLit.mem_text {n : IntLit} {c : UInt8} (h : c ∈ n.text) :
    c = 0x2D ∨ isDigit c = true := by
  unfold IntLit.text at h
  rcases List.mem_append.mp h with h | h
  · split at h
    · exact Or.inl (List.mem_singleton.mp h)
    · cases h
  · exact Or.inr (decimal_isDigit n.mag c h)

theorem Scalar.text_cons (v : Scalar) : ∃ c cs, v.text = c :: cs ∧ isBlank c = false := by
  cases v with
  | int n =>
    obtain ⟨c, cs, hcons, hc⟩ := n.text_cons
    refine ⟨c, cs, hcons, ?_⟩
    rcases hc with rfl | hdigit
    · decide
    · exact isBlank_of_ne (ne_of_isDigit hdigit (by decide)) (ne_of_isDigit hdigit (by decide))
  | str s => exact ⟨quote, s.bytes ++ [quote], rfl, by decide⟩
  | bool b => cases b <;> exact ⟨_, _, rfl, by decide +kernel⟩
  | null => exact ⟨_, _, rfl, by decide +kernel⟩

theorem Scalar.noQuote {v : Scalar} (h : ∀ s, v ≠ .str s) : quote ∉ v.text := by
  cases v with
  | int n =>
    intro hq
    rcases IntLit.mem_text hq with hq | hq
    · exact absurd hq (by decide)
    · exact absurd hq (by decide)
  | str s => exact absurd rfl (h s)
  | bool b => cases b <;> decide +kernel
  | null => decide +kernel

theorem Blanks.noQuote (b : Blanks) : quote ∉ b.bytes := by
  intro hq
  exact absurd (b.blank quote hq) (by decide)

theorem PlainStr.noQuote (s : PlainStr) : quote ∉ s.bytes := fun hq => (s.plain quote hq).1 rfl

/-! ## Members -/

theorem findKey_value {key : List UInt8} (hkey : KeyName key) (v : Scalar) {s : List UInt8}
    (hs : Ends s) : findKey (v.text ++ s) key = findKey s key := by
  by_cases hstr : ∃ w, v = .str w
  · obtain ⟨w, rfl⟩ := hstr
    show findKey (quoted quote w.bytes ++ s) key = findKey s key
    by_cases heq : key = w.bytes
    · -- The value is the name of the key, but no colon comes after it.
      obtain ⟨c, rest, hskip, hcolon⟩ := hs.skip
      rw [heq, findKey_found, hskip]
      exact if_neg hcolon
    · obtain ⟨c, rest, rfl, hsep⟩ := hs.head
      exact findKey_other hkey.noQuote w.noQuote heq (hkey.not_prefix hsep rest)
  · exact findKey_raw (Scalar.noQuote fun w hw => hstr ⟨w, hw⟩) s key

theorem findKey_member_other {key : List UInt8} (hkey : KeyName key) {m : Member}
    (hne : m.key.bytes ≠ key) {s : List UInt8} (hs : Ends (m.tail.bytes ++ s)) :
    findKey (m.text ++ s) key = findKey s key := by
  have hcolon : quote ∉ [colon] := by decide
  have hmid : ¬ key ++ [quote] <+:
      m.mid.bytes ++ ([colon] ++ (m.post.bytes ++ (m.value.text ++ (m.tail.bytes ++ s)))) := by
    cases hb : m.mid.bytes with
    | nil => exact hkey.not_prefix (by decide) _
    | cons c bs =>
      have hblank := m.mid.blank c (by rw [hb]; exact List.mem_cons_self)
      exact hkey.not_prefix (by rw [isSep, hblank]; rfl) _
  have hshape : m.text ++ s = m.pre.bytes ++ (quoted quote m.key.bytes ++ (m.mid.bytes ++
      ([colon] ++ (m.post.bytes ++ (m.value.text ++ (m.tail.bytes ++ s)))))) := by
    simp [Member.text]
  rw [hshape, findKey_raw m.pre.noQuote, findKey_other hkey.noQuote m.key.noQuote hne.symm hmid,
    findKey_raw m.mid.noQuote, findKey_raw hcolon, findKey_raw m.post.noQuote,
    findKey_value hkey m.value hs, findKey_raw m.tail.noQuote]

theorem findKey_member_self (m : Member) (s : List UInt8) :
    findKey (m.text ++ s) m.key.bytes = some (m.value.text ++ (m.tail.bytes ++ s)) := by
  have hshape : m.text ++ s = m.pre.bytes ++ (quoted quote m.key.bytes ++ (m.mid.bytes ++
      colon :: (m.post.bytes ++ (m.value.text ++ (m.tail.bytes ++ s))))) := by
    simp [Member.text]
  obtain ⟨c, cs, hcons, hblank⟩ := m.value.text_cons
  rw [hshape, findKey_raw m.pre.noQuote, findKey_found, skipBlanks_append,
    skipBlanks_cons (by decide), hcons, List.cons_append]
  simp only [if_true, skipBlanks_append, skipBlanks_cons hblank]

/-- The value of the first of some members with the key, as `find_key` finds it. -/
theorem findKey_members {key : List UInt8} (hkey : KeyName key) (trail : Blanks)
    (ms : List Member) :
    ∃ after, Ends after ∧ findKey (moreText trail.bytes ms) key =
      (ms.find? fun m => m.key.bytes == key).map fun m => m.value.text ++ after := by
  induction ms with
  | nil =>
    have hend : Ends [closeBrace] := ⟨⟨[], fun c hc => nomatch hc⟩, closeBrace, [], Or.inr rfl, rfl⟩
    have hraw : quote ∉ closeBrace :: trail.bytes := by
      rw [List.mem_cons, not_or]
      exact ⟨by decide, trail.noQuote⟩
    refine ⟨_, hend, ?_⟩
    show findKey (closeBrace :: trail.bytes) key = none
    rw [← List.append_nil (closeBrace :: trail.bytes), findKey_raw hraw]
    rfl
  | cons m ms ih =>
    have hcomma : quote ∉ [comma] := by decide
    have hshape : moreText trail.bytes (m :: ms) = [comma] ++ (m.text ++ moreText trail.bytes ms) :=
      rfl
    rw [hshape, findKey_raw hcomma]
    by_cases heq : m.key.bytes = key
    · refine ⟨m.tail.bytes ++ moreText trail.bytes ms, .moreText _ _ _, ?_⟩
      rw [← heq, findKey_member_self, List.find?_cons_of_pos (by simp)]
      rfl
    · rw [findKey_member_other hkey heq (.moreText _ _ _),
        List.find?_cons_of_neg (by simpa using heq)]
      exact ih

/-- **Field lookup is right**: `find_key` points at the value of the member with the key. -/
theorem findKey_text {key : List UInt8} (hkey : KeyName key) (o : FlatObject) :
    ∃ after, Ends after ∧ findKey o.text key = (o.get? key).map fun v => v.text ++ after := by
  have hopen : quote ∉ [openBrace] := by decide
  have hcomma : quote ∉ [comma] := by decide
  have hskip : findKey o.text key = findKey (moreText o.trail.bytes o.members) key := by
    have hshape : o.text = o.lead.bytes ++ ([openBrace] ++
      (o.inner.bytes ++ membersText o.trail.bytes o.members)) := rfl
    rw [hshape, findKey_raw o.lead.noQuote, findKey_raw hopen, findKey_raw o.inner.noQuote]
    cases hms : o.members with
    | nil => rfl
    | cons m ms => exact (findKey_raw hcomma _ key).symm
  obtain ⟨after, hafter, hfind⟩ := findKey_members hkey o.trail o.members
  refine ⟨after, hafter, ?_⟩
  rw [hskip, hfind, FlatObject.get?, Option.map_map]
  rfl

/-! ## As a C string -/

theorem isSep_of_blank (b : Blanks) {c : UInt8} (hc : c ∈ b.bytes) : isSep c = true := by
  rw [isSep, b.blank c hc]
  rfl

/-- What a byte of a member can be. -/
theorem Member.mem_text {m : Member} {c : UInt8} (hc : c ∈ m.text) :
    isSep c = true ∨ c = quote ∨ c ∈ m.key.bytes ∨ c ∈ m.value.text := by
  simp only [Member.text, quoted, List.mem_cons, List.mem_append, List.not_mem_nil,
    or_false] at hc
  rcases hc with hc | (hc | hc | hc) | hc | rfl | hc | hc | hc
  · exact Or.inl (isSep_of_blank _ hc)
  · exact Or.inr (Or.inl hc)
  · exact Or.inr (Or.inr (Or.inl hc))
  · exact Or.inr (Or.inl hc)
  · exact Or.inl (isSep_of_blank _ hc)
  · exact Or.inl (by decide)
  · exact Or.inl (isSep_of_blank _ hc)
  · exact Or.inr (Or.inr (Or.inr hc))
  · exact Or.inl (isSep_of_blank _ hc)

theorem mem_moreText {trail : Blanks} {ms : List Member} {c : UInt8}
    (hc : c ∈ moreText trail.bytes ms) : isSep c = true ∨ ∃ m ∈ ms, c ∈ m.text := by
  induction ms with
  | nil =>
    rcases List.mem_cons.mp hc with rfl | hc
    · exact Or.inl (by decide)
    · exact Or.inl (isSep_of_blank _ hc)
  | cons m ms ih =>
    rcases List.mem_cons.mp hc with rfl | hc
    · exact Or.inl (by decide)
    · rcases List.mem_append.mp hc with hc | hc
      · exact Or.inr ⟨m, List.mem_cons_self, hc⟩
      · rcases ih hc with hsep | ⟨m', hm', hc⟩
        · exact Or.inl hsep
        · exact Or.inr ⟨m', List.mem_cons_of_mem m hm', hc⟩

theorem FlatObject.mem_text {o : FlatObject} {c : UInt8} (hc : c ∈ o.text) :
    isSep c = true ∨ c = openBrace ∨ ∃ m ∈ o.members, c ∈ m.text := by
  rcases List.mem_append.mp hc with hc | hc
  · exact Or.inl (isSep_of_blank _ hc)
  rcases List.mem_cons.mp hc with hc | hc
  · exact Or.inr (Or.inl hc)
  rcases List.mem_append.mp hc with hc | hc
  · exact Or.inl (isSep_of_blank _ hc)
  have hmore : c ∈ moreText o.trail.bytes o.members := by
    cases hms : o.members with
    | nil => rwa [hms] at hc
    | cons m ms =>
      rw [hms] at hc
      exact List.mem_cons_of_mem comma hc
  rcases mem_moreText hmore with hsep | hm
  · exact Or.inl hsep
  · exact Or.inr (Or.inr hm)

theorem Scalar.noNul (v : Scalar) : ∀ c ∈ v.text, c ≠ 0 := by
  intro c hc
  cases v with
  | int n =>
    rcases IntLit.mem_text hc with rfl | hdigit
    · decide
    · exact ne_of_isDigit hdigit (by decide)
  | str s =>
    simp only [Scalar.text, quoted, List.mem_cons, List.mem_append, List.not_mem_nil,
      or_false] at hc
    rcases hc with rfl | hc | rfl
    · decide
    · exact (s.plain c hc).2.2
    · decide
  | bool b =>
    have hbool : ∀ b, ∀ c ∈ (Scalar.bool b).text, c ≠ 0 := by decide +kernel
    exact hbool b c hc
  | null =>
    have hnull : ∀ c ∈ Scalar.null.text, c ≠ 0 := by decide +kernel
    exact hnull c hc

theorem FlatObject.noNul (o : FlatObject) : ∀ c ∈ o.text, c ≠ 0 := by
  intro c hc
  have hsep : isSep c = true → c ≠ 0 := by
    rintro h rfl
    exact absurd h (by decide)
  rcases o.mem_text hc with h | rfl | ⟨m, _, hm⟩
  · exact hsep h
  · decide
  · rcases m.mem_text hm with h | rfl | hkey | hvalue
    · exact hsep h
    · decide
    · exact (m.key.plain c hkey).2.2
    · exact m.value.noNul c hvalue

/-- The object as `dispatch` gets it. -/
def FlatObject.line (o : FlatObject) : CString := ⟨o.text, o.noNul⟩

end EthPanel
