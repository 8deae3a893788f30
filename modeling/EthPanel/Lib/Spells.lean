import EthPanel.Lib.Json
import Mathlib.Data.List.Forall2
import Mathlib.Data.List.Nodup

/-!
# The rules of JSON's grammar

`Spells t v` says that the text `t` is read as the value `v` wherever it stands. The lemmas about it
are the rules of the grammar, one for each kind of value, with the layout around the tokens free;
strings need no escape and numbers are integers. `loads_spells` is the way out.
-/

namespace Json

/-- What comes after a value takes no number further. -/
def Stops (s : Text) : Prop :=
  ∀ c r, s = c :: r → isDigit c = false ∧ c ≠ 0x2E ∧ c ≠ 0x65 ∧ c ≠ 0x45

def Ws (s : Text) : Prop := ∀ c ∈ s, isWs c = true

theorem Ws.nil : Ws [] := fun _ h => nomatch h

theorem Ws.append {s t : Text} (hs : Ws s) (ht : Ws t) : Ws (s ++ t) := by
  intro c hc
  rcases List.mem_append.mp hc with hc | hc
  · exact hs c hc
  · exact ht c hc

/-- The text `t` is read as the value `v`, wherever it stands. -/
structure Spells (t : Text) (v : Value) : Prop where
  opens : ∃ c r, t = c :: r ∧ isWs c = false ∧ c ≠ closeBracket
  reads : ∀ n s, t.length ≤ n → Stops s → value n (t ++ s) = some (v, s)

theorem skipWs_append {a : Text} (ha : Ws a) (s : Text) : skipWs (a ++ s) = skipWs s :=
  List.dropWhile_append_of_pos ha

theorem skipWs_cons {c : ℕ} (h : isWs c = false) (s : Text) : skipWs (c :: s) = c :: s := by
  rw [skipWs, List.dropWhile_cons_of_neg (by simp [h])]

theorem Spells.skipWs {t : Text} {v : Value} (h : Spells t v) {a : Text} (ha : Ws a) (s : Text) :
    skipWs (a ++ (t ++ s)) = t ++ s := by
  obtain ⟨c, r, rfl, hc, _⟩ := h.opens
  rw [skipWs_append ha, List.cons_append, skipWs_cons hc]

theorem isDigit_of_isWs {c : ℕ} (h : isWs c = true) : isDigit c = false ∧ c ≠ 0x2E ∧ c ≠ 0x65 ∧
    c ≠ 0x45 := by
  simp only [isWs, Bool.or_eq_true, beq_iff_eq] at h
  rcases h with ((rfl | rfl) | rfl) | rfl <;> decide

/-- White space and then a token. -/
theorem Stops.of_token {b : Text} (hb : Ws b) {c : ℕ}
    (hc : isDigit c = false ∧ c ≠ 0x2E ∧ c ≠ 0x65 ∧ c ≠ 0x45) (s : Text) :
    Stops (b ++ c :: s) := by
  intro d r heq
  cases b with
  | nil =>
    obtain ⟨rfl, _⟩ := List.cons.inj heq
    exact hc
  | cons e b =>
    obtain ⟨rfl, _⟩ := List.cons.inj heq
    exact isDigit_of_isWs (hb e List.mem_cons_self)

theorem Stops.ws {b : Text} (hb : Ws b) : Stops b := by
  rintro c r rfl
  exact isDigit_of_isWs (hb c List.mem_cons_self)

/-- **A spelled value with white space around it is what `loads` reads.** -/
theorem loads_spells {t : Text} {v : Value} (h : Spells t v) {a b : Text} (ha : Ws a) (hb : Ws b) :
    loads (a ++ (t ++ b)) = some v := by
  have hend : Json.skipWs b = [] := by
    have := skipWs_append hb []
    rwa [List.append_nil] at this
  have hlen : t.length ≤ (a ++ (t ++ b)).length + 1 := by
    simp only [List.length_append]
    omega
  rw [loads, h.skipWs ha, h.reads _ _ hlen (Stops.ws hb)]
  exact if_pos hend

/-! ### Words and strings -/

theorem spells_null : Spells (text "null") .null where
  opens := ⟨0x6E, text "ull", rfl, rfl, by decide⟩
  reads n s hn _ := by
    obtain ⟨m, rfl⟩ := Nat.exists_eq_add_of_lt (show 0 < n from Nat.lt_of_lt_of_le (by decide) hn)
    rfl

theorem spells_bool (b : Bool) : Spells (text (if b then "true" else "false")) (.bool b) := by
  cases b with
  | true =>
    refine ⟨⟨0x74, text "rue", rfl, rfl, by decide⟩, fun n s hn _ => ?_⟩
    obtain ⟨m, rfl⟩ := Nat.exists_eq_add_of_lt (show 0 < n from Nat.lt_of_lt_of_le (by decide) hn)
    rfl
  | false =>
    refine ⟨⟨0x66, text "alse", rfl, rfl, by decide⟩, fun n s hn _ => ?_⟩
    obtain ⟨m, rfl⟩ := Nat.exists_eq_add_of_lt (show 0 < n from Nat.lt_of_lt_of_le (by decide) hn)
    rfl

/-- The inside of a string that needs no escape. -/
def Plain (w : Text) : Prop := ∀ c ∈ w, 0x20 ≤ c ∧ c ≠ quote ∧ c ≠ backslash

instance (w : Text) : Decidable (Plain w) := List.decidableBAll _ w

def quoted (w : Text) : Text := quote :: (w ++ [quote])

theorem scanString_plain {w : Text} (hw : Plain w) {n : ℕ} (hn : w.length < n) (s : Text) :
    scanString n (w ++ quote :: s) = some (w, s) := by
  induction w generalizing n with
  | nil =>
    obtain ⟨m, rfl⟩ := Nat.exists_eq_add_of_lt hn
    rfl
  | cons c w ih =>
    obtain ⟨hmin, hquote, hback⟩ := hw c List.mem_cons_self
    cases n with
    | zero => cases hn
    | succ n =>
      rw [List.cons_append, scanString, if_neg hquote, if_neg hback, if_neg (by omega),
        ih (fun d hd => hw d (List.mem_cons_of_mem c hd)) (by simpa using hn)]
      rfl

theorem scanString_quoted {w : Text} (hw : Plain w) (s : Text) :
    scanString ((w ++ quote :: s).length + 1) (w ++ quote :: s) = some (w, s) := by
  refine scanString_plain hw ?_ s
  simp only [List.length_append]
  omega

theorem quoted_append (w s : Text) : quoted w ++ s = quote :: (w ++ quote :: s) := by
  simp [quoted]

theorem spells_str {w : Text} (hw : Plain w) : Spells (quoted w) (.str w) where
  opens := ⟨quote, w ++ [quote], rfl, by decide, by decide⟩
  reads n s hn _ := by
    cases n with
    | zero => cases hn
    | succ n =>
      rw [quoted_append, value, if_pos rfl, scanString_quoted hw]
      rfl

/-! ### Integers -/

/-- The decimal digits of a number. -/
def digits (n : ℕ) : Text := (Nat.toDigits 10 n).map Char.toNat

theorem digits_isDigit (n : ℕ) : ∀ c ∈ digits n, isDigit c = true := by
  intro c hc
  obtain ⟨d, hd, rfl⟩ := List.mem_map.mp hc
  have hdigit := Nat.isDigit_of_mem_toDigits (by omega) (by omega) hd
  simpa [Char.isDigit, isDigit, UInt32.le_iff_toNat_le] using hdigit

theorem digitsVal_digits (n : ℕ) : digitsVal (digits n) = n := by
  have hfold : ∀ (cs : List Char) (v : ℕ),
      (cs.map Char.toNat).foldl (fun v c => 10 * v + (c - 0x30)) v = Nat.ofDigitChars 10 cs v := by
    intro cs
    induction cs with
    | nil => intro v; rfl
    | cons c cs ih =>
      intro v
      rw [List.map_cons, List.foldl_cons, ih, Nat.ofDigitChars_cons]
      rfl
  rw [digitsVal, digits, hfold, Nat.ofDigitChars_ten_toDigits]

theorem digits_ne_nil (n : ℕ) : digits n ≠ [] := by
  rw [digits, Ne, List.map_eq_nil_iff]
  exact Nat.toDigits_ne_nil

/-- No number but zero is written with a leading zero. -/
theorem head_digits {n : ℕ} (hn : n ≠ 0) : (digits n).head? ≠ some 0x30 := by
  induction n using Nat.strongRecOn with
  | ind n ih =>
    have hsplit := Nat.toDigits_eq_if (n := n) (show 1 < 10 by omega)
    rw [digits, hsplit]
    by_cases hlt : n < 10
    · have hdigit : ∀ n < 10, n ≠ 0 → [Nat.digitChar n].map Char.toNat ≠ [0x30] := by decide
      rw [if_pos hlt]
      intro h
      refine hdigit n hlt hn ?_
      simpa using h
    · have hrec := ih (n / 10) (by omega) (by omega)
      rw [if_neg hlt, List.map_append, List.head?_append]
      cases hd : digits (n / 10) with
      | nil => exact absurd hd (digits_ne_nil (n / 10))
      | cons c cs =>
        rw [hd] at hrec
        unfold digits at hd
        rw [hd]
        exact hrec

/-- An integer as it is written: `-0` is one. -/
def intText (neg : Bool) (mag : ℕ) : Text := (if neg then [minus] else []) ++ digits mag

def intValue (neg : Bool) (mag : ℕ) : ℤ := if neg then -mag else mag

theorem Stops.takeWhile {s : Text} (hs : Stops s) : s.takeWhile isDigit = [] := by
  cases s with
  | nil => rfl
  | cons c s => exact List.takeWhile_cons_of_neg (by simp [(hs c s rfl).1])

theorem Stops.fraction {s : Text} (hs : Stops s) : fraction s = [] := by
  cases s with
  | nil => rfl
  | cons c s =>
    have hc := (hs c s rfl).2.1
    unfold Json.fraction
    split
    · rename_i heq
      exact absurd (List.cons.inj heq).1 hc
    · rfl

theorem Stops.exponent {s : Text} (hs : Stops s) : exponent s = [] := by
  cases s with
  | nil => rfl
  | cons c s =>
    obtain ⟨_, _, he, hE⟩ := hs c s rfl
    rw [Json.exponent, if_neg (by rintro (h | h) <;> contradiction)]

theorem wholePart_digits (n : ℕ) {s : Text} (hs : Stops s) :
    wholePart (digits n ++ s) = digits n := by
  have htake : (digits n ++ s).takeWhile isDigit = digits n := by
    rw [List.takeWhile_append_of_pos (digits_isDigit n), hs.takeWhile, List.append_nil]
  by_cases hn : n = 0
  · subst hn
    rfl
  · cases hd : digits n with
    | nil => exact absurd hd (digits_ne_nil n)
    | cons c cs =>
      have hne : c ≠ 0x30 := by
        rintro rfl
        exact head_digits hn (by rw [hd]; rfl)
      rw [hd, List.cons_append] at htake
      rw [List.cons_append, wholePart, if_neg hne, htake]

theorem magnitude_digits (neg : Bool) (n : ℕ) {s : Text} (hs : Stops s) :
    magnitude neg (digits n ++ s) = some (.int (intValue neg n), s) := by
  simp only [magnitude, wholePart_digits n hs, List.drop_left, hs.fraction, List.length_nil,
    List.drop_zero, hs.exponent, if_neg (digits_ne_nil n), and_self, if_true, digitsVal_digits]
  rfl

theorem number_intText (neg : Bool) (n : ℕ) {s : Text} (hs : Stops s) :
    number (intText neg n ++ s) = some (.int (intValue neg n), s) := by
  have hmag := magnitude_digits neg n hs
  cases neg with
  | true => exact hmag
  | false =>
    cases hd : digits n with
    | nil => exact absurd hd (digits_ne_nil n)
    | cons c cs =>
      have hdigit := digits_isDigit n c (by rw [hd]; exact List.mem_cons_self)
      have hne : c ≠ minus := by
        rintro rfl
        cases hdigit
      rw [hd] at hmag
      rw [intText, hd]
      exact (if_neg hne).trans hmag

/-- An integer begins with a digit or a minus and a digit, which no other token does. -/
theorem intText_opens (neg : Bool) (n : ℕ) : ∃ c r, intText neg n = c :: r ∧
    (isDigit c = true ∨ c = minus ∧ ∃ d r', r = d :: r' ∧ isDigit d = true) := by
  cases hd : digits n with
  | nil => exact absurd hd (digits_ne_nil n)
  | cons c cs =>
    have hdigit := digits_isDigit n c (by rw [hd]; exact List.mem_cons_self)
    rw [intText, hd]
    cases neg with
    | true => exact ⟨minus, c :: cs, rfl, Or.inr ⟨rfl, c, cs, rfl, hdigit⟩⟩
    | false => exact ⟨c, cs, rfl, Or.inl hdigit⟩

theorem ne_of_isDigit {c d : ℕ} (h : isDigit c = true) (hd : isDigit d = false) : c ≠ d := by
  rintro rfl
  rw [h] at hd
  cases hd

theorem literal_intText (neg : Bool) (n : ℕ) (s : Text) : literal (intText neg n ++ s) = none := by
  obtain ⟨c, r, hcons, hopen⟩ := intText_opens neg n
  have hstart : ∀ l ∈ literals, l.1.isPrefixOf (intText neg n ++ s) = false := by
    have hheads : ∀ l ∈ literals, ∃ a b t, l.1 = a :: b :: t ∧ isDigit a = false ∧
        (a = minus → isDigit b = false) := by
      intro l hl
      simp only [literals, List.mem_cons, List.not_mem_nil, or_false] at hl
      rcases hl with rfl | rfl | rfl | rfl | rfl | rfl <;>
        exact ⟨_, _, _, rfl, rfl, by decide⟩
    intro l hl
    obtain ⟨a, b, t, heq, ha, hb⟩ := hheads l hl
    rw [hcons, heq, List.cons_append, List.isPrefixOf]
    rcases hopen with hdigit | ⟨rfl, d, r', rfl, hdigit⟩
    · rw [beq_false_of_ne (ne_of_isDigit hdigit ha).symm, Bool.false_and]
    · by_cases hm : a = minus
      · rw [List.cons_append, List.isPrefixOf, beq_false_of_ne (ne_of_isDigit hdigit (hb hm)).symm,
          Bool.false_and, Bool.and_false]
      · rw [beq_false_of_ne hm, Bool.false_and]
  rw [literal, List.findSome?_eq_none_iff]
  intro l hl
  rw [hstart l hl]
  rfl

theorem spells_int (neg : Bool) (n : ℕ) : Spells (intText neg n) (.int (intValue neg n)) := by
  obtain ⟨c, r, hcons, hopen⟩ := intText_opens neg n
  have hc : ∀ d, isDigit d = false → d ≠ minus → c ≠ d := by
    intro d hd hm
    rcases hopen with hdigit | ⟨rfl, _⟩
    · exact ne_of_isDigit hdigit hd
    · exact hm.symm
  have hws : isWs c = false := by
    rcases hopen with hdigit | ⟨rfl, _⟩
    · simp [isWs, ne_of_isDigit hdigit (d := 0x20) rfl, ne_of_isDigit hdigit (d := 0x09) rfl,
        ne_of_isDigit hdigit (d := 0x0A) rfl, ne_of_isDigit hdigit (d := 0x0D) rfl]
    · rfl
  refine ⟨⟨c, r, hcons, hws, hc _ rfl (by decide)⟩, fun m s hm hs => ?_⟩
  have hread : (literal (intText neg n ++ s)).or (number (intText neg n ++ s))
      = some (.int (intValue neg n), s) := by
    rw [literal_intText, number_intText neg n hs]
    rfl
  rw [hcons] at hm
  rw [hcons, List.cons_append] at hread ⊢
  cases m with
  | zero => cases hm
  | succ m =>
    rw [value, if_neg (hc _ rfl (by decide)), if_neg (hc _ rfl (by decide)),
      if_neg (hc _ rfl (by decide)), hread]

/-! ### Arrays and objects -/

/-- A value with white space around it. -/
def Padded (t : Text) (v : Value) : Prop :=
  ∃ a u b, t = a ++ (u ++ b) ∧ Ws a ∧ Ws b ∧ Spells u v

theorem Padded.tight {t : Text} {v : Value} (h : Spells t v) : Padded t v :=
  ⟨[], t, [], by simp, .nil, .nil, h⟩

/-- What follows the first of the parts of an array or an object. -/
def moreText (close : ℕ) : List Text → Text
  | [] => [close]
  | t :: ts => comma :: (t ++ moreText close ts)

theorem stops_moreText {b : Text} (hb : Ws b) {close : ℕ}
    (hclose : close = closeBracket ∨ close = closeBrace) (ts : List Text) (s : Text) :
    Stops (b ++ (moreText close ts ++ s)) := by
  cases ts with
  | nil =>
    refine Stops.of_token hb ?_ s
    rcases hclose with rfl | rfl <;> decide
  | cons t ts => exact Stops.of_token hb (by decide) _

/-- Induction on the elements after the first. -/
theorem elements_spells {ts : List Text} {vs : List Value} (h : List.Forall₂ Padded ts vs)
    {u b : Text} {v : Value} (hu : Spells u v) (hb : Ws b) {n : ℕ}
    (hn : u.length + (moreText closeBracket ts).length ≤ n) (s : Text) :
    elements n (u ++ (b ++ (moreText closeBracket ts ++ s))) = some (v :: vs, s) := by
  induction h generalizing u b v n with
  | nil =>
    obtain ⟨m, rfl⟩ := Nat.exists_eq_add_of_lt
      (show u.length < n by simp only [moreText, List.length_singleton] at hn; omega)
    have hread := hu.reads (u.length + m) (b ++ (moreText closeBracket [] ++ s)) (by omega)
      (stops_moreText hb (Or.inl rfl) [] s)
    rw [elements, hread]
    simp only [Option.bind_eq_bind, Option.bind_some, skipWs_append hb, moreText,
      List.singleton_append, skipWs_cons (show isWs closeBracket = false from rfl), if_true]
  | @cons t v' ts vs ht _ ih =>
    obtain ⟨a, u', b', rfl, ha, hb', hu'⟩ := ht
    obtain ⟨m, rfl⟩ := Nat.exists_eq_add_of_lt
      (show u.length < n by simp only [moreText, List.length_cons] at hn; omega)
    have hread := hu.reads (u.length + m)
      (b ++ (moreText closeBracket ((a ++ (u' ++ b')) :: ts) ++ s)) (by omega)
      (stops_moreText hb (Or.inl rfl) _ s)
    have hlen : u'.length + (moreText closeBracket ts).length ≤ u.length + m := by
      simp only [moreText, List.length_cons, List.length_append] at hn
      omega
    have hrest := ih hu' hb' hlen
    rw [elements, hread]
    simp only [Option.bind_eq_bind, Option.bind_some, skipWs_append hb, moreText, List.cons_append,
      skipWs_cons (show isWs comma = false from rfl), List.append_assoc, hu'.skipWs ha, hrest,
      if_neg (show comma ≠ closeBracket by decide), if_true]

theorem spells_arr {t : Text} {v : Value} {ts : List Text} {vs : List Value} (ht : Padded t v)
    (h : List.Forall₂ Padded ts vs) :
    Spells (openBracket :: (t ++ moreText closeBracket ts)) (.arr (v :: vs)) := by
  obtain ⟨a, u, b, rfl, ha, hb, hu⟩ := ht
  refine ⟨⟨openBracket, _, rfl, by decide, by decide⟩, fun n s hn _ => ?_⟩
  cases n with
  | zero => cases hn
  | succ n =>
    have hlen : u.length + (moreText closeBracket ts).length ≤ n := by
      simp only [List.length_cons, List.length_append] at hn
      omega
    have hnot :
        (expect closeBracket (u ++ (b ++ (moreText closeBracket ts ++ s)))).isSome = false := by
      obtain ⟨c, r, hcons, _, hc⟩ := hu.opens
      rw [hcons, List.cons_append, expect, if_neg hc]
      rfl
    have hread := elements_spells h hu hb hlen s
    simp only [List.cons_append, List.append_assoc, value, hu.skipWs ha, hnot, hread,
      if_neg (show openBracket ≠ quote by decide), if_neg (show openBracket ≠ openBrace by decide)]
    rfl

/-- A member with white space around its tokens. -/
def PaddedMember (t : Text) (m : Text × Value) : Prop :=
  ∃ a mid post u b, t = a ++ (quoted m.1 ++ (mid ++ colon :: (post ++ (u ++ b)))) ∧
    Ws a ∧ Ws mid ∧ Ws post ∧ Ws b ∧ Plain m.1 ∧ Spells u m.2

theorem PaddedMember.tight {key u : Text} {v : Value} (hkey : Plain key) (hu : Spells u v) :
    PaddedMember (quoted key ++ colon :: u) (key, v) :=
  ⟨[], [], [], u, [], by simp, .nil, .nil, .nil, .nil, hkey, hu⟩

/-- Induction on the members after the first. -/
theorem members_spells {ts : List Text} {ms : List (Text × Value)}
    (h : List.Forall₂ PaddedMember ts ms) {key mid post u b : Text} {v : Value} (hkey : Plain key)
    (hmid : Ws mid) (hpost : Ws post) (hu : Spells u v) (hb : Ws b) {n : ℕ}
    (hn : u.length + (moreText closeBrace ts).length ≤ n) (s : Text) :
    members n
        (quoted key ++ (mid ++ colon :: (post ++ (u ++ (b ++ (moreText closeBrace ts ++ s)))))) =
      some ((key, v) :: ms, s) := by
  induction h generalizing key mid post u b v n with
  | nil =>
    obtain ⟨m, rfl⟩ := Nat.exists_eq_add_of_lt
      (show u.length < n by simp only [moreText, List.length_singleton] at hn; omega)
    have hread := hu.reads (u.length + m) (b ++ (moreText closeBrace [] ++ s)) (by omega)
      (stops_moreText hb (Or.inr rfl) [] s)
    rw [members, quoted_append]
    simp only [expect, if_true, Option.bind_eq_bind, Option.bind_some, scanString_quoted hkey,
      skipWs_append hmid, skipWs_cons (show isWs colon = false from rfl), hu.skipWs hpost, hread,
      skipWs_append hb]
    simp only [moreText, List.singleton_append, skipWs_cons (show isWs closeBrace = false from rfl),
      if_true]
  | @cons t m' ts ms ht _ ih =>
    obtain ⟨a, mid', post', u', b', rfl, ha, hmid', hpost', hb', hkey', hu'⟩ := ht
    obtain ⟨m, rfl⟩ := Nat.exists_eq_add_of_lt
      (show u.length < n by simp only [moreText, List.length_cons] at hn; omega)
    have hread := fun rest => hu.reads (u.length + m)
      (b ++ (moreText closeBrace (rest :: ts) ++ s)) (by omega)
      (stops_moreText hb (Or.inr rfl) _ s)
    have hlen : u'.length + (moreText closeBrace ts).length ≤ u.length + m := by
      simp only [moreText, List.length_cons, List.length_append] at hn
      omega
    have hrest := ih hkey' hmid' hpost' hu' hb' hlen
    rw [members, quoted_append]
    simp only [expect, if_true, Option.bind_eq_bind, Option.bind_some, scanString_quoted hkey,
      skipWs_append hmid, skipWs_cons (show isWs colon = false from rfl), hu.skipWs hpost, hread,
      skipWs_append hb]
    simp only [quoted_append] at hrest
    simp only [moreText, List.cons_append, skipWs_cons (show isWs comma = false from rfl),
      List.append_assoc, skipWs_append ha, quoted_append,
      skipWs_cons (show isWs quote = false from rfl), hrest,
      if_neg (show comma ≠ closeBrace by decide), if_true, Option.bind_some]

theorem spells_obj {t : Text} {m : Text × Value} {ts : List Text} {ms : List (Text × Value)}
    (ht : PaddedMember t m) (h : List.Forall₂ PaddedMember ts ms) :
    Spells (openBrace :: (t ++ moreText closeBrace ts)) (.obj (m :: ms)) := by
  obtain ⟨a, mid, post, u, b, rfl, ha, hmid, hpost, hb, hkey, hu⟩ := ht
  refine ⟨⟨openBrace, _, rfl, by decide, by decide⟩, fun n s hn _ => ?_⟩
  cases n with
  | zero => cases hn
  | succ n =>
    have hlen : u.length + (moreText closeBrace ts).length ≤ n := by
      simp only [List.length_cons, List.length_append] at hn
      omega
    have hread := members_spells h hkey hmid hpost hu hb hlen s
    have hnot : ∀ r, (expect closeBrace (quote :: r)).isSome = false := fun _ => rfl
    rw [quoted_append] at hread
    simp only [List.cons_append, List.append_assoc, value, skipWs_append ha, quoted_append,
      skipWs_cons (show isWs quote = false from rfl), hnot, hread,
      if_neg (show openBrace ≠ quote by decide)]
    rfl

/-- The object without members. -/
theorem spells_empty {a : Text} (ha : Ws a) :
    Spells (openBrace :: (a ++ [closeBrace])) (.obj []) := by
  refine ⟨⟨openBrace, _, rfl, by decide, by decide⟩, fun n s hn _ => ?_⟩
  cases n with
  | zero => cases hn
  | succ n =>
    simp only [List.cons_append, List.append_assoc, value, skipWs_append ha,
      skipWs_cons (show isWs closeBrace = false from rfl),
      if_neg (show openBrace ≠ quote by decide)]
    rfl

/-! ### Looking a key up -/

/-- Among distinct keys the order does not matter. -/
theorem get?_of_mem {ms : List (Text × Value)} (hnd : (ms.map Prod.fst).Nodup) {key : Text}
    {v : Value} (h : (key, v) ∈ ms) : get? ms key = some v := by
  unfold get?
  cases hfind : ms.reverse.find? fun m => m.1 == key with
  | none =>
    have hnot := List.find?_eq_none.mp hfind (key, v) (List.mem_reverse.mpr h)
    exact absurd (beq_self_eq_true key) hnot
  | some m =>
    have hmem : m ∈ ms := List.mem_reverse.mp (List.mem_of_find?_eq_some hfind)
    have hkey : m.1 = key := by simpa using List.find?_some hfind
    rw [List.inj_on_of_nodup_map hnd hmem h hkey]
    rfl

/-! ## What is an object -/

theorem magnitude_ne_obj {neg : Bool} {s r : Text} {o : List (Text × Value)} :
    magnitude neg s ≠ some (.obj o, r) := by
  unfold magnitude
  dsimp only
  split_ifs <;> simp

theorem number_ne_obj {s r : Text} {o : List (Text × Value)} : number s ≠ some (.obj o, r) := by
  unfold number
  split
  · simp
  · split_ifs <;> exact magnitude_ne_obj

theorem literal_ne_obj {s r : Text} {o : List (Text × Value)} : literal s ≠ some (.obj o, r) := by
  intro h
  obtain ⟨l, hl, hlit⟩ := List.exists_of_findSome?_eq_some h
  split at hlit
  · have hvalue : l.2 = .obj o := (Prod.mk.inj (Option.some.inj hlit)).1
    simp only [literals, List.mem_cons, List.not_mem_nil, or_false] at hl
    rcases hl with rfl | rfl | rfl | rfl | rfl | rfl <;> cases hvalue
  · cases hlit

/-- Only a brace begins an object. -/
theorem value_obj {n : ℕ} {s r : Text} {o : List (Text × Value)}
    (h : value n s = some (.obj o, r)) :
    openBrace ∈ s := by
  rcases n with _ | n
  · simp [value] at h
  · rcases s with _ | ⟨c, s⟩
    · simp [value] at h
    · by_cases hbrace : c = openBrace
      · rw [hbrace]
        exact List.mem_cons_self
      · unfold value at h
        rw [if_neg hbrace] at h
        split_ifs at h
        · simp only [Option.bind_eq_bind, Option.bind_eq_some_iff] at h
          obtain ⟨w, -, heq⟩ := h
          simp at heq
        · simp at h
        · simp only [Option.bind_eq_bind, Option.bind_eq_some_iff] at h
          obtain ⟨w, -, heq⟩ := h
          simp at heq
        · rcases Option.or_eq_some_iff.mp h with h | ⟨-, h⟩
          · exact absurd h literal_ne_obj
          · exact absurd h number_ne_obj

theorem loads_obj {s : Text} {o : List (Text × Value)} (h : loads s = some (.obj o)) :
    openBrace ∈ s := by
  unfold loads at h
  cases hvalue : value (s.length + 1) (skipWs s) with
  | none => simp [hvalue] at h
  | some p =>
    obtain ⟨v, r⟩ := p
    simp only [hvalue] at h
    split_ifs at h
    obtain rfl := Option.some.inj h
    exact (List.dropWhile_suffix _).subset (value_obj hvalue)

end Json
