import EthPanel.App.Commands

/-!
# Objects with any white space

JSON's white space is more than the spaces and tabs of `App/FlatJson.lean`. Around the braces, the
commas and the ends of the members it makes no difference to `protocol.c`, but `find_key` goes past
spaces and tabs only: where a carriage return or a line feed stands beside its colon, a member is
not seen. What the parser finds in such a line is what it would find in the object of the members
that it sees (`protoParse_line`).
-/

namespace EthPanel

open Search

/-- White space between two tokens, as JSON has it. -/
structure Gap where
  bytes : List UInt8
  space : ∀ c ∈ bytes, c = 0x20 ∨ c = 0x09 ∨ c = 0x0A ∨ c = 0x0D

def Blanks.gap (b : Blanks) : Gap where
  bytes := b.bytes
  space c hc := by
    have hblank := b.blank c hc
    simp only [isBlank, Bool.or_eq_true, beq_iff_eq] at hblank
    rcases hblank with h | h
    · exact Or.inl h
    · exact Or.inr (Or.inl h)

/-- Nothing of it stops `find_key`. -/
def Gap.Blank (g : Gap) : Prop := ∀ c ∈ g.bytes, isBlank c = true

instance (g : Gap) : Decidable g.Blank := List.decidableBAll _ g.bytes

/-- Code points from 32 to 127. -/
def PlainStr.Ascii (s : PlainStr) : Prop := ∀ c ∈ s.bytes, 0x20 ≤ c ∧ c < 0x80

instance (s : PlainStr) : Decidable s.Ascii := List.decidableBAll _ s.bytes

def Scalar.Ascii : Scalar → Prop
  | .str s => s.Ascii
  | _ => True

instance : (v : Scalar) → Decidable v.Ascii
  | .str s => inferInstanceAs (Decidable s.Ascii)
  | .int _ | .bool _ | .null => .isTrue trivial

structure JsonMember where
  pre : Gap
  key : PlainStr
  mid : Gap
  post : Gap
  value : Scalar
  tail : Gap

namespace JsonMember

def text (m : JsonMember) : List UInt8 :=
  m.pre.bytes ++ (quoted quote m.key.bytes ++ (m.mid.bytes ++
    colon :: (m.post.bytes ++ (m.value.text ++ m.tail.bytes))))

/-- `find_key` can see the member: beside its colon there are only spaces and tabs. -/
def Seen (m : JsonMember) : Prop := m.mid.Blank ∧ m.post.Blank

instance (m : JsonMember) : Decidable m.Seen := inferInstanceAs (Decidable (_ ∧ _))

/-- The member without its layout. -/
def tight (m : JsonMember) : Member := .tight m.key m.value

def Ascii (m : JsonMember) : Prop := m.key.Ascii ∧ m.value.Ascii

instance (m : JsonMember) : Decidable m.Ascii := inferInstanceAs (Decidable (_ ∧ _))

end JsonMember

/-- A flat object with its layout, its strings in ASCII. -/
structure JsonLine where
  lead : Gap
  inner : Gap
  trail : Gap
  members : List JsonMember
  distinct : (members.map fun m => m.key.bytes).Nodup
  ascii : ∀ m ∈ members, m.Ascii

/-- The members after the first, and the end of the object. -/
def laterText (trail : List UInt8) : List JsonMember → List UInt8
  | [] => closeBrace :: trail
  | m :: ms => comma :: (m.text ++ laterText trail ms)

namespace JsonLine

def text (l : JsonLine) : List UInt8 :=
  l.lead.bytes ++ openBrace :: (l.inner.bytes ++ match l.members with
    | [] => closeBrace :: l.trail.bytes
    | m :: ms => m.text ++ laterText l.trail.bytes ms)

theorem tight_keys (ms : List JsonMember) :
    ((ms.map JsonMember.tight).map fun m => m.key.bytes) = ms.map fun m => m.key.bytes := by
  rw [List.map_map]
  rfl

/-- The object. -/
def all (l : JsonLine) : FlatObject :=
  .tight (l.members.map JsonMember.tight) (by rw [tight_keys]; exact l.distinct)

/-- What `find_key` can see of it. -/
def seen (l : JsonLine) : FlatObject :=
  .tight ((l.members.filter fun m => decide m.Seen).map JsonMember.tight)
    (by rw [tight_keys]; exact (List.filter_sublist.map _).nodup l.distinct)

/-- What is seen is there. -/
theorem get?_of_seen {l : JsonLine} {key : List UInt8} {v : Scalar}
    (h : l.seen.get? key = some v) : l.all.get? key = some v := by
  rw [FlatObject.get?_iff] at h ⊢
  obtain ⟨m, hm, hkey, hvalue⟩ := h
  obtain ⟨m', hm', rfl⟩ := List.mem_map.mp hm
  exact ⟨m'.tight, List.mem_map_of_mem (List.mem_filter.mp hm').1, hkey, hvalue⟩

end JsonLine

/-! ## Between the tokens -/

namespace Gap

variable (g : Gap)

theorem noQuote : quote ∉ g.bytes := by
  intro hq
  rcases g.space quote hq with h | h | h | h <;> exact absurd h (by decide)

theorem noNul : ∀ c ∈ g.bytes, c ≠ 0 := by
  rintro c hc rfl
  rcases g.space 0 hc with h | h | h | h <;> exact absurd h (by decide)

/-- Blanks are gone past, and the first that is none stops. -/
theorem skipBlanks (s : List UInt8) : g.Blank ∧ skipBlanks (g.bytes ++ s) = EthPanel.skipBlanks s ∨
    ¬ g.Blank ∧ ∃ c r, EthPanel.skipBlanks (g.bytes ++ s) = c :: r ∧ (c = 0x0A ∨ c = 0x0D) := by
  obtain ⟨bs, hspace⟩ := g
  unfold Gap.Blank
  dsimp only
  induction bs with
  | nil => exact Or.inl ⟨by simp, rfl⟩
  | cons c bs ih =>
    have hcons := ih fun d hd => hspace d (List.mem_cons_of_mem c hd)
    by_cases hblank : isBlank c = true
    · have hpass : EthPanel.skipBlanks (c :: (bs ++ s)) = EthPanel.skipBlanks (bs ++ s) :=
        List.dropWhile_cons_of_pos hblank
      rw [List.cons_append, hpass, List.forall_mem_cons]
      simpa only [hblank, true_and] using hcons
    · refine Or.inr ⟨fun h => hblank (h c List.mem_cons_self), c, bs ++ s, ?_, ?_⟩
      · exact skipBlanks_cons (by simpa using hblank) _
      · rcases hspace c List.mem_cons_self with rfl | rfl | h
        · exact absurd rfl hblank
        · exact absurd rfl hblank
        · exact h

end Gap

/-- A key that begins with a lower-case letter. -/
structure LetterKey (key : List UInt8) : Prop where
  noQuote : quote ∉ key
  head : key.head?.any (fun c => 0x61 ≤ c && c ≤ 0x7A) = true

theorem letterKey (key : String) (h : key ∈ protoKeys) : LetterKey (cstr key) := by
  have hkeys : ∀ key ∈ protoKeys, quote ∉ cstr key ∧
      (cstr key).head?.any (fun c => 0x61 ≤ c && c ≤ 0x7A) = true := by
    decide +kernel
  exact ⟨(hkeys key h).1, (hkeys key h).2⟩

/-- What comes after a quote that closes a token does not begin with the key. -/
theorem LetterKey.not_prefix {key : List UInt8} (hkey : LetterKey key) (g : Gap) {c : UInt8}
    (hc : c = colon ∨ c = comma ∨ c = closeBrace) (s : List UInt8) :
    ¬ key ++ [quote] <+: g.bytes ++ c :: s := by
  intro h
  cases key with
  | nil => exact absurd hkey.head (by decide)
  | cons k key =>
    have hhead : (0x61 ≤ k && k ≤ 0x7A) = true := hkey.head
    cases hb : g.bytes with
    | nil =>
      rw [hb] at h
      obtain rfl := (List.cons_prefix_cons.mp h).1
      rcases hc with rfl | rfl | rfl <;> exact absurd hhead (by decide)
    | cons d bs =>
      rw [hb] at h
      obtain rfl := (List.cons_prefix_cons.mp h).1
      rcases g.space k (by rw [hb]; exact List.mem_cons_self) with rfl | rfl | rfl | rfl <;>
        exact absurd hhead (by decide)

/-- The text after a value: white space, then a comma or the closing brace. -/
structure Closes (s : List UInt8) : Prop where
  after : ∃ (g : Gap) (c : UInt8) (rest : List UInt8),
    (c = comma ∨ c = closeBrace) ∧ s = g.bytes ++ c :: rest

theorem Closes.later (g : Gap) (trail : List UInt8) (ms : List JsonMember) :
    Closes (g.bytes ++ laterText trail ms) := by
  cases ms with
  | nil => exact ⟨g, closeBrace, trail, Or.inr rfl, rfl⟩
  | cons m ms => exact ⟨g, comma, _, Or.inl rfl, rfl⟩

section Closes

variable {s : List UInt8} (hs : Closes s)

include hs

theorem Closes.not_prefix {key : List UInt8} (hkey : LetterKey key) : ¬ key ++ [quote] <+: s := by
  obtain ⟨g, c, rest, hc, rfl⟩ := hs.after
  exact hkey.not_prefix g (Or.inr hc) rest

/-- No colon comes there. -/
theorem Closes.skip (q : List UInt8) : skipBlanks s ≠ colon :: q := by
  obtain ⟨g, c, rest, hc, rfl⟩ := hs.after
  rcases g.skipBlanks (c :: rest) with ⟨_, hskip⟩ | ⟨_, d, r, hskip, hd⟩
  · rw [hskip, skipBlanks_cons (isBlank_of_delim hc).1]
    intro h
    exact (isBlank_of_delim hc).2.1 (List.cons.inj h).1
  · rw [hskip]
    intro h
    obtain rfl := (List.cons.inj h).1
    rcases hd with hd | hd <;> exact absurd hd (by decide)

theorem Closes.noDigit : noDigit s = true := by
  obtain ⟨g, c, rest, hc, rfl⟩ := hs.after
  cases hb : g.bytes with
  | nil => rcases hc with rfl | rfl <;> rfl
  | cons d bs =>
    rcases g.space d (by rw [hb]; exact List.mem_cons_self) with rfl | rfl | rfl | rfl <;> rfl

end Closes

/-! ## Going through the members -/

theorem findKey_passValue {key : List UInt8} (hkey : LetterKey key) (v : Scalar) {s : List UInt8}
    (hs : Closes s) : findKey (v.text ++ s) key = findKey s key := by
  by_cases hstr : ∃ w, v = .str w
  · obtain ⟨w, rfl⟩ := hstr
    show findKey (quoted quote w.bytes ++ s) key = findKey s key
    by_cases heq : key = w.bytes
    · -- The value is the name of the key, but no colon comes after it.
      rw [heq, findKey_found]
      cases hskip : skipBlanks s with
      | nil => rfl
      | cons c q =>
        refine if_neg ?_
        rintro rfl
        exact hs.skip q hskip
    · exact findKey_other hkey.noQuote w.noQuote heq (hs.not_prefix hkey)
  · exact findKey_raw (Scalar.noQuote fun w hw => hstr ⟨w, hw⟩) s key

theorem findKey_afterKey {key : List UInt8} (hkey : LetterKey key) (m : JsonMember) {s : List UInt8}
    (hs : Closes (m.tail.bytes ++ s)) :
    findKey (m.mid.bytes ++ colon :: (m.post.bytes ++ (m.value.text ++ (m.tail.bytes ++ s)))) key =
      findKey s key := by
  have hcolon : quote ∉ [colon] := by decide
  rw [findKey_raw m.mid.noQuote, ← List.singleton_append, findKey_raw hcolon,
    findKey_raw m.post.noQuote, findKey_passValue hkey m.value hs, findKey_raw m.tail.noQuote]

theorem JsonMember.text_append (m : JsonMember) (s : List UInt8) : m.text ++ s =
    m.pre.bytes ++ (quoted quote m.key.bytes ++ (m.mid.bytes ++
      colon :: (m.post.bytes ++ (m.value.text ++ (m.tail.bytes ++ s))))) := by
  simp [JsonMember.text]

theorem findKey_memberOther {key : List UInt8} (hkey : LetterKey key) {m : JsonMember}
    (hne : m.key.bytes ≠ key) {s : List UInt8} (hs : Closes (m.tail.bytes ++ s)) :
    findKey (m.text ++ s) key = findKey s key := by
  rw [m.text_append, findKey_raw m.pre.noQuote,
    findKey_other hkey.noQuote m.key.noQuote hne.symm (hkey.not_prefix m.mid (Or.inl rfl) _),
    findKey_afterKey hkey m hs]

/-- Nothing is found, or a place where no value begins. -/
def Unread (found : Option (List UInt8)) : Prop :=
  found = none ∨ ∃ c p, found = some (c :: p) ∧ (c = 0x0A ∨ c = 0x0D)

theorem findKey_memberSeen {m : JsonMember} (hseen : m.Seen) (s : List UInt8) :
    findKey (m.text ++ s) m.key.bytes = some (m.value.text ++ (m.tail.bytes ++ s)) := by
  obtain ⟨c, cs, hcons, hblank⟩ := m.value.text_cons
  have hmid : ∀ s, skipBlanks (m.mid.bytes ++ s) = skipBlanks s :=
    fun s => List.dropWhile_append_of_pos hseen.1
  have hpost : ∀ s, skipBlanks (m.post.bytes ++ s) = skipBlanks s :=
    fun s => List.dropWhile_append_of_pos hseen.2
  rw [m.text_append, findKey_raw m.pre.noQuote, findKey_found, hmid, skipBlanks_cons (by decide),
    hcons, List.cons_append]
  simp only [if_true, hpost, skipBlanks_cons hblank]

theorem findKey_memberUnseen {m : JsonMember} (hkey : LetterKey m.key.bytes) (hseen : ¬ m.Seen)
    {s : List UInt8} (hs : Closes (m.tail.bytes ++ s)) (hunread : Unread (findKey s m.key.bytes)) :
    Unread (findKey (m.text ++ s) m.key.bytes) := by
  have hcolon : isBlank colon = false := by decide
  rw [m.text_append, findKey_raw m.pre.noQuote, findKey_found]
  rcases m.mid.skipBlanks (colon :: (m.post.bytes ++ (m.value.text ++ (m.tail.bytes ++ s)))) with
    ⟨hmid, hskip⟩ | ⟨_, c, r, hskip, hc⟩
  · -- The colon is found, but not the value.
    rcases m.post.skipBlanks (m.value.text ++ (m.tail.bytes ++ s)) with
      ⟨hpost, _⟩ | ⟨_, c, r, hvalue, hc⟩
    · exact absurd ⟨hmid, hpost⟩ hseen
    · rw [hskip, skipBlanks_cons hcolon]
      simp only [if_true, hvalue]
      exact Or.inr ⟨c, r, rfl, hc⟩
  · -- The colon is not found, and what comes after it does not have the key.
    rw [hskip]
    have hne : c ≠ colon := by rcases hc with rfl | rfl <;> decide
    simp only [if_neg hne, findKey_afterKey hkey m hs]
    exact hunread

/-- What `find_key` makes of a member that is there, or not. -/
def Finds (found : Option (List UInt8)) : Option Scalar → Prop
  | some v => ∃ after, noDigit after = true ∧ found = some (v.text ++ after)
  | none => Unread found

/-- Induction on the members. -/
theorem findKey_later {key : List UInt8} (hkey : LetterKey key) (trail : Gap)
    {ms : List JsonMember} (hnd : (ms.map fun m => m.key.bytes).Nodup) :
    Finds (findKey (laterText trail.bytes ms) key)
      (((ms.filter fun m => decide m.Seen).find? fun m => m.key.bytes == key).map
        JsonMember.value) := by
  induction ms with
  | nil =>
    have hraw : quote ∉ closeBrace :: trail.bytes := by
      rw [List.mem_cons, not_or]
      exact ⟨by decide, trail.noQuote⟩
    left
    show findKey (closeBrace :: trail.bytes) key = none
    rw [← List.append_nil (closeBrace :: trail.bytes), findKey_raw hraw]
    rfl
  | cons m ms ih =>
    rw [List.map_cons, List.nodup_cons] at hnd
    have hcomma : quote ∉ [comma] := by decide
    have hshape : laterText trail.bytes (m :: ms) =
        [comma] ++ (m.text ++ laterText trail.bytes ms) := rfl
    have hcloses := Closes.later m.tail trail.bytes ms
    rw [hshape, findKey_raw hcomma]
    by_cases heq : m.key.bytes = key
    · subst heq
      have hnone : ((ms.filter fun m => decide m.Seen).find? fun m' => m'.key.bytes == m.key.bytes)
          = none := by
        rw [List.find?_eq_none]
        intro m' hm' hsame
        refine hnd.1 (List.mem_map.mpr ⟨m', (List.mem_filter.mp hm').1, ?_⟩)
        simpa using hsame
      by_cases hseen : m.Seen
      · rw [List.filter_cons_of_pos (by simpa using hseen), List.find?_cons_of_pos (by simp)]
        exact ⟨_, hcloses.noDigit, findKey_memberSeen hseen _⟩
      · have hrest := ih hnd.2
        rw [hnone] at hrest
        rw [List.filter_cons_of_neg (by simpa using hseen), hnone]
        exact findKey_memberUnseen hkey hseen hcloses hrest
    · have hskip : (((m :: ms).filter fun m => decide m.Seen).find? fun m => m.key.bytes == key) =
          (ms.filter fun m => decide m.Seen).find? fun m => m.key.bytes == key := by
        rw [List.filter_cons]
        split
        · exact List.find?_cons_of_neg (by simpa using heq)
        · rfl
      rw [hskip, findKey_memberOther hkey heq hcloses]
      exact ih hnd.2

/-- **What is found in a line**: the members that are seen. -/
theorem findKey_line {key : List UInt8} (hkey : LetterKey key) (l : JsonLine) :
    Finds (findKey l.text key) (l.seen.get? key) := by
  have hopen : quote ∉ [openBrace] := by decide
  have hcomma : quote ∉ [comma] := by decide
  have hskip : findKey l.text key = findKey (laterText l.trail.bytes l.members) key := by
    rw [JsonLine.text, findKey_raw l.lead.noQuote, ← List.singleton_append, findKey_raw hopen,
      findKey_raw l.inner.noQuote]
    cases l.members with
    | nil => rfl
    | cons m ms => exact (findKey_raw hcomma _ key).symm
  have hget : l.seen.get? key = ((l.members.filter fun m => decide m.Seen).find?
      fun m => m.key.bytes == key).map JsonMember.value := by
    rw [FlatObject.get?, JsonLine.seen, FlatObject.tight, List.find?_map, Option.map_map]
    rfl
  rw [hskip, hget]
  exact findKey_later hkey l.trail l.distinct

/-! ## The command -/

section Unread

variable {s key : List UInt8} (h : Unread (findKey s key))

include h

theorem getStr_unread (n : ℕ) : getStr s key n = none := by
  rcases h with h | ⟨c, p, h, rfl | rfl⟩ <;> rw [getStr, h] <;> rfl

theorem getInt_unread : getInt s key = none := by
  rcases h with h | ⟨c, p, h, rfl | rfl⟩ <;> rw [getInt, h] <;> rfl

theorem getBool_unread : getBool s key = none := by
  rcases h with h | ⟨c, p, h, rfl | rfl⟩ <;> rw [getBool, h] <;> rfl

end Unread

section Fields

variable {key : List UInt8} (hletter : LetterKey key) (hname : KeyName key) (l : JsonLine)

include hletter hname

theorem getStr_line (n : ℕ) : getStr l.text key n = getStr l.seen.text key n := by
  have hfinds := findKey_line hletter l
  rw [getStr_text hname]
  cases hget : l.seen.get? key with
  | none =>
    rw [hget] at hfinds
    exact getStr_unread hfinds n
  | some v =>
    rw [hget] at hfinds
    obtain ⟨after, _, hfound⟩ := hfinds
    rw [getStr_at n hfound]
    cases v <;> rfl

theorem getInt_line : getInt l.text key = getInt l.seen.text key := by
  have hfinds := findKey_line hletter l
  rw [getInt_text hname]
  cases hget : l.seen.get? key with
  | none =>
    rw [hget] at hfinds
    exact getInt_unread hfinds
  | some v =>
    rw [hget] at hfinds
    obtain ⟨after, hafter, hfound⟩ := hfinds
    rw [getInt_at hafter hfound]
    cases v <;> rfl

theorem getBool_line : getBool l.text key = getBool l.seen.text key := by
  have hfinds := findKey_line hletter l
  rw [getBool_text hname]
  cases hget : l.seen.get? key with
  | none =>
    rw [hget] at hfinds
    exact getBool_unread hfinds
  | some v =>
    rw [hget] at hfinds
    obtain ⟨after, hafter, hfound⟩ := hfinds
    rw [getBool_at hafter hfound]
    rcases v with ⟨_ | _, _ | _ | _⟩ | _ | _ | _ <;> rfl

end Fields

/-- **The parser takes a line for the object of the members that it sees.** -/
theorem protoParse_line (l : JsonLine) : protoParse l.text = protoParse l.seen.text := by
  have hstr := getStr_line (letterKey "cmd" (by decide)) (keyName "cmd" (by decide)) l 16
  have hint : ∀ key ∈ protoKeys, getInt l.text (cstr key) = getInt l.seen.text (cstr key) :=
    fun key hkey => getInt_line (letterKey key hkey) (keyName key hkey) l
  have hbool := getBool_line (letterKey "on" (by decide)) (keyName "on" (by decide)) l
  simp only [protoParse, hstr, hbool, hint "id" (by decide), hint "r" (by decide),
    hint "g" (by decide), hint "b" (by decide), hint "brightness" (by decide),
    hint "debounce_ms" (by decide)]

/-! ## As a C string -/

theorem noNul_later (trail : Gap) (ms : List JsonMember) :
    ∀ c ∈ laterText trail.bytes ms, c ≠ 0 := by
  have hmember : ∀ m : JsonMember, ∀ c ∈ m.text, c ≠ 0 := by
    intro m c hc
    simp only [JsonMember.text, quoted, List.mem_cons, List.mem_append, List.not_mem_nil,
      or_false] at hc
    rcases hc with hc | (rfl | hc | rfl) | hc | rfl | hc | hc | hc
    · exact m.pre.noNul c hc
    · decide
    · exact (m.key.plain c hc).2.2
    · decide
    · exact m.mid.noNul c hc
    · decide
    · exact m.post.noNul c hc
    · exact m.value.noNul c hc
    · exact m.tail.noNul c hc
  induction ms with
  | nil =>
    intro c hc
    rcases List.mem_cons.mp hc with rfl | hc
    · decide
    · exact trail.noNul c hc
  | cons m ms ih =>
    intro c hc
    rcases List.mem_cons.mp hc with rfl | hc
    · decide
    · rcases List.mem_append.mp hc with hc | hc
      · exact hmember m c hc
      · exact ih c hc

theorem JsonLine.noNul (l : JsonLine) : ∀ c ∈ l.text, c ≠ 0 := by
  intro c hc
  rcases List.mem_append.mp hc with hc | hc
  · exact l.lead.noNul c hc
  rcases List.mem_cons.mp hc with rfl | hc
  · decide
  rcases List.mem_append.mp hc with hc | hc
  · exact l.inner.noNul c hc
  refine noNul_later l.trail l.members c ?_
  cases hms : l.members with
  | nil => rwa [hms] at hc
  | cons m ms =>
    rw [hms] at hc
    exact List.mem_cons_of_mem comma hc

/-- The line as `dispatch` gets it. -/
def JsonLine.line (l : JsonLine) : CString := ⟨l.text, l.noNul⟩

end EthPanel
