import EthPanel.App.Dispatch
import EthPanel.App.JsonLine

/-!
# Command lines that lost their beginning

The connect edge flushes what has been received, and a command on its way then arrives without its
beginning. The host's lines begin with the brace and the verb's key, so of such a line at most the
brace can be missing if the key is still there; without the key the parser finds no verb, and
`dispatch` refuses what is left (`dispatch_truncated`).

`CmdFirst` is a line of that shape. What comes after the verb is any text at all that does not hold
`"cmd"` once more.
-/

namespace EthPanel

open Search

structure CmdFirst where
  mid : Gap
  post : Gap
  verb : PlainStr
  tail : Gap
  /-- After the verb comes a comma or the closing brace. -/
  delim : UInt8
  isDelim : delim = comma ∨ delim = closeBrace
  more : List UInt8
  once : ¬ quoted quote (cstr "cmd") <:+: more
  noNul : ∀ c ∈ more, c ≠ 0

namespace CmdFirst

/-- What comes after the opening quote of the key. -/
def afterQuote (l : CmdFirst) : List UInt8 :=
  cstr "cmd" ++ quote :: (l.mid.bytes ++ colon :: (l.post.bytes ++
    (quoted quote l.verb.bytes ++ (l.tail.bytes ++ l.delim :: l.more))))

def text (l : CmdFirst) : List UInt8 := openBrace :: quote :: l.afterQuote

end CmdFirst

/-! ## A text without the key -/

/-- Somewhere in the text the key stands in quotes with a colon after it. -/
def Keyed (key s : List UInt8) : Prop :=
  ∃ rest q, quoted quote key ++ rest <:+ s ∧ skipBlanks rest = colon :: q

theorem Keyed.of_suffix {key s t : List UInt8} (h : Keyed key s) (hs : s <:+ t) : Keyed key t := by
  obtain ⟨rest, q, hrest, hcolon⟩ := h
  exact ⟨rest, q, hrest.trans hs, hcolon⟩

/-- Induction on the text: each round of `find_key` leaves less of it. -/
theorem findKey_of_not_keyed {key s : List UInt8} (h : ¬ Keyed key s) : findKey s key = none := by
  generalize hn : s.length = n
  induction n using Nat.strongRecOn generalizing s with
  | ind n ih =>
    rw [findKey_eq]
    cases hfind : find (quoted quote key) s with
    | none => rfl
    | some p =>
      obtain ⟨⟨rest, rfl⟩, hsuf⟩ := find_some hfind
      have hrest : rest <:+ s := (List.suffix_append _ rest).trans hsuf
      have hlt : rest.length < n := by
        have hlen := hsuf.length_le
        simp only [List.length_append, quoted, List.length_cons] at hlen
        omega
      have hskip := ih rest.length hlt (fun hk => h (hk.of_suffix hrest)) rfl
      simp only [List.drop_left]
      cases hblank : skipBlanks rest with
      | nil => exact hskip
      | cons c q =>
        by_cases hc : c = colon
        · exact absurd ⟨rest, q, hsuf, hc ▸ hblank⟩ h
        · simp only [if_neg hc]
          exact hskip

theorem protoParse_of_not_keyed {s : List UInt8} (h : ¬ Keyed (cstr "cmd") s) :
    protoParse s = (false, .absent) := by
  have hnone : getStr s (cstr "cmd") 16 = none := by
    rw [getStr, findKey_of_not_keyed h]
  rw [protoParse, hnone]

/-- The command depends on where the keys are found. -/
theorem protoParse_congr {s t : List UInt8} (h : ∀ key, findKey s key = findKey t key) :
    protoParse s = protoParse t := by
  simp only [protoParse, getStr, getInt, getBool, h]

/-! ## The line -/

namespace CmdFirst

variable (l : CmdFirst)

theorem letterKey_cmd : LetterKey (cstr "cmd") := letterKey "cmd" (by decide)

/-- **After the quote that opens the key, no key `cmd` begins**: not at the quote that closes it,
not at the verb, whose text may be that, and not after it. -/
theorem not_keyed_afterQuote : ¬ Keyed (cstr "cmd") l.afterQuote := by
  rintro ⟨rest, q, hsuf, hcolon⟩
  have hcolonRaw : quote ∉ [colon] := by decide
  have hdelimRaw : quote ∉ [l.delim] := by
    rw [List.mem_singleton]
    exact (isBlank_of_delim l.isDelim).2.2.symm
  -- At the quote that closes the key.
  rw [quoted_append] at hsuf
  unfold afterQuote at hsuf
  rw [suffix_raw letterKey_cmd.noQuote] at hsuf
  rcases List.suffix_cons_iff.mp hsuf with heq | hsuf
  · have hpre : cstr "cmd" ++ [quote] <+: l.mid.bytes ++ colon :: (l.post.bytes ++
        (quoted quote l.verb.bytes ++ (l.tail.bytes ++ l.delim :: l.more))) :=
      ⟨rest, by simpa using (List.cons.inj heq).2⟩
    exact letterKey_cmd.not_prefix l.mid (Or.inl rfl) _ hpre
  -- At the verb, where no colon comes after the closing quote.
  rw [suffix_raw l.mid.noQuote, show ∀ s, colon :: s = [colon] ++ s from fun _ => rfl,
    suffix_raw hcolonRaw, suffix_raw l.post.noQuote, ← quoted_append] at hsuf
  have hcloses : Closes (l.tail.bytes ++ l.delim :: l.more) :=
    ⟨l.tail, l.delim, l.more, l.isDelim, rfl⟩
  rcases suffix_quoted letterKey_cmd.noQuote l.verb.noQuote (hcloses.not_prefix letterKey_cmd)
    hsuf with ⟨_, rfl⟩ | hsuf
  · exact hcloses.skip q hcolon
  -- In what comes after it.
  rw [quoted_append, suffix_raw l.tail.noQuote,
    show l.delim :: l.more = [l.delim] ++ l.more from rfl, suffix_raw hdelimRaw,
    ← quoted_append] at hsuf
  exact l.once ((List.prefix_append _ rest).isInfix.trans hsuf.isInfix)

theorem text_noNul : ∀ c ∈ l.text, c ≠ 0 := by
  have hcmd : ∀ c ∈ cstr "cmd", c ≠ 0 := by decide +kernel
  intro c hc
  simp only [text, afterQuote, quoted, List.mem_cons, List.mem_append, List.not_mem_nil,
    or_false] at hc
  rcases hc with rfl | rfl | hc | rfl | hc | rfl | hc | (rfl | hc | rfl) | hc | rfl | hc
  · decide
  · decide
  · exact hcmd c hc
  · decide
  · exact Gap.noNul _ c hc
  · decide
  · exact Gap.noNul _ c hc
  · decide
  · exact (l.verb.plain c hc).2.2
  · decide
  · exact Gap.noNul _ c hc
  · rcases l.isDelim with h | h <;> rw [h] <;> decide
  · exact l.noNul c hc

/-- The line as `dispatch` gets it. -/
def line : CString := ⟨l.text, l.text_noNul⟩

/-- **Front truncation**: what is left is refused, or does what the whole line does. -/
theorem dispatch_suffix (a : App) {s : CString} (hs : s.bytes <:+ l.text) :
    dispatch a s = (a, [.err "no cmd"]) ∨ dispatch a s = dispatch a l.line := by
  rcases List.suffix_cons_iff.mp hs with heq | hs
  · exact Or.inr (dispatch_congr a (congrArg protoParse heq))
  rcases List.suffix_cons_iff.mp hs with heq | hs
  · -- Only the brace is missing.
    refine Or.inr (dispatch_congr a ?_)
    have hbrace : quote ∉ [openBrace] := by decide
    rw [heq]
    exact protoParse_congr fun key => (findKey_raw hbrace _ key).symm
  · left
    refine dispatch_noCmd ?_
    rw [protoParse_of_not_keyed fun h => l.not_keyed_afterQuote (h.of_suffix hs)]

end CmdFirst

/-! ## Objects of the shape -/

/-- A name stands in quotes among the members only as a key or as a string. -/
theorem suffix_moreText {key r : List UInt8} (hkey : KeyName key) {trail : Blanks}
    {ms : List Member} (h : quoted quote key ++ r <:+ moreText trail.bytes ms) :
    ∃ m ∈ ms, m.key.bytes = key ∨ ∃ s, m.value = .str s ∧ s.bytes = key := by
  induction ms with
  | nil =>
    have hraw : quote ∉ closeBrace :: trail.bytes := by
      rw [List.mem_cons, not_or]
      exact ⟨by decide, trail.noQuote⟩
    have hmem : quote ∈ closeBrace :: trail.bytes :=
      h.subset (List.mem_append_left r List.mem_cons_self)
    exact absurd hmem hraw
  | cons m ms ih =>
    have hcomma : quote ∉ [comma] := by decide
    have hcolon : quote ∉ [colon] := by decide
    have hshape : moreText trail.bytes (m :: ms) = [comma] ++ (m.pre.bytes ++
        (quoted quote m.key.bytes ++ (m.mid.bytes ++ ([colon] ++ (m.post.bytes ++
          (m.value.text ++ (m.tail.bytes ++ moreText trail.bytes ms))))))) := by
      simp [moreText, Member.text]
    have hmid : ¬ key ++ [quote] <+: m.mid.bytes ++ ([colon] ++ (m.post.bytes ++
        (m.value.text ++ (m.tail.bytes ++ moreText trail.bytes ms)))) := by
      cases hb : m.mid.bytes with
      | nil => exact hkey.not_prefix (by decide) _
      | cons c bs => exact hkey.not_prefix (isSep_of_blank m.mid (by simp [hb])) _
    rw [hshape, quoted_append, suffix_raw hcomma, suffix_raw m.pre.noQuote,
      ← quoted_append] at h
    rcases suffix_quoted hkey.noQuote m.key.noQuote hmid h with ⟨heq, _⟩ | h
    · exact ⟨m, List.mem_cons_self, Or.inl heq.symm⟩
    have hends := Ends.moreText m.tail trail.bytes ms
    have hlater : quoted quote key ++ r <:+ moreText trail.bytes ms →
        ∃ m' ∈ m :: ms, m'.key.bytes = key ∨ ∃ s, m'.value = .str s ∧ s.bytes = key := by
      intro hs
      obtain ⟨m', hm', hval⟩ := ih hs
      exact ⟨m', List.mem_cons_of_mem m hm', hval⟩
    rw [quoted_append, suffix_raw m.mid.noQuote, suffix_raw hcolon,
      suffix_raw m.post.noQuote] at h
    by_cases hstr : ∃ w, m.value = .str w
    · obtain ⟨w, hw⟩ := hstr
      obtain ⟨c, rest, hafter, hsep⟩ := hends.head
      rw [hw, Scalar.text, ← quoted_append] at h
      have hno : ¬ key ++ [quote] <+: m.tail.bytes ++ moreText trail.bytes ms := by
        rw [hafter]
        exact hkey.not_prefix hsep rest
      rcases suffix_quoted hkey.noQuote w.noQuote hno h with ⟨heq, _⟩ | h
      · exact ⟨m, List.mem_cons_self, Or.inr ⟨w, hw, heq.symm⟩⟩
      · rw [quoted_append, suffix_raw m.tail.noQuote, ← quoted_append] at h
        exact hlater h
    · rw [suffix_raw (Scalar.noQuote fun w hw => hstr ⟨w, hw⟩), suffix_raw m.tail.noQuote,
        ← quoted_append] at h
      exact hlater h

/-- An object that begins with its verb, and in which `cmd` is no string of another member. -/
theorem FlatObject.cmdFirst (o : FlatObject) {mid post tail : Blanks} {key verb : PlainStr}
    {ms : List Member} (hkey : key.bytes = cstr "cmd") (hlead : o.lead = .none)
    (hinner : o.inner = .none)
    (hmembers : o.members = ⟨.none, key, mid, post, .str verb, tail⟩ :: ms)
    (hstr : ∀ m ∈ ms, ∀ s, m.value = .str s → s.bytes ≠ cstr "cmd") :
    ∃ l : CmdFirst, l.text = o.text := by
  have hdistinct := o.distinct
  rw [hmembers, List.map_cons, List.nodup_cons, hkey] at hdistinct
  have honce : ¬ quoted quote (cstr "cmd") <:+: moreText o.trail.bytes ms := by
    intro h
    obtain ⟨r, hr⟩ : ∃ r, quoted quote (cstr "cmd") ++ r <:+ moreText o.trail.bytes ms := by
      obtain ⟨pre, post, heq⟩ := h
      exact ⟨post, pre, by rw [← heq, List.append_assoc]⟩
    obtain ⟨m, hm, hkey | ⟨s, hs, hname⟩⟩ := suffix_moreText (keyName "cmd" (by decide)) hr
    · exact hdistinct.1 (List.mem_map.mpr ⟨m, hm, hkey⟩)
    · exact hstr m hm s hs hname
  have htext : o.text = openBrace :: quote :: (cstr "cmd" ++ quote :: (mid.bytes ++ colon ::
      (post.bytes ++ (quoted quote verb.bytes ++ (tail.bytes ++ moreText o.trail.bytes ms))))) := by
    simp [FlatObject.text, hlead, hinner, hmembers, membersText, Member.text, Blanks.none, quoted,
      Scalar.text, hkey]
  have hnul : ∀ c ∈ moreText o.trail.bytes ms, c ≠ 0 := by
    intro c hc
    refine o.noNul c ?_
    rw [htext]
    simp [hc]
  obtain ⟨delim, more, hmore, hdelim⟩ : ∃ delim more, moreText o.trail.bytes ms = delim :: more ∧
      (delim = comma ∨ delim = closeBrace) := by
    cases ms with
    | nil => exact ⟨closeBrace, _, rfl, Or.inr rfl⟩
    | cons m ms => exact ⟨comma, _, rfl, Or.inl rfl⟩
  rw [hmore] at honce hnul htext
  exact ⟨⟨mid.gap, post.gap, verb, tail.gap, delim, hdelim, more,
    fun h => honce (h.trans (List.suffix_cons delim more).isInfix),
    fun c hc => hnul c (List.mem_cons_of_mem delim hc)⟩, htext.symm⟩

end EthPanel
