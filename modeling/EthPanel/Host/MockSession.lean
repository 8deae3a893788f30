import EthPanel.Driver.HandleLine
import EthPanel.Host.MockServer
import EthPanel.Lib.Run

/-!
# `mock_panel_server.py`: `serve_client`

One client of the server's. It is greeted, presses of the buttons are made up for it, and what it
sends is cut into lines, of which `process` gets those that are not blank, without the white space
around them. An ota is the last line that is answered.

A client that sends flat objects is answered object by object, however its bytes come and whatever
is pressed in between (`serve_answers`).
-/

namespace EthPanel

open Json (Text)
open Lts

/-- `raw.strip()`. -/
def bytesStrip (s : List UInt8) : List UInt8 := (s.dropWhile isSpace).rdropWhile isSpace

def fmtBtn (bid : ℕ) (pressed : Bool) (ms : ℕ) : Text :=
  Json.text "\x7b\"t\":\"btn\",\"id\":" ++ Json.digits bid ++ Json.text ",\"e\":\"" ++
    Json.text (if pressed then "down" else "up") ++ Json.text "\",\"ms\":" ++ Json.digits ms ++
    Json.text "\x7d\n"

/-- A line sent to the client. -/
inductive MockLine
  | greeting (st : PanelState)
  | btn (bid : ℕ) (pressed : Bool) (ms : ℕ)
  | reply (line : Text)

namespace MockLine

def text : MockLine → Text
  | .greeting st => fmtHello st
  | .btn bid pressed ms => fmtBtn bid pressed ms
  | .reply line => line

def reply? : MockLine → Option Text
  | .reply line => some line
  | .greeting _ | .btn .. => none

end MockLine

/-- The locals of `serve_client`, with what it has sent. -/
structure MockClient where
  st : PanelState
  btnIdx : ℕ
  phaseDown : Bool
  buf : List UInt8
  sent : List MockLine
  /-- It has returned "ota". -/
  done : Bool

/-- `conn` is accepted. -/
def MockClient.accept (st : PanelState) : MockClient := ⟨st, 0, true, [], [.greeting st], false⟩

inductive MockEvent
  /-- `next_btn` has come. -/
  | press (ms : ℕ)
  | recv (data : List UInt8)

/-- The loop over the lines in `buf`: the state after it, the replies, and whether it has
returned. -/
def serveLines (floatEq : Text → ℤ → Bool) (st : PanelState) :
    List (List UInt8) → PanelState × List Text × Bool
  | [] => (st, [], false)
  | raw :: raws =>
    if decodeReplace (bytesStrip raw) = [] then serveLines floatEq st raws
    else
      let done := process floatEq st (decodeReplace (bytesStrip raw))
      if done.2.2 then (done.1, [done.2.1], true)
      else
        let more := serveLines floatEq done.1 raws
        (more.1, done.2.1 :: more.2.1, more.2.2)

namespace MockClient

def press (s : MockClient) (ms : ℕ) : MockClient :=
  let i : Fin 2 := ⟨s.btnIdx % 2, Nat.mod_lt _ (by decide)⟩
  { s with
    st := { s.st with pressed := Function.update s.st.pressed i s.phaseDown }
    sent := s.sent ++ [.btn (s.btnIdx % 2 + 1) s.phaseDown ms]
    btnIdx := if s.phaseDown then s.btnIdx else s.btnIdx + 1
    phaseDown := !s.phaseDown }

def recv (floatEq : Text → ℤ → Bool) (s : MockClient) (data : List UInt8) : MockClient :=
  let read := Terminated.read newline (s.buf ++ data)
  let served := serveLines floatEq s.st read.1
  { s with
    st := served.1
    buf := read.2
    sent := s.sent ++ served.2.1.map .reply
    done := served.2.2 }

def next (floatEq : Text → ℤ → Bool) (s : MockClient) (e : MockEvent) : Option MockClient :=
  if s.done then none
  else match e with
    | .press ms => some (s.press ms)
    | .recv data => some (s.recv floatEq data)

/-- What the client has been answered. -/
def replies (s : MockClient) : List Text := s.sent.filterMap MockLine.reply?

end MockClient

def MockStep (floatEq : Text → ℤ → Bool) (s : MockClient) (e : MockEvent) (t : MockClient) : Prop :=
  s.next floatEq e = some t

def MockEvent.bytes : MockEvent → List UInt8
  | .recv data => data
  | .press _ => []

/-- All that the client has sent. -/
def bytesServed (l : List MockEvent) : List UInt8 := l.flatMap MockEvent.bytes

/-! ## A line without its margins -/

theorem laterText_append (trail : List UInt8) (ms : List JsonMember) :
    laterText trail ms = laterText [] ms ++ trail := by
  induction ms with
  | nil => rfl
  | cons m ms ih => rw [laterText, laterText, ih, List.cons_append, List.append_assoc]

theorem laterText_end (ms : List JsonMember) : ∃ body, laterText [] ms = body ++ [closeBrace] := by
  induction ms with
  | nil => exact ⟨[], rfl⟩
  | cons m ms ih =>
    obtain ⟨body, hbody⟩ := ih
    refine ⟨comma :: (m.text ++ body), ?_⟩
    rw [laterText, hbody, List.cons_append, List.append_assoc]

namespace JsonLine

def stripped (l : JsonLine) : JsonLine :=
  { l with lead := Blanks.none.gap, trail := Blanks.none.gap }

theorem text_stripped (l : JsonLine) :
    l.text = l.lead.bytes ++ (l.stripped.text ++ l.trail.bytes) := by
  obtain ⟨lead, inner, trail, members, distinct, ascii⟩ := l
  cases members with
  | nil =>
    show lead.bytes ++ openBrace :: (inner.bytes ++ closeBrace :: trail.bytes) =
      lead.bytes ++ (openBrace :: (inner.bytes ++ [closeBrace]) ++ trail.bytes)
    simp
  | cons m ms =>
    show lead.bytes ++ openBrace :: (inner.bytes ++ (m.text ++ laterText trail.bytes ms)) =
      lead.bytes ++ (openBrace :: (inner.bytes ++ (m.text ++ laterText [] ms)) ++ trail.bytes)
    rw [laterText_append trail.bytes]
    simp

theorem stripped_braces (l : JsonLine) :
    ∃ body, l.stripped.text = openBrace :: (body ++ [closeBrace]) := by
  obtain ⟨lead, inner, trail, members, distinct, ascii⟩ := l
  cases members with
  | nil => exact ⟨inner.bytes, rfl⟩
  | cons m ms =>
    obtain ⟨body, hbody⟩ := laterText_end ms
    refine ⟨inner.bytes ++ (m.text ++ body), ?_⟩
    show openBrace :: (inner.bytes ++ (m.text ++ laterText [] ms)) = _
    rw [hbody]
    simp

end JsonLine

theorem Gap.isSpace (g : Gap) : ∀ c ∈ g.bytes, EthPanel.isSpace c = true := by
  intro c hc
  rcases g.space c hc with rfl | rfl | rfl | rfl <;> rfl

/-- What is between the margins is left. -/
theorem bytesStrip_text (l : JsonLine) : bytesStrip l.text = l.stripped.text := by
  obtain ⟨body, hbody⟩ := l.stripped_braces
  have htrail : ∀ c ∈ l.trail.bytes.reverse, isSpace c = true := fun c hc =>
    l.trail.isSpace c (List.mem_reverse.mp hc)
  rw [bytesStrip, l.text_stripped, List.dropWhile_append_of_pos l.lead.isSpace, hbody,
    List.cons_append, List.dropWhile_cons_of_neg (by decide), List.rdropWhile]
  rw [← List.cons_append, List.reverse_append, List.dropWhile_append_of_pos htrail,
    ← List.cons_append, List.reverse_append, List.reverse_singleton, List.singleton_append,
    List.dropWhile_cons_of_neg (by decide), List.reverse_cons, List.reverse_reverse]

/-! ## The text is ASCII -/

theorem Gap.ascii (g : Gap) : ∀ c ∈ g.bytes, c.toNat < 128 := by
  intro c hc
  rcases g.space c hc with rfl | rfl | rfl | rfl <;> decide

theorem PlainStr.Ascii.quoted {s : PlainStr} (h : s.Ascii) :
    ∀ c ∈ Search.quoted quote s.bytes, c.toNat < 128 := by
  intro c hc
  rw [Search.quoted, List.mem_cons, List.mem_append, List.mem_singleton] at hc
  rcases hc with rfl | hc | rfl
  · decide
  · exact UInt8.lt_iff_toNat_lt.mp (h c hc).2
  · decide

theorem Scalar.Ascii.text {v : Scalar} (h : v.Ascii) : ∀ c ∈ v.text, c.toNat < 128 := by
  cases v with
  | int n =>
    intro c hc
    have hcode : c.toNat ∈ Json.intText n.neg n.mag := by
      rw [← asciiDecode_intLit]
      exact List.mem_map_of_mem hc
    rw [Json.intText, List.mem_append] at hcode
    rcases hcode with hminus | hdigit
    · have hcases : ∀ neg : Bool, ∀ d ∈ (if neg then [Json.minus] else [] : Text), d < 128 := by
        decide
      exact hcases n.neg _ hminus
    · have hdigit := Json.digits_isDigit n.mag _ hdigit
      simp only [Json.isDigit, Bool.and_eq_true, decide_eq_true_eq] at hdigit
      omega
  | str s => exact PlainStr.Ascii.quoted h
  | bool b =>
    have hbool : ∀ b, ∀ c ∈ (Scalar.bool b).text, c.toNat < 128 := by decide +kernel
    exact hbool b
  | null => decide +kernel

theorem JsonMember.Ascii.text {m : JsonMember} (h : m.Ascii) : ∀ c ∈ m.text, c.toNat < 128 := by
  intro c hc
  simp only [JsonMember.text, List.mem_append, List.mem_cons] at hc
  rcases hc with hc | hc | hc | rfl | hc | hc | hc
  · exact m.pre.ascii c hc
  · exact h.1.quoted c hc
  · exact m.mid.ascii c hc
  · decide
  · exact m.post.ascii c hc
  · exact h.2.text c hc
  · exact m.tail.ascii c hc

theorem laterText_ascii (trail : Gap) {ms : List JsonMember} (h : ∀ m ∈ ms, m.Ascii) :
    ∀ c ∈ laterText trail.bytes ms, c.toNat < 128 := by
  induction ms with
  | nil =>
    intro c hc
    rcases List.mem_cons.mp hc with rfl | hc
    · decide
    · exact trail.ascii c hc
  | cons m ms ih =>
    intro c hc
    rw [laterText, List.mem_cons, List.mem_append] at hc
    rcases hc with rfl | hc | hc
    · decide
    · exact (h m List.mem_cons_self).text c hc
    · exact ih (fun m' hm' => h m' (List.mem_cons_of_mem m hm')) c hc

theorem JsonLine.text_ascii (l : JsonLine) : ∀ c ∈ l.text, c.toNat < 128 := by
  have hascii := l.ascii
  unfold JsonLine.text
  intro c hc
  rw [List.mem_append, List.mem_cons, List.mem_append] at hc
  rcases hc with hc | rfl | hc | hc
  · exact l.lead.ascii c hc
  · decide
  · exact l.inner.ascii c hc
  · cases hms : l.members with
    | nil =>
      rw [hms] at hc
      rcases List.mem_cons.mp hc with rfl | hc
      · decide
      · exact l.trail.ascii c hc
    | cons m ms =>
      rw [hms] at hc hascii
      rcases List.mem_append.mp hc with hc | hc
      · exact (hascii m List.mem_cons_self).text c hc
      · exact laterText_ascii l.trail (fun m' hm' => hascii m' (List.mem_cons_of_mem m hm')) c hc

/-- What `process` gets of a line. -/
theorem decodeReplace_bytesStrip (l : JsonLine) :
    decodeReplace (bytesStrip l.text) = asciiDecode l.stripped.text := by
  rw [bytesStrip_text, decodeReplace_ascii l.stripped.text_ascii]

/-! ## The answers -/

/-- What the lines ask for. -/
def requests (ls : List JsonLine) : List Request := ls.map fun l => l.all.request

/-- Every request is answered, up to an ota, and done. -/
structure Answered (s₀ : Settings) (qs : List Request) (st : PanelState) (replies : List Text)
    (done : Bool) : Prop where
  replies : List.Forall₂ (fun reply q => ∃ st, reply = q.answer.line st) replies (upToOta qs)
  shows : st.Shows (performAll s₀ (upToOta qs))
  done : done = decide (Request.ota ∈ qs)

/-- The loop over the lines. -/
theorem serveLines_answered (floatEq : Text → ℤ → Bool) {ls : List JsonLine}
    (h : ∀ l ∈ ls, l.text.length ≤ 255) {st : PanelState} {s : Settings} (hst : st.Shows s) :
    Answered s (requests ls) (serveLines floatEq st (ls.map JsonLine.text)).1
      (serveLines floatEq st (ls.map JsonLine.text)).2.1
      (serveLines floatEq st (ls.map JsonLine.text)).2.2 := by
  induction ls generalizing st s with
  | nil => exact ⟨.nil, hst, rfl⟩
  | cons l ls ih =>
    have hlen : l.stripped.text.length ≤ 255 := by
      have hall := h l List.mem_cons_self
      rw [l.text_stripped, List.length_append, List.length_append] at hall
      omega
    have hsome : decodeReplace (bytesStrip l.text) ≠ [] := by
      obtain ⟨body, hbody⟩ := l.stripped_braces
      rw [decodeReplace_bytesStrip, hbody]
      exact List.cons_ne_nil _ _
    have hplays : Plays st l.all.request
        (process floatEq st (decodeReplace (bytesStrip l.text))) := by
      rw [decodeReplace_bytesStrip]
      exact process_request floatEq st hlen
    have hreply : ∃ st', (process floatEq st (decodeReplace (bytesStrip l.text))).2.1 =
        l.all.request.answer.line st' := ⟨st, hplays.reply⟩
    have hshows := hplays.shows s hst
    rw [List.map_cons, serveLines, if_neg hsome]
    dsimp only
    rw [hplays.isOta]
    show Answered s (l.all.request :: requests ls) _ _ _
    by_cases hota : l.all.request = .ota
    · have hone : upToOta (l.all.request :: requests ls) = [l.all.request] := by
        rw [upToOta_cons, if_pos hota]
      rw [if_pos (decide_eq_true hota)]
      refine ⟨?_, ?_, ?_⟩
      · rw [hone]
        exact .cons hreply .nil
      · rw [hone]
        exact hshows
      · rw [hota]
        simp
    · have hmore : upToOta (l.all.request :: requests ls) =
          l.all.request :: upToOta (requests ls) := by
        rw [upToOta_cons, if_neg hota]
      obtain ⟨hreplies, hfinal, hdone⟩ :=
        ih (fun l' hl' => h l' (List.mem_cons_of_mem l hl')) hshows
      rw [if_neg (by simpa using hota)]
      refine ⟨?_, ?_, ?_⟩
      · rw [hmore]
        exact .cons hreply hreplies
      · rw [hmore]
        exact hfinal
      · rw [hdone]
        simp [Ne.symm hota]

/-- What has been answered is followed by what is then asked. -/
theorem Answered.append {s₀ : Settings} {qs qs' : List Request} {st st' : PanelState}
    {replies replies' : List Text} {done done' : Bool} (h : Answered s₀ qs st replies done)
    (hup : done = false) (h' : Answered (performAll s₀ (upToOta qs)) qs' st' replies' done') :
    Answered s₀ (qs ++ qs') st' (replies ++ replies') done' := by
  have hnone : Request.ota ∉ qs := by
    have hdone := h.done
    rw [hup] at hdone
    exact of_decide_eq_false hdone.symm
  have hall : upToOta (qs ++ qs') = upToOta qs ++ upToOta qs' := by
    rw [upToOta_append, if_neg hnone, upToOta_eq hnone]
  refine ⟨?_, ?_, ?_⟩
  · rw [hall]
    exact List.rel_append h.replies h'.replies
  · rw [hall, performAll, List.foldl_append]
    exact h'.shows
  · rw [h'.done]
    simp [hnone]

/-! ## A session -/

/-- After `read`, which is the beginning of some lines. -/
structure MockClient.Serving (s₀ : Settings) (ls : List JsonLine) (read : List UInt8)
    (m : MockClient) : Prop where
  split : ∃ whole later rest, ls = whole ++ later ∧
    read = Terminated.wire newline (whole.map JsonLine.text) ++ rest ∧ newline ∉ rest ∧
    (m.done = false → m.buf = rest) ∧ Answered s₀ (requests whole) m.st m.replies m.done

/-- The beginning of some lines is some of them and a part of the next. -/
theorem exists_whole {ls : List JsonLine} (h : ∀ l ∈ ls, newline ∉ l.text) {read : List UInt8}
    (hread : read <+: Terminated.wire newline (ls.map JsonLine.text)) :
    ∃ whole later rest, ls = whole ++ later ∧
      read = Terminated.wire newline (whole.map JsonLine.text) ++ rest ∧ newline ∉ rest ∧
      (later = [] → rest = []) ∧ ∀ l later', later = l :: later' → rest <+: l.text := by
  obtain ⟨done, more, rest, hsplit, rfl, hend, hnext⟩ := Terminated.prefix_wire hread
  obtain ⟨whole, later, rfl, rfl, rfl⟩ := List.map_eq_append_iff.mp hsplit
  have hlast : ∀ l later', later = l :: later' → rest <+: l.text := by
    rintro l later' rfl
    exact hnext _ _ rfl
  refine ⟨whole, later, rest, rfl, rfl, ?_, fun hnone => hend (by rw [hnone]; rfl), hlast⟩
  cases later with
  | nil =>
    rw [hend rfl]
    exact List.not_mem_nil
  | cons l later' =>
    exact fun hmem => h l (List.mem_append_right _ List.mem_cons_self)
      ((hlast l later' rfl).subset hmem)

section Serve

variable {floatEq : Text → ℤ → Bool} {s₀ : Settings} {ls : List JsonLine}
  (hls : ∀ l ∈ ls, l.text.length ≤ 255 ∧ newline ∉ l.text)

theorem MockClient.Serving.press {m : MockClient} {read : List UInt8} (h : m.Serving s₀ ls read)
    (ms : ℕ) : (m.press ms).Serving s₀ ls read := by
  obtain ⟨whole, later, rest, hsplit, hread, hrest, hbuf, hanswered⟩ := h.split
  have hreplies : (m.press ms).replies = m.replies := by
    show (m.sent ++ [_]).filterMap MockLine.reply? = _
    rw [List.filterMap_append]
    exact List.append_nil _
  refine ⟨whole, later, rest, hsplit, hread, hrest, hbuf, ?_⟩
  rw [hreplies]
  obtain ⟨hanswers, ⟨hrings, hlamp, hms⟩, hdone⟩ := hanswered
  exact ⟨hanswers, ⟨hrings, hlamp, hms⟩, hdone⟩

include hls in
theorem MockClient.Serving.recv {m : MockClient} {read data : List UInt8}
    (h : m.Serving s₀ ls read) (hup : m.done = false)
    (hread : read ++ data <+: Terminated.wire newline (ls.map JsonLine.text)) :
    (m.recv floatEq data).Serving s₀ ls (read ++ data) := by
  obtain ⟨whole, later, rest, rfl, rfl, hrest, hbuf, hanswered⟩ := h.split
  rw [List.append_assoc, List.map_append, Terminated.wire_append,
    List.prefix_append_right_inj] at hread
  have hlater : ∀ l ∈ later, newline ∉ l.text := fun l hl =>
    (hls l (List.mem_append_right _ hl)).2
  -- What is taken off the buffer.
  obtain ⟨more, later, rest', rfl, hmore, hrest', -⟩ := exists_whole hlater hread
  have hframes : Terminated.read newline (m.buf ++ data) = (more.map JsonLine.text, rest') := by
    have hfree : ∀ f ∈ more.map JsonLine.text, newline ∉ f := by
      intro f hf
      obtain ⟨l, hl, rfl⟩ := List.mem_map.mp hf
      exact hlater l (List.mem_append_left _ hl)
    rw [hbuf hup, hmore, Terminated.read_wire hfree, Terminated.read_rest hrest', List.append_nil]
  have hlen : ∀ l ∈ more, l.text.length ≤ 255 := fun l hl =>
    (hls l (List.mem_append_right _ (List.mem_append_left _ hl))).1
  have hserved := hanswered.append hup (serveLines_answered floatEq hlen hanswered.shows)
  refine ⟨whole ++ more, later, rest', (List.append_assoc _ _ _).symm, ?_, hrest', fun _ => ?_, ?_⟩
  · rw [List.append_assoc, hmore, List.map_append, Terminated.wire_append, List.append_assoc]
  · exact congrArg Prod.snd hframes
  · have hreplies : (m.recv floatEq data).replies =
        m.replies ++ (serveLines floatEq m.st (more.map JsonLine.text)).2.1 := by
      have hfilter : ∀ replies : List Text,
          (replies.map MockLine.reply).filterMap MockLine.reply? = replies := by
        intro replies
        rw [List.filterMap_map]
        exact List.filterMap_some
      show (m.sent ++ (serveLines floatEq m.st (Terminated.read newline (m.buf ++ data)).1).2.1.map
        MockLine.reply).filterMap MockLine.reply? = _
      rw [List.filterMap_append, hfilter, hframes]
      rfl
    rw [hreplies]
    have hall : requests (whole ++ more) = requests whole ++ requests more := List.map_append
    rw [hall]
    show Answered s₀ _ (serveLines floatEq m.st (Terminated.read newline (m.buf ++ data)).1).1 _
      (serveLines floatEq m.st (Terminated.read newline (m.buf ++ data)).1).2.2
    rw [hframes]
    exact hserved

include hls in
/-- The run lemma. -/
theorem MockClient.Serving.run {m m' : MockClient} {read : List UInt8} {l : List MockEvent}
    (h : m.Serving s₀ ls read) (r : Run (MockStep floatEq) m l m')
    (hread : read ++ bytesServed l <+: Terminated.wire newline (ls.map JsonLine.text)) :
    m'.Serving s₀ ls (read ++ bytesServed l) := by
  induction r generalizing read with
  | nil _ =>
    rw [bytesServed, List.flatMap_nil, List.append_nil]
    exact h
  | @cons m _ _ e l hstep _ ih =>
    have hall : read ++ bytesServed (e :: l) = read ++ e.bytes ++ bytesServed l := by
      rw [bytesServed, List.flatMap_cons, ← List.append_assoc]
      rfl
    rw [hall] at hread ⊢
    refine ih ?_ hread
    unfold MockStep MockClient.next at hstep
    split at hstep
    · cases hstep
    · rename_i hup
      cases e with
      | press ms =>
        obtain rfl := Option.some.inj hstep
        rw [show MockEvent.bytes (.press ms) = [] from rfl, List.append_nil]
        exact h.press ms
      | recv data =>
        obtain rfl := Option.some.inj hstep
        exact h.recv hls (Bool.eq_false_iff.mpr hup) ((List.prefix_append _ _).trans hread)

include hls in
/-- **Every object is answered**, once its client's bytes have come or one of them has been an
ota. -/
theorem serve_answers {st : PanelState} (hst : st.Shows s₀) {l : List MockEvent} {m : MockClient}
    (r : Run (MockStep floatEq) (.accept st) l m)
    (hread : bytesServed l <+: Terminated.wire newline (ls.map JsonLine.text))
    (hend : bytesServed l = Terminated.wire newline (ls.map JsonLine.text) ∨ m.done = true) :
    Answered s₀ (requests ls) m.st m.replies m.done := by
  have hstart : (MockClient.accept st).Serving s₀ ls [] :=
    ⟨[], ls, [], rfl, rfl, List.not_mem_nil, fun _ => rfl, .nil, hst, rfl⟩
  obtain ⟨whole, later, rest, rfl, hwhole, hrest, -, hanswered⟩ :=
    (hstart.run hls r (by rw [List.nil_append]; exact hread)).split
  rw [List.nil_append] at hwhole
  have hall : requests (whole ++ later) = requests whole ++ requests later := List.map_append
  cases hdone : m.done with
  | true =>
    have hota : Request.ota ∈ requests whole := by
      have hmem := hanswered.done
      rw [hdone] at hmem
      exact of_decide_eq_true hmem.symm
    have hsame : upToOta (requests (whole ++ later)) = upToOta (requests whole) := by
      rw [hall, upToOta_append, if_pos hota]
    refine ⟨hsame ▸ hanswered.replies, hsame ▸ hanswered.shows, ?_⟩
    rw [hall]
    simp [hota]
  | false =>
    have hbytes := hend.resolve_right (by simp [hdone])
    rw [hwhole, List.map_append, Terminated.wire_append, List.append_cancel_left_eq] at hbytes
    obtain rfl : later = [] := by
      rcases later with _ | ⟨l, later⟩
      · rfl
      · -- The rest of a stream that has come would have a newline in it.
        rw [hbytes, List.map_cons, Terminated.wire_cons] at hrest
        simp at hrest
    rw [List.append_nil, ← hdone]
    exact hanswered

end Serve

end EthPanel
