import Mathlib.Data.List.TakeWhile
import Mathlib.Tactic.Common

/-!
# `main.c`: lines

The part of the super-loop that accumulates inbound bytes into lines and dispatches the complete
ones. `Framing.reference` says what it is for: split the stream at its newlines. The loop sees
the stream in whatever pieces `net_read` brings, and carries `linelen` and `discard` from one to
the next; `passes_eq_reference` says that the pieces do not matter.

`dispatch` takes a C string, so what it gets of a line ends before the first NUL in it.

The bytes may carry more than their value (who sent them, say): `val` is the value of one.
-/

namespace EthPanel

variable {β : Type*}

/-- `'\n'`. -/
def newline : UInt8 := 10

/-- `sizeof(linebuf)`. -/
def linebufSize : ℕ := 256

/-- `linebuf` up to `linelen`, and `discard`. There is always room for the terminator. -/
structure LineState (β : Type*) where
  linebuf : List β
  discard : Bool
  room : linebuf.length < linebufSize

/-- Before the first byte. -/
def LineState.fresh : LineState β := ⟨[], false, Nat.zero_lt_succ 255⟩

inductive LineOut (β : Type*)
  | dispatch (line : List β)
  /-- `send_err("line too long")`. -/
  | lineTooLong
  deriving DecidableEq

/-- What a reader of `line` sees of the bytes stored there. -/
def cString (val : β → UInt8) (line : List β) : List β := line.takeWhile fun b => val b != 0

/-- The loop body, for one byte. -/
def feed (val : β → UInt8) (s : LineState β) (ch : β) : LineState β × List (LineOut β) :=
  if val ch = newline then
    (.fresh, if !s.discard && decide (0 < s.linebuf.length) then
      [.dispatch (cString val s.linebuf)] else [])
  else if s.discard then (s, [])
  else if h : s.linebuf.length < linebufSize - 1 then
    (⟨s.linebuf ++ [ch], s.discard, by
      rw [List.length_append]
      exact Nat.add_lt_of_lt_sub h⟩, [])
  else ({ LineState.fresh with discard := true }, [.lineTooLong])

/-- The loop over the bytes of one `net_read`. -/
def feedAll (val : β → UInt8) (s : LineState β) : List β → LineState β × List (LineOut β)
  | [] => (s, [])
  | ch :: rx =>
    ((feedAll val (feed val s ch).1 rx).1,
      (feed val s ch).2 ++ (feedAll val (feed val s ch).1 rx).2)

/-- Pass after pass, each with what its `net_read` brought. -/
def passes (val : β → UInt8) (s : LineState β) : List (List β) → LineState β × List (LineOut β)
  | [] => (s, [])
  | rx :: chunks =>
    ((passes val (feedAll val s rx).1 chunks).1,
      (feedAll val s rx).2 ++ (passes val (feedAll val s rx).1 chunks).2)

/-! ## What it is for -/

namespace Framing

/-- A line that has ended. -/
def ended (line : List β) : List (LineOut β) :=
  if line = [] then [] else if line.length ≤ 255 then [.dispatch line] else [.lineTooLong]

/-- The pieces of a stream between its newlines, the last of them not ended yet. -/
def pieces : List (List β) → List (LineOut β)
  | [] => []
  | [rest] => if 256 ≤ rest.length then [.lineTooLong] else []
  | line :: rest => ended line ++ pieces rest

/-- Split at the newlines; drop what is empty; dispatch a line of up to 255 bytes, and answer a
longer one with one error, also when its newline has not come yet. -/
def reference (val : β → UInt8) (stream : List β) : List (LineOut β) :=
  pieces (stream.splitOnP fun b => val b == newline)

end Framing

/-- A dispatched line as `dispatch` reads it. -/
def LineOut.asRead (val : β → UInt8) : LineOut β → LineOut β
  | .dispatch line => .dispatch (cString val line)
  | .lineTooLong => .lineTooLong

/-! ## The pieces do not matter -/

theorem feedAll_append (val : β → UInt8) (s : LineState β) (rx rx' : List β) :
    feedAll val s (rx ++ rx') = ((feedAll val (feedAll val s rx).1 rx').1,
      (feedAll val s rx).2 ++ (feedAll val (feedAll val s rx).1 rx').2) := by
  induction rx generalizing s with
  | nil => rfl
  | cons ch rx ih => simp only [List.cons_append, feedAll, ih, List.append_assoc]

/-- **Chunks make no difference.** -/
theorem passes_eq_feedAll (val : β → UInt8) (s : LineState β) (chunks : List (List β)) :
    passes val s chunks = feedAll val s chunks.flatten := by
  induction chunks generalizing s with
  | nil => rfl
  | cons rx chunks ih => simp only [passes, List.flatten_cons, feedAll_append, ih]

/-! ## The reference -/

/-- The state after the unfinished line `p`. -/
structure Holds (p : List β) (s : LineState β) : Prop where
  short : p.length ≤ 255 → s.linebuf = p ∧ s.discard = false
  long : 256 ≤ p.length → s.linebuf = [] ∧ s.discard = true

/-- What the pieces of the rest of a stream still give after the unfinished line `p`, whose
error has been sent if it is too long already. -/
def piecesAfter (p : List β) : List (List β) → List (LineOut β)
  | [] => []
  | [rest] => if p.length ≤ 255 ∧ 256 ≤ (p ++ rest).length then [.lineTooLong] else []
  | line :: rest =>
    (if p.length ≤ 255 then Framing.ended (p ++ line) else []) ++ Framing.pieces rest

theorem piecesAfter_nil (l : List (List β)) : piecesAfter [] l = Framing.pieces l := by
  match l with
  | [] => rfl
  | [rest] => simp [piecesAfter, Framing.pieces]
  | line :: line' :: rest => simp [piecesAfter, Framing.pieces]

/-- A byte of the line itself: the error comes with the 256th. -/
theorem piecesAfter_byte (p : List β) (b : β) {l : List (List β)} (hl : l ≠ []) :
    piecesAfter p (l.modifyHead (b :: ·))
      = (if p.length = 255 then [.lineTooLong] else []) ++ piecesAfter (p ++ [b]) l := by
  have hne : ∀ line, p ++ b :: line ≠ [] := by simp
  match l, hl with
  | [rest], _ =>
    simp only [List.modifyHead_cons, piecesAfter, List.length_append, List.length_cons,
      List.length_nil]
    split_ifs <;> first | rfl | omega
  | line :: line' :: rest, _ =>
    simp only [List.modifyHead_cons, piecesAfter, Framing.ended, List.append_assoc,
      List.singleton_append, hne, if_false, List.length_append, List.length_cons, List.length_nil]
    split_ifs <;> first | rfl | omega

/-! ## One byte -/

theorem feed_newline {val : β → UInt8} (s : LineState β) {ch : β} (h : val ch = newline) :
    (feed val s ch).1 = .fresh ∧ (feed val s ch).2 =
      if s.discard = false ∧ s.linebuf ≠ [] then [.dispatch (cString val s.linebuf)] else [] := by
  simp only [feed, h, if_true, true_and]
  cases s.discard <;> simp [List.length_pos_iff]

theorem feed_skip {val : β → UInt8} {s : LineState β} {ch : β} (h : val ch ≠ newline)
    (hd : s.discard = true) : feed val s ch = (s, []) := by
  simp only [feed, h, if_false, hd, if_true]

theorem feed_store {val : β → UInt8} {s : LineState β} {ch : β} (h : val ch ≠ newline)
    (hd : s.discard = false) (hroom : s.linebuf.length < 255) :
    (feed val s ch).1.linebuf = s.linebuf ++ [ch] ∧ (feed val s ch).1.discard = false ∧
      (feed val s ch).2 = [] := by
  have hroom' : s.linebuf.length < linebufSize - 1 := hroom
  simp only [feed, h, if_false, hd, Bool.false_eq_true, hroom', dif_pos, and_self]

theorem feed_overflow {val : β → UInt8} {s : LineState β} {ch : β} (h : val ch ≠ newline)
    (hd : s.discard = false) (hfull : ¬ s.linebuf.length < 255) :
    feed val s ch = ({ LineState.fresh with discard := true }, [.lineTooLong]) := by
  have hfull' : ¬ s.linebuf.length < linebufSize - 1 := hfull
  simp only [feed, h, if_false, hd, Bool.false_eq_true, hfull', dif_neg, not_false_eq_true]

theorem Holds.ends {val : β → UInt8} {p : List β} {s : LineState β} (hs : Holds p s) {ch : β}
    (h : val ch = newline) : Holds [] (feed val s ch).1 ∧
      (feed val s ch).2 = (if p.length ≤ 255 then Framing.ended p else []).map (.asRead val) := by
  obtain ⟨hfresh, hout⟩ := feed_newline s h
  refine ⟨?_, ?_⟩
  · rw [hfresh]
    exact ⟨fun _ => ⟨rfl, rfl⟩, fun hlong => absurd hlong (by simp)⟩
  · rw [hout]
    by_cases hp : p.length ≤ 255
    · obtain ⟨hbuf, hdis⟩ := hs.short hp
      rw [if_pos hp, hbuf, hdis, Framing.ended, if_pos hp]
      cases p with
      | nil => rfl
      | cons b p => rfl
    · obtain ⟨hbuf, hdis⟩ := hs.long (by omega)
      rw [if_neg hp, hdis]
      rfl

theorem Holds.grows {val : β → UInt8} {p : List β} {s : LineState β} (hs : Holds p s) {ch : β}
    (h : val ch ≠ newline) : Holds (p ++ [ch]) (feed val s ch).1 ∧
      (feed val s ch).2 = if p.length = 255 then [.lineTooLong] else [] := by
  have hlen : (p ++ [ch]).length = p.length + 1 := List.length_append
  by_cases hlong : 256 ≤ p.length
  · have hskip := feed_skip h (hs.long hlong).2
    rw [hskip, if_neg (by omega)]
    exact ⟨⟨fun hshort => by omega, fun _ => hs.long hlong⟩, rfl⟩
  · obtain ⟨hbuf, hdis⟩ := hs.short (by omega)
    by_cases hfull : p.length = 255
    · rw [feed_overflow h hdis (by rw [hbuf]; omega), if_pos hfull]
      exact ⟨⟨fun hshort => by omega, fun _ => ⟨rfl, rfl⟩⟩, rfl⟩
    · obtain ⟨h₁, h₂, h₃⟩ := feed_store h hdis (by rw [hbuf]; omega)
      rw [h₃, if_neg hfull]
      exact ⟨⟨fun _ => ⟨by rw [h₁, hbuf], h₂⟩, fun hlong' => by omega⟩, rfl⟩

theorem mem_linebuf_feed {val : β → UInt8} {s : LineState β} {ch b : β}
    (h : b ∈ (feed val s ch).1.linebuf) : b ∈ s.linebuf ∨ b = ch := by
  by_cases hnl : val ch = newline
  · rw [(feed_newline s hnl).1] at h
    cases h
  · cases hd : s.discard with
    | true =>
      rw [feed_skip hnl hd] at h
      exact Or.inl h
    | false =>
      by_cases hroom : s.linebuf.length < 255
      · rw [(feed_store hnl hd hroom).1, List.mem_append, List.mem_singleton] at h
        exact h
      · rw [feed_overflow hnl hd hroom] at h
        cases h

theorem mem_dispatch_feed {val : β → UInt8} {s : LineState β} {ch b : β} {line : List β}
    (h : .dispatch line ∈ (feed val s ch).2) (hb : b ∈ line) : b ∈ s.linebuf := by
  by_cases hnl : val ch = newline
  · rw [(feed_newline s hnl).2] at h
    split at h
    · rw [List.mem_singleton] at h
      rw [LineOut.dispatch.inj h] at hb
      exact (List.takeWhile_prefix _).subset hb
    · cases h
  · cases hd : s.discard with
    | true =>
      rw [feed_skip hnl hd] at h
      cases h
    | false =>
      by_cases hroom : s.linebuf.length < 255
      · rw [(feed_store hnl hd hroom).2.2] at h
        cases h
      · rw [feed_overflow hnl hd hroom, List.mem_singleton] at h
        cases h

/-! ## What else the bytes carry -/

section Map

variable {γ : Type*} (f : β → γ)

def LineState.map (s : LineState β) : LineState γ :=
  ⟨s.linebuf.map f, s.discard, by
    rw [List.length_map]
    exact s.room⟩

@[simp] theorem LineState.map_linebuf (s : LineState β) : (s.map f).linebuf = s.linebuf.map f := rfl

@[simp] theorem LineState.map_discard (s : LineState β) : (s.map f).discard = s.discard := rfl

def LineOut.map : LineOut β → LineOut γ
  | .dispatch line => .dispatch (line.map f)
  | .lineTooLong => .lineTooLong

theorem cString_map (val : γ → UInt8) (line : List β) :
    cString val (line.map f) = (cString (val ∘ f) line).map f := List.takeWhile_map ..

/-- The loop does not see it. -/
theorem feed_map (val : γ → UInt8) (s : LineState β) (ch : β) :
    feed val (s.map f) (f ch) =
      ((feed (val ∘ f) s ch).1.map f, (feed (val ∘ f) s ch).2.map (.map f)) := by
  by_cases hnl : val (f ch) = newline
  · have hnl' : (val ∘ f) ch = newline := hnl
    obtain ⟨hfresh, hout⟩ := feed_newline (s.map f) hnl
    obtain ⟨hfresh', hout'⟩ := feed_newline s hnl'
    refine Prod.ext (hfresh.trans (by rw [hfresh']; rfl)) (hout.trans ?_)
    rw [hout', LineState.map_linebuf, LineState.map_discard, cString_map]
    by_cases h : s.discard = false ∧ s.linebuf ≠ []
    · rw [if_pos h, if_pos ⟨h.1, fun hnil => h.2 (List.map_eq_nil_iff.mp hnil)⟩]
      rfl
    · rw [if_neg h, if_neg fun h' => h ⟨h'.1, fun hnil => h'.2 (List.map_eq_nil_iff.mpr hnil)⟩]
      rfl
  · have hnl' : (val ∘ f) ch ≠ newline := hnl
    cases hd : s.discard with
    | true =>
      rw [feed_skip (s := s.map f) hnl hd, feed_skip hnl' hd]
      rfl
    | false =>
      by_cases hroom : s.linebuf.length < linebufSize - 1
      · simp [feed, hnl, hd, hroom, LineState.map]
      · rw [feed_overflow (s := s.map f) hnl hd (by
            rw [LineState.map_linebuf, List.length_map]
            exact hroom),
          feed_overflow hnl' hd hroom]
        rfl

theorem feedAll_map (val : γ → UInt8) (s : LineState β) (rx : List β) :
    feedAll val (s.map f) (rx.map f) =
      ((feedAll (val ∘ f) s rx).1.map f, (feedAll (val ∘ f) s rx).2.map (.map f)) := by
  induction rx generalizing s with
  | nil => rfl
  | cons ch rx ih => simp only [List.map_cons, feedAll, feed_map, ih, List.map_append]

end Map

/-! ## The whole stream -/

theorem map_asRead_lineTooLong (val : β → UInt8) (c : Prop) [Decidable c] :
    (if c then [LineOut.lineTooLong] else []).map (LineOut.asRead val)
      = if c then [LineOut.lineTooLong] else [] := by
  split <;> rfl

/-- From the middle of a line on, the loop sends what the reference still gives. -/
theorem feedAll_holds (val : β → UInt8) {p : List β} {s : LineState β} (hs : Holds p s)
    (rx : List β) : (feedAll val s rx).2
      = (piecesAfter p (rx.splitOnP fun b => val b == newline)).map (.asRead val) := by
  induction rx generalizing p s with
  | nil =>
    have hnone : ¬ (p.length ≤ 255 ∧ 256 ≤ (p ++ []).length) := by
      rw [List.append_nil]
      omega
    rw [List.splitOnP_nil, piecesAfter, if_neg hnone]
    rfl
  | cons ch rx ih =>
    rw [List.splitOnP_cons_eq_if_modifyHead, feedAll]
    by_cases h : val ch = newline
    · obtain ⟨hfresh, hout⟩ := hs.ends h
      rw [if_pos (by rw [h]; rfl), ih hfresh, hout, piecesAfter_nil, ← List.map_append]
      cases hsplit : rx.splitOnP fun b => val b == newline with
      | nil => exact absurd hsplit (List.splitOnP_ne_nil _ _)
      | cons line rest =>
        rw [piecesAfter, List.append_nil]
        exact fun h => List.cons_ne_nil _ _ h
    · obtain ⟨hbyte, hout⟩ := hs.grows h
      rw [if_neg (by rw [beq_iff_eq]; exact h), ih hbyte, hout,
        piecesAfter_byte p ch (List.splitOnP_ne_nil _ _), List.map_append, map_asRead_lineTooLong]

/-- However `net_read` cuts the stream, the loop dispatches and
reports what the reference does, each line read as a C string. -/
theorem passes_eq_reference (val : β → UInt8) (chunks : List (List β)) :
    (passes val .fresh chunks).2 = (Framing.reference val chunks.flatten).map (.asRead val) := by
  have hfresh : Holds [] (LineState.fresh : LineState β) :=
    ⟨fun _ => ⟨rfl, rfl⟩, fun hlong => absurd hlong (by simp)⟩
  rw [passes_eq_feedAll, feedAll_holds val hfresh, piecesAfter_nil, Framing.reference]

/-! ## NUL bytes -/

/-- What line framing would be without C strings: every line dispatched as it came. -/
def LinesUnaltered : Prop :=
  ∀ chunks : List (List UInt8), (passes id .fresh chunks).2 = Framing.reference id chunks.flatten

/-- **A NUL cuts a line short**: of `a`, NUL, `b` the dispatcher reads `a`. -/
theorem linesUnaltered_nul : ¬ LinesUnaltered := by
  intro h
  exact absurd (h [[0x61, 0x00, 0x62, 0x0A]]) (by decide)

theorem cString_eq {val : β → UInt8} {line : List β} (h : ∀ b ∈ line, val b ≠ 0) :
    cString val line = line := by
  unfold cString
  rw [List.takeWhile_eq_self_iff]
  exact fun b hb => bne_iff_ne.mpr (h b hb)

theorem mem_of_mem_splitOnP {q : β → Bool} {stream line : List β} {b : β}
    (hline : line ∈ stream.splitOnP q) (hb : b ∈ line) : b ∈ stream := by
  induction stream generalizing line with
  | nil =>
    rw [List.splitOnP_nil, List.mem_singleton] at hline
    exact hline ▸ hb
  | cons c stream ih =>
    rw [List.splitOnP_cons_eq_if_modifyHead] at hline
    split at hline
    · rcases List.mem_cons.mp hline with rfl | hrest
      · cases hb
      · exact List.mem_cons_of_mem c (ih hrest hb)
    · cases hsplit : stream.splitOnP q with
      | nil => exact absurd hsplit (List.splitOnP_ne_nil _ _)
      | cons first rest =>
        rw [hsplit, List.modifyHead_cons] at hline
        rw [hsplit] at ih
        rcases List.mem_cons.mp hline with rfl | hrest
        · rcases List.mem_cons.mp hb with rfl | hfirst
          · exact List.mem_cons_self
          · exact List.mem_cons_of_mem c (ih List.mem_cons_self hfirst)
        · exact List.mem_cons_of_mem c (ih (List.mem_cons_of_mem _ hrest) hb)

theorem mem_pieces {l : List (List β)} {line : List β}
    (h : LineOut.dispatch line ∈ Framing.pieces l) : line ∈ l := by
  have hended : ∀ first : List β, LineOut.dispatch line ∈ Framing.ended first → line = first := by
    intro first hfirst
    unfold Framing.ended at hfirst
    split at hfirst
    · cases hfirst
    · split at hfirst
      · rw [List.mem_singleton] at hfirst
        exact LineOut.dispatch.inj hfirst
      · rw [List.mem_singleton] at hfirst
        cases hfirst
  induction l with
  | nil => cases h
  | cons first rest ih =>
    cases rest with
    | nil =>
      simp only [Framing.pieces] at h
      split at h
      · rw [List.mem_singleton] at h
        cases h
      · cases h
    | cons second rest =>
      rcases List.mem_append.mp h with h | h
      · exact hended first h ▸ List.mem_cons_self
      · exact List.mem_cons_of_mem first (ih h)

/-- **Line framing is exact.** However `net_read` cuts the stream, the loop does what the
reference does, each line read as a C string; without NUL bytes that is the line itself. -/
theorem lineFraming_exact (val : β → UInt8) (chunks : List (List β)) :
    (passes val .fresh chunks).2 = (Framing.reference val chunks.flatten).map (.asRead val) ∧
      ((∀ b ∈ chunks.flatten, val b ≠ 0) →
        (passes val .fresh chunks).2 = Framing.reference val chunks.flatten) := by
  refine ⟨passes_eq_reference val chunks, fun hnul => ?_⟩
  have hread : ∀ out ∈ Framing.reference val chunks.flatten, out.asRead val = id out := by
    intro out hout
    cases out with
    | lineTooLong => rfl
    | dispatch line =>
      have hline : ∀ b ∈ line, val b ≠ 0 := by
        intro b hb
        exact hnul b (mem_of_mem_splitOnP (mem_pieces hout) hb)
      rw [LineOut.asRead, cString_eq hline, id_eq]
  rw [passes_eq_reference, List.map_congr_left hread, List.map_id]

/-! ## A line by itself -/

theorem feedAll_store {val : β → UInt8} {line : List β} (h : ∀ b ∈ line, val b ≠ newline)
    {s : LineState β} (hd : s.discard = false) (hroom : s.linebuf.length + line.length ≤ 255) :
    (feedAll val s line).1.linebuf = s.linebuf ++ line ∧
      (feedAll val s line).1.discard = false := by
  induction line generalizing s with
  | nil => exact ⟨(List.append_nil _).symm, hd⟩
  | cons b line ih =>
    rw [List.length_cons] at hroom
    obtain ⟨h₁, h₂, _⟩ := feed_store (h b List.mem_cons_self) hd (by omega)
    have hrest := ih (fun c hc => h c (List.mem_cons_of_mem _ hc)) h₂
      (by rw [h₁, List.length_append, List.length_singleton]; omega)
    rw [h₁, List.append_assoc, List.singleton_append] at hrest
    exact hrest

theorem dispatch_first_line {val : β → UInt8} {line rest : List β} {nl : β} (hne : line ≠ [])
    (hlen : line.length ≤ 255) (hline : ∀ b ∈ line, val b ≠ newline ∧ val b ≠ 0)
    (hnl : val nl = newline) : .dispatch line ∈ (feedAll val .fresh (line ++ nl :: rest)).2 := by
  have hroom : (LineState.fresh : LineState β).linebuf.length + line.length ≤ 255 := by
    rw [show (LineState.fresh : LineState β).linebuf.length = 0 from rfl]
    omega
  obtain ⟨hbuf, hdis⟩ := feedAll_store (fun b hb => (hline b hb).1) rfl hroom
  rw [show (LineState.fresh : LineState β).linebuf = [] from rfl, List.nil_append] at hbuf
  have hout : (feed val (feedAll val .fresh line).1 nl).2 = [.dispatch line] := by
    rw [(feed_newline _ hnl).2, hbuf, hdis, if_pos ⟨rfl, hne⟩,
      cString_eq fun b hb => (hline b hb).2]
  rw [feedAll_append, feedAll, hout]
  exact List.mem_append_right _ List.mem_cons_self

end EthPanel
