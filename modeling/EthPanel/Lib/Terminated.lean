import Mathlib.Data.List.Basic
import Mathlib.Tactic.Common

/-!
# Frames ended by a separator

A stream of frames, each followed by a separator that is in none of them, and a reader that keeps
what it has received in a buffer and takes a frame off its front for as long as there is a separator
in it.

How the stream is cut into pieces makes no difference (`readAll_eq_read`); and a reader that begins
somewhere in the stream, and has not got to its end, has read exactly the frames that begin and end
in its part of it, and before them at most one that is the end of a frame (`read_window`).
-/

namespace Terminated

variable {β : Type*} (sep : β)

/-! ## The stream -/

/-- The stream of some frames. -/
def wire (frames : List (List β)) : List β := frames.flatMap (· ++ [sep])

variable {sep}

theorem wire_append (frames frames' : List (List β)) :
    wire sep (frames ++ frames') = wire sep frames ++ wire sep frames' := List.flatMap_append

theorem wire_cons (f : List β) (frames : List (List β)) :
    wire sep (f :: frames) = f ++ sep :: wire sep frames := by
  rw [wire, List.flatMap_cons, List.append_assoc]
  rfl

theorem length_wire_cons (f : List β) (frames : List (List β)) :
    (wire sep (f :: frames)).length = f.length + 1 + (wire sep frames).length := by
  rw [wire_cons, List.length_append, List.length_cons]
  omega

/-! ## The reader -/

variable [DecidableEq β] (sep)

/-- What comes before the first separator, and what comes after it. -/
def splitOnce : List β → Option (List β × List β)
  | [] => none
  | b :: bs => if b = sep then some ([], bs) else (splitOnce bs).map fun p => (b :: p.1, p.2)

/-- Frames are taken off the buffer, each with its separator. -/
def drain : ℕ → List β → List (List β) × List β
  | 0, buf => ([], buf)
  | n + 1, buf =>
    match splitOnce sep buf with
    | none => ([], buf)
    | some (frame, rest) => (frame :: (drain n rest).1, (drain n rest).2)

/-- A frame takes up at least its separator, so the buffer's length is fuel enough. -/
def read (buf : List β) : List (List β) × List β := drain sep buf.length buf

/-- Piece after piece, each put behind what is left of the buffer. -/
def readAll (buf : List β) : List (List β) → List (List β) × List β
  | [] => ([], buf)
  | data :: more =>
    ((read sep (buf ++ data)).1 ++ (readAll (read sep (buf ++ data)).2 more).1,
      (readAll (read sep (buf ++ data)).2 more).2)

variable {sep}

/-! ## Taking frames off -/

theorem splitOnce_eq_none {buf : List β} : splitOnce sep buf = none ↔ sep ∉ buf := by
  induction buf with
  | nil => simp [splitOnce]
  | cons b bs ih =>
    by_cases h : b = sep
    · simp [splitOnce, h]
    · simp [splitOnce, h, ih, Ne.symm h]

theorem splitOnce_frame {f : List β} (hf : sep ∉ f) (rest : List β) :
    splitOnce sep (f ++ sep :: rest) = some (f, rest) := by
  induction f with
  | nil => simp [splitOnce]
  | cons b f ih =>
    obtain ⟨hb, hf⟩ := not_or.mp (List.mem_cons.not.mp hf)
    simp [splitOnce, Ne.symm hb, ih hf]

theorem splitOnce_eq_some {buf f rest : List β} (h : splitOnce sep buf = some (f, rest)) :
    buf = f ++ sep :: rest ∧ sep ∉ f := by
  induction buf generalizing f with
  | nil => cases h
  | cons b bs ih =>
    by_cases hb : b = sep
    · simp only [splitOnce, hb, if_true, Option.some.injEq, Prod.mk.injEq] at h
      obtain ⟨rfl, rfl⟩ := h
      exact ⟨by rw [hb]; rfl, List.not_mem_nil⟩
    · simp only [splitOnce, hb, if_false, Option.map_eq_some_iff, Prod.mk.injEq] at h
      obtain ⟨⟨f', rest'⟩, hsplit, rfl, rfl⟩ := h
      obtain ⟨rfl, hf'⟩ := ih hsplit
      exact ⟨rfl, by simp [Ne.symm hb, hf']⟩

/-- Fuel beyond the buffer's length changes nothing. -/
theorem drain_eq {n m : ℕ} {buf : List β} (hn : buf.length ≤ n) (hm : buf.length ≤ m) :
    drain sep n buf = drain sep m buf := by
  have hempty : ∀ n, drain sep n [] = ([], []) := by
    intro n
    cases n <;> rfl
  induction n generalizing m buf with
  | zero =>
    obtain rfl := List.length_eq_zero_iff.mp (Nat.le_zero.mp hn)
    rw [hempty, hempty]
  | succ n ih =>
    cases m with
    | zero =>
      obtain rfl := List.length_eq_zero_iff.mp (Nat.le_zero.mp hm)
      rw [hempty, hempty]
    | succ m =>
      unfold drain
      cases hsplit : splitOnce sep buf with
      | none => rfl
      | some p =>
        obtain ⟨f, rest⟩ := p
        obtain ⟨rfl, -⟩ := splitOnce_eq_some hsplit
        simp only [List.length_append, List.length_cons] at hn hm
        simp only [@ih m rest (by omega) (by omega)]

theorem read_rest {buf : List β} (h : sep ∉ buf) : read sep buf = ([], buf) := by
  unfold read
  cases buf with
  | nil => rfl
  | cons b bs => simp only [List.length_cons, drain, splitOnce_eq_none.mpr h]

theorem read_cons {f : List β} (hf : sep ∉ f) (rest : List β) :
    read sep (f ++ sep :: rest) = (f :: (read sep rest).1, (read sep rest).2) := by
  obtain ⟨n, hn⟩ : ∃ n, (f ++ sep :: rest).length = n + 1 :=
    ⟨f.length + rest.length, by simp [Nat.add_assoc]⟩
  have hlength := hn
  simp only [List.length_append, List.length_cons] at hlength
  have hrest : drain sep n rest = read sep rest := drain_eq (by omega) (Nat.le_refl _)
  rw [read, hn, drain, splitOnce_frame hf]
  simp only [hrest]

/-- A buffer is some whole frames and a rest. -/
theorem exists_frames (buf : List β) : ∃ frames rest, buf = wire sep frames ++ rest ∧
    (∀ f ∈ frames, sep ∉ f) ∧ sep ∉ rest := by
  induction h : buf.length using Nat.strongRecOn generalizing buf with
  | ind n ih =>
    cases hsplit : splitOnce sep buf with
    | none =>
      exact ⟨[], buf, rfl, fun f hf => absurd hf List.not_mem_nil, splitOnce_eq_none.mp hsplit⟩
    | some p =>
      obtain ⟨f, rest⟩ := p
      obtain ⟨rfl, hf⟩ := splitOnce_eq_some hsplit
      obtain ⟨frames, rest, rfl, hframes, hrest⟩ := ih rest.length
        (by rw [← h]; simp only [List.length_append, List.length_cons]; omega) rest rfl
      refine ⟨f :: frames, rest, by rw [wire_cons, List.append_assoc]; rfl, ?_, hrest⟩
      intro f' hf'
      rcases List.mem_cons.mp hf' with rfl | hf'
      · exact hf
      · exact hframes f' hf'

/-- **What is read of whole frames are the frames.** -/
theorem read_wire {frames : List (List β)} (h : ∀ f ∈ frames, sep ∉ f) (rest : List β) :
    read sep (wire sep frames ++ rest) = (frames ++ (read sep rest).1, (read sep rest).2) := by
  induction frames with
  | nil => rfl
  | cons f frames ih =>
    have hstream : wire sep (f :: frames) ++ rest = f ++ sep :: (wire sep frames ++ rest) := by
      rw [wire_cons, List.append_assoc]
      rfl
    rw [hstream, read_cons (h f List.mem_cons_self),
      ih fun f' hf' => h f' (List.mem_cons_of_mem f hf')]
    rfl

theorem read_append (buf data : List β) : read sep (buf ++ data) =
    ((read sep buf).1 ++ (read sep ((read sep buf).2 ++ data)).1,
      (read sep ((read sep buf).2 ++ data)).2) := by
  obtain ⟨frames, rest, rfl, hframes, hrest⟩ := @exists_frames _ sep _ buf
  rw [List.append_assoc, read_wire hframes, read_wire hframes, read_rest hrest, List.append_nil]

/-- No separator is left. -/
theorem not_mem_read (buf : List β) : sep ∉ (read sep buf).2 := by
  obtain ⟨frames, rest, rfl, hframes, hrest⟩ := @exists_frames _ sep _ buf
  rwa [read_wire hframes, read_rest hrest]

/-- **The pieces make no difference.** -/
theorem readAll_eq_read {buf : List β} (hbuf : sep ∉ buf) (pieces : List (List β)) :
    readAll sep buf pieces = read sep (buf ++ pieces.flatten) := by
  induction pieces generalizing buf with
  | nil => rw [List.flatten_nil, List.append_nil, read_rest hbuf, readAll]
  | cons data pieces ih =>
    rw [readAll, ih (not_mem_read _), List.flatten_cons, ← List.append_assoc,
      read_append (buf ++ data)]

/-! ## A part of the stream -/

/-- The frames that begin before `p`, those after them that end by `q`, and the others. -/
structure Window (sep : β) (before done more : List (List β)) (p q : ℕ) : Prop where
  opens : p ≤ (wire sep before).length
  opened : ∀ l f, before = l ++ [f] → (wire sep l).length < p
  ended : done ≠ [] → (wire sep (before ++ done)).length ≤ q
  open' : ∀ f l, more = f :: l → q < (wire sep (before ++ done ++ [f])).length

/-- The end of a frame, which is not all of it. -/
def Partial (frames : List (List β)) (l : List β) : Prop :=
  ∃ f ∈ frames, ∃ k, 0 < k ∧ k ≤ f.length ∧ l = f.drop k

section Part

omit [DecidableEq β]

/-- Where a reader may begin: between two frames, or in one, of which it then gets the end. -/
theorem drop_wire {frames : List (List β)} {p : ℕ} (hp : p ≤ (wire sep frames).length) :
    ∃ before after parts, frames = before ++ after ∧
      (wire sep frames).drop p = wire sep (parts ++ after) ∧
      (parts = [] ∨ ∃ l, parts = [l] ∧ Partial before l) ∧
      (wire sep before).length = p + (wire sep parts).length ∧
      ∀ l f, before = l ++ [f] → (wire sep l).length < p := by
  induction frames generalizing p with
  | nil =>
    obtain rfl : p = 0 := Nat.le_zero.mp hp
    exact ⟨[], [], [], rfl, rfl, Or.inl rfl, rfl, fun l f h => by simp at h⟩
  | cons f frames ih =>
    rw [length_wire_cons] at hp
    by_cases hzero : p = 0
    · subst hzero
      exact ⟨[], f :: frames, [], rfl, rfl, Or.inl rfl, rfl, fun l f h => by simp at h⟩
    · have hone : ∀ l f', [f] = l ++ [f'] → (wire sep l).length < p := by
        intro l f' h
        obtain ⟨rfl, -⟩ := List.append_inj' (show [] ++ [f] = l ++ [f'] from h) rfl
        exact Nat.pos_of_ne_zero hzero
      by_cases hin : p ≤ f.length
      · refine ⟨[f], frames, [f.drop p], rfl, ?_, Or.inr ⟨_, rfl, f, List.mem_cons_self, p,
          Nat.pos_of_ne_zero hzero, hin, rfl⟩, ?_, hone⟩
        · rw [wire_cons, List.drop_append_of_le_length hin, List.singleton_append, wire_cons]
        · simp only [length_wire_cons, List.length_drop]
          omega
      · by_cases hsep : p = f.length + 1
        · refine ⟨[f], frames, [], rfl, ?_, Or.inl rfl, ?_, hone⟩
          · rw [wire_cons, hsep, List.drop_append, Nat.add_sub_cancel_left,
              List.drop_of_length_le (Nat.le_succ _)]
            rfl
          · rw [length_wire_cons, hsep]
        · obtain ⟨before, after, parts, rfl, hdrop, hparts, hlength, hopened⟩ :=
            @ih (p - (f.length + 1)) (by omega)
          refine ⟨f :: before, after, parts, rfl, ?_, ?_, ?_, ?_⟩
          · have hskip : p = f.length + (1 + (p - (f.length + 1))) := by omega
            rw [wire_cons, hskip, List.drop_append, List.drop_of_length_le (by omega),
              Nat.add_sub_cancel_left, Nat.add_comm 1, List.drop_succ_cons, ← hdrop]
            rfl
          · rcases hparts with hnone | ⟨l, rfl, f', hf', hpart⟩
            · exact Or.inl hnone
            · exact Or.inr ⟨l, rfl, f', List.mem_cons_of_mem f hf', hpart⟩
          · rw [length_wire_cons, hlength]
            omega
          · intro l f' h
            rcases l with _ | ⟨f₀, l⟩
            · exact Nat.pos_of_ne_zero hzero
            · obtain ⟨rfl, hrest⟩ := List.cons.inj h
              rw [length_wire_cons]
              have := hopened l f' hrest
              omega

/-- How far a reader may have got: through some frames, and into the next. -/
theorem prefix_wire {frames : List (List β)} {got : List β} (h : got <+: wire sep frames) :
    ∃ done more rest, frames = done ++ more ∧ got = wire sep done ++ rest ∧
      (more = [] → rest = []) ∧ ∀ f l, more = f :: l → rest <+: f := by
  induction frames generalizing got with
  | nil =>
    obtain rfl := List.prefix_nil.mp h
    exact ⟨[], [], [], rfl, rfl, fun _ => rfl, fun f l h => by cases h⟩
  | cons f frames ih =>
    have hwhole : got <+: f ++ [sep] ++ wire sep frames := by
      rw [wire_cons] at h
      rwa [List.append_assoc]
    have hpast : ∀ got', f ++ [sep] ++ got' <+: f ++ [sep] ++ wire sep frames →
        ∃ done more rest, f :: frames = done ++ more ∧ f ++ [sep] ++ got' = wire sep done ++ rest ∧
          (more = [] → rest = []) ∧ ∀ f l, more = f :: l → rest <+: f := by
      intro got' hgot'
      obtain ⟨done, more, rest, rfl, rfl, hend, hnext⟩ :=
        ih ((List.prefix_append_right_inj _).mp hgot')
      refine ⟨f :: done, more, rest, rfl, ?_, hend, hnext⟩
      rw [wire_cons]
      simp
    rcases List.prefix_or_prefix_of_prefix hwhole (List.prefix_append _ _) with hshort | ⟨got', rfl⟩
    · rcases List.prefix_concat_iff.mp hshort with rfl | hin
      · have hpast' := hpast [] (by rw [List.append_nil]; exact hwhole)
        rwa [List.append_nil] at hpast'
      · refine ⟨[], f :: frames, got, rfl, rfl, ?_, ?_⟩
        · intro h
          cases h
        · intro f' l h
          rw [← (List.cons.inj h).1]
          exact hin
    · exact hpast got' hwhole

end Part

/-- **What a reader of a part of the stream reads.** -/
theorem read_window {frames : List (List β)} (hframes : ∀ f ∈ frames, sep ∉ f) {p : ℕ}
    {got : List β} (hp : p ≤ (wire sep frames).length) (hgot : got <+: (wire sep frames).drop p) :
    ∃ before done more parts, frames = before ++ done ++ more ∧
      Window sep before done more p (p + got.length) ∧ (read sep got).1 = parts ++ done ∧
      (parts = [] ∨ ∃ l, parts = [l] ∧ Partial before l) := by
  obtain ⟨before, after, parts, rfl, hdrop, hparts, hlength, hopened⟩ := drop_wire hp
  rw [hdrop] at hgot
  obtain ⟨done, more, rest, hsplit, rfl, hend, hnext⟩ := prefix_wire hgot
  -- No separator in what is read, whole or not.
  have hfree : ∀ f ∈ done ++ more, sep ∉ f := by
    intro f hf
    rw [← hsplit] at hf
    rcases List.mem_append.mp hf with hf | hf
    · rcases hparts with rfl | ⟨l, rfl, f', hf', k, -, -, rfl⟩
      · exact absurd hf List.not_mem_nil
      · rw [List.mem_singleton.mp hf]
        exact fun hsep => hframes f' (List.mem_append_left _ hf') (List.mem_of_mem_drop hsep)
    · exact hframes f (List.mem_append_right _ hf)
  have hrest : sep ∉ rest := by
    cases more with
    | nil =>
      rw [hend rfl]
      exact List.not_mem_nil
    | cons f l =>
      exact fun hsep => hfree f (by simp) ((hnext f l rfl).subset hsep)
  have hread : (read sep (wire sep done ++ rest)).1 = done := by
    rw [read_wire fun f hf => hfree f (List.mem_append_left _ hf), read_rest hrest, List.append_nil]
  have hnextLength : ∀ f l, more = f :: l → rest.length ≤ f.length := fun f l h =>
    (hnext f l h).length_le
  rw [hread, List.length_append]
  have hwindow : ∀ done' : List (List β), done = parts ++ done' → after = done' ++ more →
      Window sep before done' more p (p + ((wire sep done).length + rest.length)) := by
    intro done' hdone _
    refine ⟨by omega, hopened, fun _ => ?_, fun f l h => ?_⟩
    · rw [hdone, wire_append, wire_append, List.length_append, List.length_append]
      omega
    · have := hnextLength f l h
      rw [hdone, wire_append, wire_append, wire_append, List.length_append, List.length_append,
        List.length_append, length_wire_cons]
      omega
  rcases hparts with rfl | ⟨l, rfl, hpart⟩
  · exact ⟨before, done, more, [], by rw [List.append_assoc, ← hsplit]; rfl,
      hwindow done rfl hsplit, rfl, Or.inl rfl⟩
  · rcases done with _ | ⟨l', done⟩
    · -- The end of the frame is not there yet.
      refine ⟨before, [], after, [], by rw [List.append_nil], ?_, rfl, Or.inl rfl⟩
      have hl := hnextLength l after hsplit.symm
      simp only [length_wire_cons] at hlength
      have hnil : (wire sep ([] : List (List β))).length = 0 := rfl
      refine ⟨by omega, hopened, fun h => absurd rfl h, fun f m _ => ?_⟩
      rw [List.append_nil, wire_append, List.length_append, length_wire_cons]
      omega
    · obtain ⟨rfl, hafter⟩ : l = l' ∧ after = done ++ more := List.cons.inj hsplit
      exact ⟨before, done, more, [l], by rw [List.append_assoc, hafter],
        hwindow done rfl hafter, rfl, Or.inr ⟨l, rfl, hpart⟩⟩

/-! ## Up to a frame

Who stops listening at one has heard those before it.
-/

section Through

variable {α γ : Type*}

/-- A list up to the first element with `p`, and that one. -/
def through (p : α → Bool) : List α → List α
  | [] => []
  | a :: l => if p a then [a] else a :: through p l

theorem through_append (p : α → Bool) (l l' : List α) :
    through p (l ++ l') = if l.any p then through p l else l ++ through p l' := by
  induction l with
  | nil => rfl
  | cons a l ih =>
    rw [List.cons_append, through, through, List.any_cons, ih]
    cases p a with
    | true => rfl
    | false => cases l.any p <;> rfl

theorem through_eq {p : α → Bool} {l : List α} (h : l.any p = false) : through p l = l := by
  have happend := through_append p l []
  rw [h, List.append_nil] at happend
  exact happend.trans (List.append_nil l)

theorem through_map (p : γ → Bool) (f : α → γ) (l : List α) :
    through p (l.map f) = (through (p ∘ f) l).map f := by
  induction l with
  | nil => rfl
  | cons a l ih =>
    rw [List.map_cons, through, through, ih, Function.comp_apply]
    cases p (f a) <;> rfl

theorem through_congr {p q : α → Bool} {l : List α} (h : ∀ a ∈ l, p a = q a) :
    through p l = through q l := by
  induction l with
  | nil => rfl
  | cons a l ih =>
    rw [through, through, h a List.mem_cons_self, ih fun b hb => h b (List.mem_cons_of_mem a hb)]

theorem prefix_through (p : α → Bool) (l : List α) : through p l <+: l := by
  induction l with
  | nil => exact List.prefix_rfl
  | cons a l ih =>
    rw [through]
    split
    · exact List.prefix_append [a] l
    · exact (List.prefix_cons_inj a).mpr ih

theorem mem_through_of_mem {p : α → Bool} {l : List α} {a : α}
    (ha : a ∈ l) (h : ∀ b ∈ l, p b = true → b = a) : a ∈ through p l := by
  induction l with
  | nil => cases ha
  | cons b l ih =>
    rw [through]
    split
    · rename_i hb
      rw [h b List.mem_cons_self hb]
      exact List.mem_singleton.mpr rfl
    · rcases List.mem_cons.mp ha with rfl | ha
      · exact List.mem_cons_self
      · exact List.mem_cons_of_mem b (ih ha fun c hc => h c (List.mem_cons_of_mem b hc))

theorem prefix_wire_through (sep : α) (p : List α → Bool) (frames : List (List α)) :
    wire sep (through p frames) <+: wire sep frames := by
  obtain ⟨after, hafter⟩ := prefix_through p frames
  conv_rhs => rw [← hafter, wire_append]
  exact List.prefix_append _ _

end Through

end Terminated
