import Mathlib.Algebra.Group.Int.Defs
import Mathlib.Algebra.Group.Nat.Defs
import Mathlib.Data.List.FinRange
import Mathlib.Data.Int.Notation
import Mathlib.Logic.Function.Basic
import Mathlib.Logic.Function.Iterate
import Mathlib.Tactic.Common

/-!
# `buttons/buttons.c`

The debouncer: levels in, edges out. One call of `buttons_update` is a sweep over the buttons;
`Swept` says everything such a sweep does, to the buttons it has been at and to the others, and
nothing below it unfolds the loop.

What the edges are for is `Tracks`: a level that a reader keeps by flipping it at each edge is
the debounced one (`runOps_seed`), whatever the buffer of a call had room for.
-/

namespace EthPanel

/-- `BTN_COUNT`. -/
abbrev btnCount : ℕ := 2

abbrev Button := Fin btnCount

/-- One level per button, `true` for pressed. -/
abbrev Levels := Button → Bool

/-- `btn_event`. -/
structure BtnEvent where
  id : ℕ
  pressed : Bool
  deriving DecidableEq

/-- `buttons_t`. -/
structure Buttons where
  stable : Levels
  rawLast : Levels
  rawSinceMs : Button → UInt32
  debounceMs : UInt16
  initialized : Bool

def buttonsInit (debounceMs : UInt16) : Buttons :=
  ⟨fun _ => false, fun _ => false, fun _ => 0, debounceMs, false⟩

def buttonsSetDebounce (bs : Buttons) (debounceMs : UInt16) : Buttons :=
  { bs with debounceMs := debounceMs }

/-- `if (raw[i] != bs->raw_last[i])`: the raw level has changed. -/
def Buttons.latch (bs : Buttons) (raw : Levels) (nowMs : UInt32) (i : Button) : Buttons :=
  if raw i ≠ bs.rawLast i then
    { bs with
      rawLast := Function.update bs.rawLast i (raw i)
      rawSinceMs := Function.update bs.rawSinceMs i nowMs }
  else bs

/-- The level differs from the debounced one and has held for the window. -/
def Buttons.Due (bs : Buttons) (raw : Levels) (nowMs : UInt32) (i : Button) : Prop :=
  raw i ≠ bs.stable i ∧ nowMs - bs.rawSinceMs i ≥ bs.debounceMs.toUInt32

instance (bs : Buttons) (raw : Levels) (nowMs : UInt32) (i : Button) :
    Decidable (bs.Due raw nowMs i) := inferInstanceAs (Decidable (_ ∧ _))

/-- The loop body of `buttons_update`, on the state and the events written so far. -/
def updateButton (raw : Levels) (nowMs : UInt32) (maxEvents : ℤ) (r : Buttons × List BtnEvent)
    (i : Button) : Buttons × List BtnEvent :=
  let bs := r.1.latch raw nowMs i
  if bs.Due raw nowMs i then
    -- The flip is committed only with its event.
    if (r.2.length : ℤ) < maxEvents then
      ({ bs with stable := Function.update bs.stable i (raw i) }, r.2 ++ [⟨i + 1, raw i⟩])
    else (bs, r.2)
  else (bs, r.2)

/-- `buttons_update`: the state after the call, and the events it wrote. -/
def buttonsUpdate (bs : Buttons) (raw : Levels) (nowMs : UInt32) (maxEvents : ℤ) :
    Buttons × List BtnEvent :=
  if !bs.initialized then
    ({ bs with stable := raw, rawLast := raw, rawSinceMs := fun _ => nowMs, initialized := true },
      [])
  else (List.finRange btnCount).foldl (updateButton raw nowMs maxEvents) (bs, [])

def buttonsPressed (bs : Buttons) (idx : ℤ) : Bool :=
  if h : 0 ≤ idx ∧ idx < btnCount then bs.stable ⟨idx.toNat, by omega⟩ else false

@[simp] theorem buttonsPressed_coe (bs : Buttons) (i : Button) :
    buttonsPressed bs (i : ℕ) = bs.stable i := by
  unfold buttonsPressed
  rw [dif_pos ⟨Int.natCast_nonneg _, by exact_mod_cast i.2⟩]
  rfl

/-! ## Edges -/

/-- The levels that a list of events reports for a button. -/
def levelsOf (i : Button) (evs : List BtnEvent) : List Bool :=
  (evs.filter fun e => e.id == i.val + 1).map BtnEvent.pressed

/-- The first `n` edges from a level: they alternate, beginning with its negation. -/
def edges (level : Bool) (n : ℕ) : List Bool := (List.range n).map fun k => not^[k + 1] level

/-- The edges `es` lead from `level` to `now`. -/
structure Tracks (level : Bool) (es : List Bool) (now : Bool) : Prop where
  alternate : es = edges level es.length
  flipped : now = not^[es.length] level

theorem Tracks.refl (level : Bool) : Tracks level [] level := ⟨rfl, rfl⟩

theorem Tracks.snoc {level now : Bool} {es : List Bool} (h : Tracks level es now) :
    Tracks level (es ++ [!now]) (!now) := by
  have hnow : (!now) = not^[es.length + 1] level := by
    rw [Function.iterate_succ_apply', ← h.flipped]
  refine ⟨?_, ?_⟩
  · rw [List.length_append, List.length_singleton, edges, List.range_succ, List.map_append,
      List.map_singleton, ← hnow]
    exact congrArg (· ++ [!now]) h.alternate
  · rw [List.length_append, List.length_singleton]
    exact hnow

theorem Tracks.snoc_of_ne {level now next : Bool} {es : List Bool} (h : Tracks level es now)
    (hne : next ≠ now) : Tracks level (es ++ [next]) next := by
  rw [Bool.eq_not.mpr hne]
  exact h.snoc

/-- A reader that takes over each edge as it comes has the level there is now. -/
theorem Tracks.read {level now : Bool} {es : List Bool} (h : Tracks level es now) :
    es.getLastD level = now := by
  rw [h.alternate, h.flipped]
  cases es.length with
  | zero => rfl
  | succ n =>
    rw [edges, List.range_succ, List.map_append, List.map_singleton, List.getLastD_concat]

theorem levelsOf_append (i : Button) (evs evs' : List BtnEvent) :
    levelsOf i (evs ++ evs') = levelsOf i evs ++ levelsOf i evs' := by
  unfold levelsOf
  rw [List.filter_append, List.map_append]

/-! ## One sweep -/

@[simp] theorem Buttons.latch_stable (bs : Buttons) (raw : Levels) (nowMs : UInt32) (i : Button) :
    (bs.latch raw nowMs i).stable = bs.stable := by
  unfold Buttons.latch
  split <;> rfl

@[simp] theorem Buttons.latch_debounceMs (bs : Buttons) (raw : Levels) (nowMs : UInt32)
    (i : Button) : (bs.latch raw nowMs i).debounceMs = bs.debounceMs := by
  unfold Buttons.latch
  split <;> rfl

@[simp] theorem Buttons.latch_initialized (bs : Buttons) (raw : Levels) (nowMs : UInt32)
    (i : Button) : (bs.latch raw nowMs i).initialized = bs.initialized := by
  unfold Buttons.latch
  split <;> rfl

theorem Buttons.latch_rawLast (bs : Buttons) (raw : Levels) (nowMs : UInt32) (i : Button) :
    (bs.latch raw nowMs i).rawLast = Function.update bs.rawLast i (raw i) := by
  unfold Buttons.latch
  split
  · rfl
  · rename_i h
    rw [not_not.mp h, Function.update_eq_self]

theorem Buttons.latch_rawSinceMs (bs : Buttons) (raw : Levels) (nowMs : UInt32) (i : Button) :
    (bs.latch raw nowMs i).rawSinceMs = Function.update bs.rawSinceMs i
      (if raw i ≠ bs.rawLast i then nowMs else bs.rawSinceMs i) := by
  unfold Buttons.latch
  split
  · rfl
  · rw [Function.update_eq_self]

/-- What a sweep over the buttons `is` has made of `bs`. -/
structure Swept (bs : Buttons) (raw : Levels) (nowMs : UInt32) (maxEvents : ℤ) (is : List Button)
    (r : Buttons × List BtnEvent) : Prop where
  room : r.2.length ≤ maxEvents.toNat
  count : r.2.length ≤ is.length
  ids : r.2.Pairwise fun e e' => e.id < e'.id
  swept : ∀ e ∈ r.2, ∃ i ∈ is, e.id = i.val + 1
  /-- One event for each level that has flipped. -/
  levels : ∀ i, levelsOf i r.2 = if r.1.stable i = bs.stable i then [] else [r.1.stable i]
  /-- A level flips when it is due … -/
  flips : ∀ i, r.1.stable i ≠ bs.stable i →
    r.1.stable i = raw i ∧ (bs.latch raw nowMs i).Due raw nowMs i
  /-- … and does, as long as there is room for its event. -/
  misses : ∀ i ∈ is, r.1.stable i = bs.stable i → (bs.latch raw nowMs i).Due raw nowMs i →
    maxEvents < is.length
  latched : ∀ i ∈ is, r.1.rawLast i = raw i ∧
    r.1.rawSinceMs i = (bs.latch raw nowMs i).rawSinceMs i
  untouched : ∀ i, i ∉ is → r.1.stable i = bs.stable i ∧ r.1.rawLast i = bs.rawLast i ∧
    r.1.rawSinceMs i = bs.rawSinceMs i
  debounceMs : r.1.debounceMs = bs.debounceMs
  initialized : r.1.initialized = bs.initialized

theorem Swept.start (bs : Buttons) (raw : Levels) (nowMs : UInt32) (maxEvents : ℤ) :
    Swept bs raw nowMs maxEvents [] (bs, []) where
  room := Nat.zero_le _
  count := Nat.le_refl _
  ids := .nil
  swept := fun _ he => nomatch he
  levels := fun _ => (if_pos rfl).symm
  flips := fun _ hne => absurd rfl hne
  misses := fun _ hi => nomatch hi
  latched := fun _ hi => nomatch hi
  untouched := fun _ _ => ⟨rfl, rfl, rfl⟩
  debounceMs := rfl
  initialized := rfl

section Step

variable {bs : Buttons} {raw : Levels} {nowMs : UInt32} {maxEvents : ℤ} {is : List Button}
  {r : Buttons × List BtnEvent} {i : Button}

/-- A button the sweep has not been at yet looks as it did before the call. -/
theorem Swept.latch_next (h : Swept bs raw nowMs maxEvents is r) (hi : i ∉ is) :
    (r.1.latch raw nowMs i).rawSinceMs i = (bs.latch raw nowMs i).rawSinceMs i ∧
      ((r.1.latch raw nowMs i).Due raw nowMs i ↔ (bs.latch raw nowMs i).Due raw nowMs i) := by
  obtain ⟨hstable, hlast, hsince⟩ := h.untouched i hi
  have heq : (r.1.latch raw nowMs i).rawSinceMs i = (bs.latch raw nowMs i).rawSinceMs i := by
    rw [Buttons.latch_rawSinceMs, Buttons.latch_rawSinceMs, Function.update_self,
      Function.update_self, hlast, hsince]
  refine ⟨heq, ?_⟩
  unfold Buttons.Due
  rw [heq, Buttons.latch_stable, Buttons.latch_stable, Buttons.latch_debounceMs,
    Buttons.latch_debounceMs, hstable, h.debounceMs]

theorem Swept.relatched (h : Swept bs raw nowMs maxEvents is r) (hi : i ∉ is) (j : Button)
    (hj : j ∈ is ++ [i]) : (r.1.latch raw nowMs i).rawLast j = raw j ∧
      (r.1.latch raw nowMs i).rawSinceMs j = (bs.latch raw nowMs j).rawSinceMs j := by
  rw [Buttons.latch_rawLast]
  by_cases hji : j = i
  · subst hji
    rw [Function.update_self]
    exact ⟨rfl, (h.latch_next hi).1⟩
  · have hj' : j ∈ is := (List.mem_append.mp hj).resolve_right fun hj' =>
      hji (List.mem_singleton.mp hj')
    rw [Buttons.latch_rawSinceMs, Function.update_of_ne hji, Function.update_of_ne hji]
    exact h.latched j hj'

/-- The sweep latches the next button and leaves its level: it is not due, or there is no room. -/
theorem Swept.stays (h : Swept bs raw nowMs maxEvents is r) (hi : i ∉ is)
    (hstay : (bs.latch raw nowMs i).Due raw nowMs i → maxEvents ≤ r.2.length) :
    Swept bs raw nowMs maxEvents (is ++ [i]) (r.1.latch raw nowMs i, r.2) := by
  have hlen : (is ++ [i]).length = is.length + 1 := List.length_append
  have hcount := h.count
  refine ⟨h.room, by dsimp only; omega, h.ids, ?_, ?_, ?_, ?_, h.relatched hi, ?_, ?_, ?_⟩
  · intro e he
    obtain ⟨j, hj, hid⟩ := h.swept e he
    exact ⟨j, List.mem_append_left _ hj, hid⟩
  · simpa using h.levels
  · simpa using h.flips
  · intro j hj hsame hdue
    rw [Buttons.latch_stable] at hsame
    rcases List.mem_append.mp hj with hj | hj
    · have := h.misses j hj hsame hdue
      omega
    · obtain rfl := List.mem_singleton.mp hj
      have := hstay hdue
      omega
  · intro j hj
    rw [List.mem_append, List.mem_singleton, not_or] at hj
    rw [Buttons.latch_stable, Buttons.latch_rawLast, Buttons.latch_rawSinceMs,
      Function.update_of_ne hj.2, Function.update_of_ne hj.2]
    exact h.untouched j hj.1
  · exact (Buttons.latch_debounceMs ..).trans h.debounceMs
  · exact (Buttons.latch_initialized ..).trans h.initialized

theorem levelsOf_new {j : Button} {level : Bool} :
    levelsOf j [⟨i + 1, level⟩] = if j = i then [level] else [] := by
  unfold levelsOf
  by_cases hji : j = i
  · subst hji
    simp
  · have hne : ¬ i.val = j.val := fun heq => hji (Fin.ext heq.symm)
    simp [hji, hne]

/-- The sweep flips the level of the next button and writes its event. -/
theorem Swept.fires (h : Swept bs raw nowMs maxEvents is r) (hi : ∀ j ∈ is, j < i)
    (hdue : (bs.latch raw nowMs i).Due raw nowMs i) (hroom : (r.2.length : ℤ) < maxEvents) :
    Swept bs raw nowMs maxEvents (is ++ [i])
      ({ r.1.latch raw nowMs i with
        stable := Function.update (r.1.latch raw nowMs i).stable i (raw i) },
        r.2 ++ [⟨i + 1, raw i⟩]) := by
  have hnew : i ∉ is := fun hmem => absurd (hi i hmem) (lt_irrefl i)
  have hold := (h.untouched i hnew).1
  have hflip : raw i ≠ bs.stable i := by
    have := hdue.1
    rwa [Buttons.latch_stable] at this
  have hlen : (is ++ [i]).length = is.length + 1 := List.length_append
  have hlen' : (r.2 ++ [(⟨i + 1, raw i⟩ : BtnEvent)]).length = r.2.length + 1 := List.length_append
  have hcount := h.count
  refine ⟨by dsimp only; omega, by dsimp only; omega, ?_, ?_, ?_, ?_, ?_, h.relatched hnew, ?_, ?_,
    ?_⟩
  · refine List.pairwise_append.mpr ⟨h.ids, List.pairwise_singleton _ _, ?_⟩
    intro e he e' he'
    obtain ⟨j, hj, hid⟩ := h.swept e he
    rw [List.mem_singleton.mp he', hid]
    exact Nat.succ_lt_succ (hi j hj)
  · intro e he
    rcases List.mem_append.mp he with he | he
    · obtain ⟨j, hj, hid⟩ := h.swept e he
      exact ⟨j, List.mem_append_left _ hj, hid⟩
    · exact ⟨i, List.mem_append_right _ List.mem_cons_self, by rw [List.mem_singleton.mp he]⟩
  · intro j
    dsimp only
    rw [levelsOf_append, h.levels j, levelsOf_new]
    by_cases hji : j = i
    · subst hji
      simp [hold, hflip]
    · simp [hji]
  · intro j
    dsimp only
    by_cases hji : j = i
    · subst hji
      simp [hdue]
    · simpa [hji] using h.flips j
  · intro j hj hsame hdue'
    dsimp only at hsame
    by_cases hji : j = i
    · subst hji
      rw [Function.update_self] at hsame
      exact absurd hsame hflip
    · have hj' : j ∈ is := (List.mem_append.mp hj).resolve_right fun hj' =>
        hji (List.mem_singleton.mp hj')
      rw [Function.update_of_ne hji, Buttons.latch_stable] at hsame
      have := h.misses j hj' hsame hdue'
      omega
  · intro j hj
    rw [List.mem_append, List.mem_singleton, not_or] at hj
    dsimp only
    rw [Buttons.latch_stable, Buttons.latch_rawLast, Buttons.latch_rawSinceMs,
      Function.update_of_ne hj.2, Function.update_of_ne hj.2, Function.update_of_ne hj.2]
    exact h.untouched j hj.1
  · exact (Buttons.latch_debounceMs ..).trans h.debounceMs
  · exact (Buttons.latch_initialized ..).trans h.initialized

/-- **The step lemma.** -/
theorem Swept.step (h : Swept bs raw nowMs maxEvents is r) (hi : ∀ j ∈ is, j < i) :
    Swept bs raw nowMs maxEvents (is ++ [i]) (updateButton raw nowMs maxEvents r i) := by
  have hnew : i ∉ is := fun hmem => absurd (hi i hmem) (lt_irrefl i)
  have hdue := (h.latch_next hnew).2
  unfold updateButton
  dsimp only
  split
  · rename_i hd
    split
    · rename_i hroom
      exact h.fires hi (hdue.mp hd) hroom
    · rename_i hroom
      exact h.stays hnew fun _ => not_lt.mp hroom
  · rename_i hd
    exact h.stays hnew fun hd' => absurd (hdue.mpr hd') hd

end Step

/-- **One call of `buttons_update`**, past the first. -/
theorem buttonsUpdate_swept {bs : Buttons} (hinit : bs.initialized = true) (raw : Levels)
    (nowMs : UInt32) (maxEvents : ℤ) :
    Swept bs raw nowMs maxEvents (List.finRange btnCount)
      (buttonsUpdate bs raw nowMs maxEvents) := by
  have hrun : ∀ (todo done : List Button) (r : Buttons × List BtnEvent),
      (done ++ todo).Pairwise (· < ·) → Swept bs raw nowMs maxEvents done r →
      Swept bs raw nowMs maxEvents (done ++ todo)
        (todo.foldl (updateButton raw nowMs maxEvents) r) := by
    intro todo
    induction todo with
    | nil =>
      intro done r _ h
      rwa [List.append_nil]
    | cons i todo ih =>
      intro done r hsorted h
      have hlt : ∀ j ∈ done, j < i := by
        intro j hj
        exact (List.pairwise_append.mp hsorted).2.2 j hj i List.mem_cons_self
      have hassoc : done ++ i :: todo = (done ++ [i]) ++ todo := by
        rw [List.append_assoc, List.singleton_append]
      rw [hassoc] at hsorted ⊢
      exact ih (done ++ [i]) _ hsorted (h.step hlt)
  unfold buttonsUpdate
  rw [hinit]
  exact hrun (List.finRange btnCount) [] (bs, []) (List.pairwise_lt_finRange btnCount)
    (.start bs raw nowMs maxEvents)

/-! ## Runs -/

inductive ButtonOp
  | setDebounce (debounceMs : UInt16)
  | update (raw : Levels) (nowMs : UInt32) (maxEvents : ℤ)

def ButtonOp.run (bs : Buttons) : ButtonOp → Buttons × List BtnEvent
  | .setDebounce debounceMs => (buttonsSetDebounce bs debounceMs, [])
  | .update raw nowMs maxEvents => buttonsUpdate bs raw nowMs maxEvents

/-- Call after call, and all the events they wrote. -/
def runOps (bs : Buttons) : List ButtonOp → Buttons × List BtnEvent
  | [] => (bs, [])
  | op :: ops => ((runOps (op.run bs).1 ops).1, (op.run bs).2 ++ (runOps (op.run bs).1 ops).2)

/-- The levels of the first sample; what an unused debouncer shows if there is none. -/
def seedLevels : List ButtonOp → Levels
  | [] => fun _ => false
  | .setDebounce _ :: ops => seedLevels ops
  | .update raw _ _ :: _ => raw

/-- **One call keeps a level and its edges together.** -/
theorem ButtonOp.run_tracks {bs : Buttons} (hinit : bs.initialized = true) (op : ButtonOp)
    (i : Button) : (op.run bs).1.initialized = true ∧
      ∀ level es, Tracks level es (bs.stable i) →
        Tracks level (es ++ levelsOf i (op.run bs).2) ((op.run bs).1.stable i) := by
  cases op with
  | setDebounce debounceMs =>
    refine ⟨hinit, fun level es h => ?_⟩
    rwa [show levelsOf i (ButtonOp.run bs (.setDebounce debounceMs)).2 = [] from rfl,
      List.append_nil]
  | update raw nowMs maxEvents =>
    have hswept := buttonsUpdate_swept hinit raw nowMs maxEvents
    refine ⟨hswept.initialized.trans hinit, fun level es h => ?_⟩
    show Tracks level (es ++ levelsOf i (buttonsUpdate bs raw nowMs maxEvents).2)
      ((buttonsUpdate bs raw nowMs maxEvents).1.stable i)
    rw [hswept.levels i]
    split
    · rename_i hsame
      rwa [hsame, List.append_nil]
    · rename_i hflip
      exact h.snoc_of_ne hflip

theorem runOps_tracks {bs : Buttons} (hinit : bs.initialized = true) (ops : List ButtonOp)
    (i : Button) {level : Bool} {es : List Bool} (h : Tracks level es (bs.stable i)) :
    Tracks level (es ++ levelsOf i (runOps bs ops).2) ((runOps bs ops).1.stable i) := by
  induction ops generalizing bs es with
  | nil => rwa [show levelsOf i (runOps bs []).2 = [] from rfl, List.append_nil]
  | cons op ops ih =>
    obtain ⟨hinit', hop⟩ := op.run_tracks hinit i
    rw [runOps, levelsOf_append, ← List.append_assoc]
    exact ih hinit' (hop level es h)

theorem buttonsUpdate_seed {bs : Buttons} (hinit : bs.initialized = false) (raw : Levels)
    (nowMs : UInt32) (maxEvents : ℤ) : buttonsUpdate bs raw nowMs maxEvents = ({ bs with
      stable := raw, rawLast := raw, rawSinceMs := fun _ => nowMs, initialized := true }, []) := by
  rw [buttonsUpdate, hinit]
  rfl

/-- **The debounced level is the seed flipped once for each edge**, in every run from
`buttons_init`. -/
theorem runOps_seed {bs : Buttons} (hinit : bs.initialized = false)
    (hstable : bs.stable = fun _ => false) (ops : List ButtonOp) (i : Button) :
    Tracks (seedLevels ops i) (levelsOf i (runOps bs ops).2) ((runOps bs ops).1.stable i) := by
  have hseeded : ∀ (bs : Buttons) (ops : List ButtonOp), bs.initialized = true →
      Tracks (bs.stable i) (levelsOf i (runOps bs ops).2) ((runOps bs ops).1.stable i) :=
    fun _ ops hinit => runOps_tracks hinit ops i (.refl _)
  induction ops generalizing bs with
  | nil =>
    rw [show (runOps bs []).1 = bs from rfl, hstable]
    exact .refl _
  | cons op ops ih =>
    cases op with
    | setDebounce debounceMs => exact ih hinit hstable
    | update raw nowMs maxEvents =>
      simp only [runOps, ButtonOp.run, buttonsUpdate_seed hinit, List.nil_append]
      exact hseeded { bs with
        stable := raw, rawLast := raw, rawSinceMs := fun _ => nowMs, initialized := true } ops rfl

/-- **What one call writes**: at most `max_events` events, in increasing order of their buttons. -/
theorem buttonsUpdate_writes (bs : Buttons) (raw : Levels) (nowMs : UInt32) (maxEvents : ℤ) :
    (buttonsUpdate bs raw nowMs maxEvents).2.length ≤ maxEvents.toNat ∧
      (buttonsUpdate bs raw nowMs maxEvents).2.Pairwise fun e e' => e.id < e'.id := by
  cases hinit : bs.initialized with
  | true =>
    have h := buttonsUpdate_swept hinit raw nowMs maxEvents
    exact ⟨h.room, h.ids⟩
  | false =>
    rw [buttonsUpdate, hinit]
    exact ⟨Nat.zero_le _, .nil⟩

end EthPanel
