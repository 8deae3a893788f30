import Mathlib.Algebra.Group.Nat.Defs
import Mathlib.Tactic.Common

/-!
# Numbers told by flashes

A light tells a number digit by digit: a digit is as many short flashes, and a zero is one long
flash. Someone with a watch reads it. A `Watcher` sees the light change and when, and has nothing
but the three times of a `Pace` to tell a long flash from a short one, and the gaps inside a
digit, between digits and between numbers from each other.
-/

namespace Tally

/-- The shortest long flash, the shortest gap between digits and the shortest between numbers. -/
structure Pace where
  long : ℕ
  digit : ℕ
  number : ℕ
  digit_le_number : digit ≤ number

structure Watcher where
  lit : Bool
  /-- When the light last changed. -/
  since : ℕ
  /-- The short flashes of the digit so far. -/
  tally : ℕ
  /-- The digits of the number so far. -/
  digits : List ℕ
  /-- The numbers read. -/
  numbers : List (List ℕ)

variable (p : Pace) {w : Watcher} {t : ℕ}

/-- The light is seen lit or dark at a time. A flash is counted at its end, and a gap ends what
it is long enough to end. -/
def Watcher.see (w : Watcher) (t : ℕ) (lit : Bool) : Watcher :=
  if lit = w.lit then w
  else if w.lit then
    { w with
      lit := false
      since := t
      tally := if p.long ≤ t - w.since then w.tally else w.tally + 1 }
  else if t - w.since < p.digit then { w with lit := true, since := t }
  else if t - w.since < p.number then
    { w with lit := true, since := t, tally := 0, digits := w.digits ++ [w.tally] }
  else
    { w with
      lit := true
      since := t
      tally := 0
      digits := []
      numbers := w.numbers ++ [w.digits ++ [w.tally]] }

variable {p}

theorem Watcher.see_lit (h : w.lit = true) :
    w.see p t false = { w with
      lit := false
      since := t
      tally := if p.long ≤ t - w.since then w.tally else w.tally + 1 } := by
  simp [see, h]

theorem Watcher.see_short (h : w.lit = true) (hsince : w.since ≤ t)
    (hshort : t < w.since + p.long) :
    w.see p t false = { w with lit := false, since := t, tally := w.tally + 1 } := by
  rw [see_lit h, if_neg (by omega)]

theorem Watcher.see_long (h : w.lit = true) (hlong : w.since + p.long ≤ t) :
    w.see p t false = { w with lit := false, since := t } := by
  rw [see_lit h, if_pos (by omega)]

theorem Watcher.see_within (h : w.lit = false) (hsince : w.since ≤ t)
    (hgap : t < w.since + p.digit) : w.see p t true = { w with lit := true, since := t } := by
  have hshort : t - w.since < p.digit := by omega
  simp [see, h, hshort]

theorem Watcher.see_digit (h : w.lit = false) (hgap : w.since + p.digit ≤ t)
    (hend : t < w.since + p.number) :
    w.see p t true =
      { w with lit := true, since := t, tally := 0, digits := w.digits ++ [w.tally] } := by
  have hlong : ¬ t - w.since < p.digit := by omega
  have hshort : t - w.since < p.number := by omega
  simp [see, h, hlong, hshort]

theorem Watcher.see_number (h : w.lit = false) (hgap : w.since + p.number ≤ t) :
    w.see p t true =
      { w with
        lit := true
        since := t
        tally := 0
        digits := []
        numbers := w.numbers ++ [w.digits ++ [w.tally]] } := by
  have hle := p.digit_le_number
  have hlong : ¬ t - w.since < p.digit := by omega
  have hend : ¬ t - w.since < p.number := by omega
  simp [see, h, hlong, hend]

/-- Who looks up at a time and finds the light lit or dark. -/
def Watcher.start (lit : Bool) (t : ℕ) : Watcher := ⟨lit, t, 0, [], []⟩

/-- After a change the reader counts from it. -/
theorem Watcher.see_change {lit : Bool} (h : lit ≠ w.lit) :
    (w.see p t lit).lit = lit ∧ (w.see p t lit).since = t := by
  rw [see, if_neg h]
  cases hlit : w.lit with
  | true =>
    rw [hlit, ne_eq, Bool.not_eq_true] at h
    exact ⟨h.symm, rfl⟩
  | false =>
    rw [hlit, ne_eq, Bool.not_eq_false] at h
    rw [if_neg Bool.false_ne_true, h]
    split
    · exact ⟨rfl, rfl⟩
    · split <;> exact ⟨rfl, rfl⟩

/-- Only a gap that is long enough ends a number. -/
theorem Watcher.see_numbers {lit : Bool} (hsince : w.since ≤ t)
    (h : w.lit = true ∨ t < w.since + p.number) : (w.see p t lit).numbers = w.numbers := by
  unfold see
  split
  · rfl
  · split
    · rfl
    · rename_i hdark
      have hend : t - w.since < p.number := by
        have := h.resolve_left hdark
        omega
      rw [if_pos hend]
      split <;> rfl

end Tally
