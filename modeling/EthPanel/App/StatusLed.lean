import EthPanel.Lib.Run
import EthPanel.Lib.Tally
import Mathlib.Algebra.Group.Nat.Defs
import Mathlib.Data.Nat.Digits.Defs
import Mathlib.Logic.Function.Basic
import Mathlib.Tactic.Common

/-!
# `status_led/status_led.c`

The board tells the last octet of its address with one light, digit by digit. The task is polled
from the main loop and never waits: each call compares the clock with `s_next`. So the times that
someone sees depend on when the calls come, and what is proved is what a reader with a watch reads
from them (`Lib/Tally`).

Times are microseconds.
-/

namespace EthPanel

open Lts Tally

/-- `PULSE_ON_MS`. -/
def pulseOnTime : ℕ := 180000
/-- `PULSE_OFF_MS`. -/
def pulseOffTime : ℕ := 220000
/-- `ZERO_ON_MS`. -/
def zeroOnTime : ℕ := 600000
/-- `DIGIT_GAP_MS`. -/
def digitGapTime : ℕ := 700000
/-- `REPEAT_GAP_MS`. -/
def repeatGapTime : ℕ := 2200000

/-- `phase_t`. -/
inductive LedPhase
  | pulseOn | pulseOff | digitGap | repeatGap
  deriving DecidableEq

/-- The colour of the light. -/
structure Colour where
  r : UInt8
  g : UInt8
  b : UInt8
  deriving DecidableEq

def Colour.black : Colour := ⟨0, 0, 0⟩

/-- The statics of the file. -/
structure StatusLed where
  colour : Colour
  digits : ℕ → UInt8
  ndigits : ℕ
  di : ℕ
  pulsesDone : ℕ
  pulsesTarget : ℕ
  zeroDigit : Bool
  phase : LedPhase
  next : ℕ

/-- `begin_digit`, at the time at which it sets `s_next`. The light is on then. -/
def beginDigit (s : StatusLed) (i : ℕ) (armed : ℕ) : StatusLed :=
  let zero := s.digits i == 0
  { s with
    zeroDigit := zero
    pulsesTarget := if zero then 1 else (s.digits i).toNat
    pulsesDone := 0
    phase := .pulseOn
    next := armed + if zero then zeroOnTime else pulseOnTime }

/-- `status_led_set_color`. -/
def statusLedSetColor (s : StatusLed) (r g b : UInt8) : StatusLed := { s with colour := ⟨r, g, b⟩ }

/-- `status_led_show_octet`: the digits, with no leading zeros. -/
def StatusLed.setDigits (s : StatusLed) (octet : UInt8) : StatusLed :=
  if octet ≥ 100 then
    { s with
      digits := Function.update (Function.update (Function.update s.digits 0 (octet / 100))
        1 (octet / 10 % 10)) 2 (octet % 10)
      ndigits := 3 }
  else if octet ≥ 10 then
    { s with
      digits := Function.update (Function.update s.digits 0 (octet / 10)) 1 (octet % 10)
      ndigits := 2 }
  else { s with digits := Function.update s.digits 0 octet, ndigits := 1 }

/-- `status_led_show_octet`. The light is on after it. -/
def statusLedShowOctet (s : StatusLed) (octet : UInt8) (armed : ℕ) : StatusLed :=
  beginDigit { s.setDigits octet with di := 0 } 0 armed

/-- The times of one call: when it reads the clock, when it puts a colour, and when it sets
`s_next`. Between the first two `put_color` sleeps. -/
structure LedCall where
  now : ℕ
  put : ℕ
  armed : ℕ

/-- `status_led_task`, with the colour it puts, if it puts one. -/
def statusLedTask (s : StatusLed) (c : LedCall) : StatusLed × Option Colour :=
  if c.now < s.next then (s, none)
  else match s.phase with
    | .pulseOn =>
      let done := s.pulsesDone + 1
      if done ≥ s.pulsesTarget then
        ({ s with pulsesDone := done, phase := .digitGap, next := c.armed + digitGapTime },
          some .black)
      else
        ({ s with pulsesDone := done, phase := .pulseOff, next := c.armed + pulseOffTime },
          some .black)
    | .pulseOff => ({ s with phase := .pulseOn, next := c.armed + pulseOnTime }, some s.colour)
    | .digitGap =>
      let di := s.di + 1
      if di ≥ s.ndigits then
        ({ s with di := di, phase := .repeatGap, next := c.armed + repeatGapTime }, none)
      else (beginDigit { s with di := di } di c.armed, some s.colour)
    | .repeatGap => (beginDigit { s with di := 0 } 0 c.armed, some s.colour)

/-! ## What is shown -/

/-- The digits in `s_digits`. -/
def StatusLed.number (s : StatusLed) : List ℕ :=
  (List.range s.ndigits).map fun i => (s.digits i).toNat

/-- The digit that is told. -/
def StatusLed.digit (s : StatusLed) : ℕ := (s.digits s.di).toNat

/-- How often the light flashes for a digit. -/
def flashes (d : ℕ) : ℕ := if d = 0 then 1 else d

def StatusLed.lit (s : StatusLed) : Bool := s.phase = .pulseOn

/-- For how long the light is to stay as it is, from its last change. -/
def StatusLed.span (s : StatusLed) : ℕ :=
  match s.phase with
  | .pulseOn => if s.digit = 0 then zeroOnTime else pulseOnTime
  | .pulseOff => pulseOffTime
  | .digitGap => digitGapTime
  | .repeatGap => digitGapTime + repeatGapTime

/-- The digits told so far, and the flashes of the last one. -/
def StatusLed.shown (s : StatusLed) : List ℕ :=
  match s.phase with
  | .pulseOn | .pulseOff => s.number.take s.di ++ [s.pulsesDone]
  | .digitGap => s.number.take s.di ++ [s.digit]
  | .repeatGap => s.number

/-- What holds of the statics while a number is told. -/
structure StatusLed.Tells (number : List ℕ) (s : StatusLed) : Prop where
  colour : s.colour ≠ .black
  number : s.number = number
  some_digit : 0 < s.ndigits
  di_lt : s.phase ≠ .repeatGap → s.di < s.ndigits
  di_end : s.phase = .repeatGap → s.di = s.ndigits
  target : s.phase = .pulseOn ∨ s.phase = .pulseOff → s.pulsesTarget = flashes s.digit
  done_lt : s.phase = .pulseOn ∨ s.phase = .pulseOff → s.pulsesDone < s.pulsesTarget
  done_pos : s.phase = .pulseOff → 0 < s.pulsesDone

/-- An octet as it is written: its decimal digits, the first one first. -/
def octetDigits (octet : UInt8) : List ℕ :=
  if octet = 0 then [0] else (Nat.digits 10 octet.toNat).reverse

/-- What a call does once `s_next` is reached, with the light after it where it has put a colour. -/
inductive StatusLed.Move (s : StatusLed) (armed : ℕ) : StatusLed → Option Bool → Prop
  | flash (hphase : s.phase = .pulseOn) (hmore : s.pulsesDone + 1 < s.pulsesTarget) :
      Move s armed
        { s with
          pulsesDone := s.pulsesDone + 1
          phase := .pulseOff
          next := armed + pulseOffTime } (some false)
  | last (hphase : s.phase = .pulseOn) (hlast : s.pulsesTarget ≤ s.pulsesDone + 1) :
      Move s armed
        { s with
          pulsesDone := s.pulsesDone + 1
          phase := .digitGap
          next := armed + digitGapTime } (some false)
  | again (hphase : s.phase = .pulseOff) :
      Move s armed { s with phase := .pulseOn, next := armed + pulseOnTime } (some true)
  | digit (hphase : s.phase = .digitGap) (hmore : s.di + 1 < s.ndigits) :
      Move s armed (beginDigit { s with di := s.di + 1 } (s.di + 1) armed) (some true)
  | gap (hphase : s.phase = .digitGap) (hover : s.ndigits ≤ s.di + 1) :
      Move s armed { s with di := s.di + 1, phase := .repeatGap, next := armed + repeatGapTime }
        none
  | restart (hphase : s.phase = .repeatGap) :
      Move s armed (beginDigit { s with di := 0 } 0 armed) (some true)

section Tells

variable {number : List ℕ} {s t : StatusLed} {c : LedCall} {lit : Option Bool}

theorem statusLedTask_early (h : c.now < s.next) : statusLedTask s c = (s, none) := if_pos h

/-- **What a call does** that finds `s_next` reached. -/
theorem statusLedTask_move (hcolour : s.colour ≠ .black) (h : s.next ≤ c.now) :
    s.Move c.armed (statusLedTask s c).1
      ((statusLedTask s c).2.map fun colour => decide (colour ≠ .black)) := by
  have hdue : ¬ c.now < s.next := Nat.not_lt.mpr h
  rw [statusLedTask, if_neg hdue]
  cases hphase : s.phase with
  | pulseOn =>
    by_cases hlast : s.pulsesTarget ≤ s.pulsesDone + 1
    · simpa [hlast] using StatusLed.Move.last hphase hlast
    · simpa [hlast] using StatusLed.Move.flash hphase (Nat.not_le.mp hlast)
  | pulseOff => simpa [hcolour] using StatusLed.Move.again hphase
  | digitGap =>
    by_cases hover : s.ndigits ≤ s.di + 1
    · simpa [hover] using StatusLed.Move.gap hphase hover
    · simpa [hphase, hover, hcolour] using StatusLed.Move.digit hphase (Nat.not_le.mp hover)
  | repeatGap => simpa [hphase, hcolour] using StatusLed.Move.restart hphase

/-- Only the first flash of the number comes after the gap that ends it. -/
theorem StatusLed.Move.of_repeatGap {armed : ℕ} (hmove : s.Move armed t lit)
    (hphase : s.phase = .repeatGap) :
    lit = some true ∧ t = beginDigit { s with di := 0 } 0 armed := by
  cases hmove with
  | flash h _ => rw [h] at hphase; cases hphase
  | last h _ => rw [h] at hphase; cases hphase
  | again h => rw [h] at hphase; cases hphase
  | digit h _ => rw [h] at hphase; cases hphase
  | gap h _ => rw [h] at hphase; cases hphase
  | restart _ => exact ⟨rfl, rfl⟩

theorem beginDigit_next (armed : ℕ) :
    (beginDigit s s.di armed).next = armed + (beginDigit s s.di armed).span := by
  simp [StatusLed.span, beginDigit, StatusLed.digit, ← UInt8.toNat_inj]

theorem beginDigit_tells (hcolour : s.colour ≠ .black) (hnumber : s.number = number)
    (hdi : s.di < s.ndigits) (armed : ℕ) : (beginDigit s s.di armed).Tells number where
  colour := hcolour
  number := hnumber
  some_digit := Nat.zero_lt_of_lt hdi
  di_lt _ := hdi
  di_end h := by cases h
  target _ := by
    simp [beginDigit, flashes, StatusLed.digit, ← UInt8.toNat_inj]
  done_lt _ := by
    by_cases hzero : s.digits s.di = 0
    · simp [beginDigit, hzero]
    · have hpos : 0 < (s.digits s.di).toNat := by
        rw [← UInt8.toNat_inj] at hzero
        exact Nat.pos_of_ne_zero hzero
      simpa [beginDigit, hzero] using hpos
  done_pos h := by cases h

/-- A light that is out between two flashes tells no zero. -/
theorem StatusLed.Tells.digit_ne_zero (h : s.Tells number)
    (hphase : s.phase = .pulseOn ∨ s.phase = .pulseOff)
    (hmore : s.phase = .pulseOff ∨ s.pulsesDone + 1 < s.pulsesTarget) : s.digit ≠ 0 := by
  intro hzero
  have htarget : s.pulsesTarget = 1 := by rw [h.target hphase, hzero, flashes, if_pos rfl]
  have hlt := h.done_lt hphase
  rcases hmore with hoff | hmore
  · have hpos := h.done_pos hoff
    omega
  · omega

theorem StatusLed.Tells.move {armed : ℕ} (h : s.Tells number) (hmove : s.Move armed t lit) :
    t.Tells number := by
  cases hmove with
  | flash hphase hmore =>
    refine ⟨h.colour, h.number, h.some_digit, ?_, ?_, ?_, ?_, ?_⟩
    · exact fun _ => h.di_lt (by simp [hphase])
    · intro hend
      cases hend
    · exact fun _ => h.target (Or.inl hphase)
    · exact fun _ => hmore
    · exact fun _ => Nat.succ_pos _
  | last hphase hlast =>
    refine ⟨h.colour, h.number, h.some_digit, ?_, ?_, ?_, ?_, ?_⟩
    · exact fun _ => h.di_lt (by simp [hphase])
    all_goals simp
  | again hphase =>
    refine ⟨h.colour, h.number, h.some_digit, ?_, ?_, ?_, ?_, ?_⟩
    · exact fun _ => h.di_lt (by simp [hphase])
    · intro hend
      cases hend
    · exact fun _ => h.target (Or.inr hphase)
    · exact fun _ => h.done_lt (Or.inr hphase)
    · intro hoff
      cases hoff
  | digit hphase hmore =>
    exact beginDigit_tells (s := { s with di := s.di + 1 }) h.colour h.number hmore armed
  | gap hphase hover =>
    have hlt := h.di_lt (by simp [hphase])
    refine ⟨h.colour, h.number, h.some_digit, ?_, ?_, ?_, ?_, ?_⟩
    · intro hend
      exact absurd rfl hend
    · exact fun _ => Nat.le_antisymm hlt hover
    all_goals simp
  | restart hphase =>
    exact beginDigit_tells (s := { s with di := 0 }) h.colour h.number h.some_digit armed

/-- A move that puts a colour changes the light, and sets the time for the next one. -/
theorem StatusLed.Tells.move_put {armed : ℕ} {lit : Bool} (h : s.Tells number)
    (hmove : s.Move armed t (some lit)) :
    lit ≠ s.lit ∧ t.lit = lit ∧ t.phase ≠ .repeatGap ∧ t.next = armed + t.span := by
  cases hmove with
  | flash hphase _ => simp [lit, hphase, span]
  | last hphase _ => simp [lit, hphase, span]
  | again hphase =>
    have hdigit := h.digit_ne_zero (Or.inr hphase) (Or.inl hphase)
    have hsame : ∀ n, StatusLed.digit { s with phase := .pulseOn, next := n } = s.digit :=
      fun _ => rfl
    simp [lit, hphase, span, hsame, hdigit]
  | digit hphase _ =>
    refine ⟨by simp [lit, hphase], rfl, LedPhase.noConfusion, ?_⟩
    exact beginDigit_next (s := { s with di := s.di + 1 }) armed
  | restart hphase =>
    refine ⟨by simp [lit, hphase], rfl, LedPhase.noConfusion, ?_⟩
    exact beginDigit_next (s := { s with di := 0 }) armed

/-- The digits up to the one that is told, and the whole number at its last one. -/
theorem StatusLed.number_take_succ (hdi : s.di < s.ndigits) :
    s.number.take (s.di + 1) = s.number.take s.di ++ [s.digit] := by
  have hlt : s.di < s.number.length := by simpa [number] using hdi
  have hget : s.number[s.di] = s.digit := by simp [number, digit]
  rw [List.take_add_one, List.getElem?_eq_getElem hlt, hget]
  rfl

end Tells

/-! ## Someone watches

`Watched` is the light and the one who reads it. A call that has something to do has to come in
time (`LedStep`), and it does if the calls come one soon after the other by the clock, which knows
nothing of what the task waits for (`LedPoll`). -/

def ledPace : Pace := ⟨zeroOnTime, digitGapTime, digitGapTime + repeatGapTime, Nat.le_add_right _ _⟩

/-- How late a call may be done. -/
def lateness : ℕ := 200000

structure Watched where
  led : StatusLed
  eye : Watcher
  clock : ℕ

/-- Calls come one after the other, and what is due is done soon. -/
structure LedCall.InTime (c : LedCall) (s : Watched) : Prop where
  after : s.clock ≤ c.now
  put : c.now ≤ c.put
  armed : c.put ≤ c.armed
  prompt : s.led.next ≤ c.now → c.armed ≤ s.led.next + lateness

def Watched.next (s : Watched) (c : LedCall) : Watched :=
  let r := statusLedTask s.led c
  ⟨r.1, (r.2.map fun colour => s.eye.see ledPace c.put (colour ≠ .black)).getD s.eye,
    if s.led.next ≤ c.now then c.armed else c.now⟩

def LedStep (s : Watched) (c : LedCall) (t : Watched) : Prop := c.InTime s ∧ t = s.next c

/-- The call is done soon after the one before it. -/
structure LedCall.Soon (c : LedCall) (s : Watched) : Prop where
  after : s.clock ≤ c.now
  put : c.now ≤ c.put
  armed : c.put ≤ c.armed
  soon : c.armed ≤ s.clock + lateness

def LedPoll (s : Watched) (c : LedCall) (t : Watched) : Prop := c.Soon s ∧ t = s.next c

instance (c : LedCall) (s : Watched) : Decidable (c.InTime s) :=
  decidable_of_iff (s.clock ≤ c.now ∧ c.now ≤ c.put ∧ c.put ≤ c.armed ∧
      (s.led.next ≤ c.now → c.armed ≤ s.led.next + lateness))
    ⟨fun ⟨after, put, armed, prompt⟩ => ⟨after, put, armed, prompt⟩,
      fun ⟨after, put, armed, prompt⟩ => ⟨after, put, armed, prompt⟩⟩

instance (c : LedCall) (s : Watched) : Decidable (c.Soon s) :=
  decidable_of_iff (s.clock ≤ c.now ∧ c.now ≤ c.put ∧ c.put ≤ c.armed ∧
      c.armed ≤ s.clock + lateness)
    ⟨fun ⟨after, put, armed, soon⟩ => ⟨after, put, armed, soon⟩,
      fun ⟨after, put, armed, soon⟩ => ⟨after, put, armed, soon⟩⟩

/-- The light as it is seen: it has not been lit or dark for longer than it is to be. -/
structure Watched.Seen (number : List ℕ) (s : Watched) : Prop where
  tells : s.led.Tells number
  lit : s.eye.lit = s.led.lit
  since : s.eye.since ≤ s.clock
  soon : s.led.phase ≠ .repeatGap → s.led.next ≤ s.eye.since + s.led.span + lateness

/-- The reader has what is shown, after the numbers `base`. -/
structure Watched.Synced (base : List (List ℕ)) (number : List ℕ) (s : Watched) : Prop where
  span : s.eye.since + s.led.span ≤ s.led.next
  shown : s.eye.digits ++ [s.eye.tally] = s.led.shown
  numbers : ∃ k, s.eye.numbers = base ++ List.replicate k number

section Watched

variable {number : List ℕ} {base : List (List ℕ)} {s t : Watched} {c : LedCall}

/-- A call before the time changes nothing that is seen. -/
theorem Watched.next_early (s : Watched) (h : c.now < s.led.next) :
    s.next c = ⟨s.led, s.eye, c.now⟩ := by
  simp [next, statusLedTask_early h, Nat.not_le.mpr h]

/-- What is seen of a call that has something to do. -/
def Watched.After (s : Watched) (c : LedCall) (led : StatusLed) (lit : Option Bool) : Watched :=
  ⟨led, (lit.map (s.eye.see ledPace c.put)).getD s.eye, c.armed⟩

/-- **What a step is**: nothing is due, or the light does its next move in time. -/
theorem LedStep.cases (hcolour : s.led.colour ≠ .black) (h : LedStep s c t) :
    (c.now < s.led.next ∧ t = ⟨s.led, s.eye, c.now⟩) ∨
      ∃ led lit, s.led.Move c.armed led lit ∧ t = s.After c led lit ∧ s.led.next ≤ c.put ∧
        c.put ≤ c.armed ∧ c.armed ≤ s.led.next + lateness := by
  obtain ⟨htime, rfl⟩ := h
  rcases Nat.lt_or_ge c.now s.led.next with hearly | hdue
  · exact Or.inl ⟨hearly, s.next_early hearly⟩
  · refine Or.inr ⟨_, _, statusLedTask_move hcolour hdue, ?_, ?_, htime.armed, ?_⟩
    · cases hput : (statusLedTask s.led c).2 <;> simp [Watched.next, Watched.After, hput, hdue]
    · exact hdue.trans htime.put
    · exact htime.prompt hdue

/-- **The times someone sees**: a step keeps to them, whatever has been read. -/
theorem Watched.Seen.step (h : s.Seen number) (hstep : LedStep s c t) : t.Seen number := by
  have hnow := hstep.1.after
  rcases hstep.cases h.tells.colour with ⟨_, rfl⟩ | ⟨led, lit, hmove, rfl, hput, harmed, hsoon⟩
  · exact ⟨h.tells, h.lit, h.since.trans hnow, h.soon⟩
  · have htells := h.tells.move hmove
    cases lit with
    | none =>
      cases hmove with
      | gap hphase hover =>
        refine ⟨htells, ?_, ?_, ?_⟩
        · simpa [After, StatusLed.lit, hphase] using h.lit
        · exact h.since.trans (hnow.trans (hstep.1.put.trans harmed))
        · intro hne
          exact absurd rfl hne
    | some lit =>
      obtain ⟨hchange, hlit, _, hnext⟩ := h.tells.move_put hmove
      obtain ⟨hsee, hsince⟩ := Watcher.see_change (p := ledPace) (t := c.put)
        (h.lit ▸ hchange)
      refine ⟨htells, ?_, ?_, fun _ => ?_⟩
      · exact hsee.trans hlit.symm
      · exact hsince.trans_le harmed
      · change led.next ≤ (s.eye.see ledPace c.put lit).since + led.span + lateness
        rw [hsince, hnext]
        omega

/-- A number ends at the end of the gap after it, if at all. -/
theorem Watched.Seen.numbers (h : s.Seen number) (hstep : LedStep s c t) :
    t.eye.numbers = s.eye.numbers ∨ s.led.phase = .repeatGap ∧
      t = s.After c (beginDigit { s.led with di := 0 } 0 c.armed) (some true) := by
  have hnow := hstep.1.after
  rcases hstep.cases h.tells.colour with ⟨_, rfl⟩ | ⟨led, lit, hmove, rfl, hput, harmed, hsoon⟩
  · exact Or.inl rfl
  · by_cases hrepeat : s.led.phase = .repeatGap
    · obtain ⟨rfl, rfl⟩ := hmove.of_repeatGap hrepeat
      exact Or.inr ⟨hrepeat, rfl⟩
    · cases lit with
      | none => exact Or.inl rfl
      | some lit =>
        refine Or.inl (Watcher.see_numbers (h.since.trans (hnow.trans hstep.1.put)) ?_)
        by_cases hlit : s.eye.lit = true
        · exact Or.inl hlit
        · have hspan : s.led.span ≤ digitGapTime := by
            rw [h.lit] at hlit
            cases hphase : s.led.phase <;>
              simp_all [StatusLed.lit, StatusLed.span, digitGapTime, pulseOffTime]
          have hend := h.soon hrepeat
          have hbound : 2 * lateness < repeatGapTime := by decide
          refine Or.inr ?_
          change c.put < s.eye.since + (digitGapTime + repeatGapTime)
          omega

/-- After a flash that is not the last, the reader has one more. -/
theorem Watched.Synced.flash (hs : s.Seen number) (h : s.Synced base number)
    (hphase : s.led.phase = .pulseOn) (hdigit : s.led.digit ≠ 0) (hsince : s.eye.since ≤ c.put)
    (hsoon : c.put ≤ s.led.next + lateness) :
    s.eye.see ledPace c.put false =
      { s.eye with lit := false, since := c.put, tally := s.led.pulsesDone + 1 } := by
  have hlate := hs.soon (by simp [hphase])
  have hshown := h.shown
  simp only [StatusLed.span, StatusLed.shown, hphase, if_neg hdigit] at hshown hlate
  obtain ⟨_, htally⟩ := List.append_inj' hshown rfl
  have hshort : c.put < s.eye.since + zeroOnTime := by
    have hbound : 2 * lateness < zeroOnTime - pulseOnTime := by decide
    omega
  rw [Watcher.see_short (by simpa [StatusLed.lit, hphase] using hs.lit) hsince hshort,
    List.singleton_inj.mp htally]

/-- At the first flash after the number, the reader has it. -/
theorem Watched.Synced.restart (hs : s.Seen number) (h : s.Synced base number)
    (hphase : s.led.phase = .repeatGap) (hput : s.led.next ≤ c.put) :
    s.eye.see ledPace c.put true =
      { s.eye with
        lit := true
        since := c.put
        tally := 0
        digits := []
        numbers := s.eye.numbers ++ [number] } := by
  have hspan := h.span
  have hshown := h.shown
  simp only [StatusLed.span, StatusLed.shown, hphase] at hspan hshown
  rw [Watcher.see_number (by simpa [StatusLed.lit, hphase] using hs.lit) (hspan.trans hput),
    hshown, hs.tells.number]

/-- **One step of who has read along.** -/
theorem Watched.Synced.step (hs : s.Seen number) (h : s.Synced base number)
    (hstep : LedStep s c t) : t.Synced base number := by
  obtain ⟨k, hk⟩ := h.numbers
  have hshown := h.shown
  have hspan := h.span
  have hsince : s.eye.since ≤ c.put := hs.since.trans (hstep.1.after.trans hstep.1.put)
  rcases hstep.cases hs.tells.colour with ⟨_, rfl⟩ | ⟨led, lit, hmove, rfl, hput, harmed, hsoon⟩
  · exact ⟨hspan, hshown, k, hk⟩
  · have hlit := hs.lit
    have hputsoon := harmed.trans hsoon
    cases hmove with
    | flash hphase hmore =>
      have hdigit := hs.tells.digit_ne_zero (Or.inl hphase) (Or.inr hmore)
      have hsee := h.flash hs hphase hdigit hsince hputsoon
      simp only [StatusLed.shown, hphase] at hshown
      obtain ⟨hdigits, _⟩ := List.append_inj' hshown rfl
      simp only [After, Option.map_some, Option.getD_some, hsee]
      exact ⟨Nat.add_le_add_right harmed _, by rw [hdigits]; rfl, k, hk⟩
    | last hphase hlast =>
      have htarget := hs.tells.target (Or.inl hphase)
      have hlt := hs.tells.done_lt (Or.inl hphase)
      by_cases hdigit : s.led.digit = 0
      · -- The one flash of a zero is long, and is not counted.
        rw [hdigit, flashes, if_pos rfl] at htarget
        simp only [StatusLed.span, StatusLed.shown, hphase, if_pos hdigit] at hspan hshown
        obtain ⟨hdigits, htally⟩ := List.append_inj' hshown rfl
        have hsee := Watcher.see_long (p := ledPace) (w := s.eye) (t := c.put)
          (by simpa [StatusLed.lit, hphase] using hlit) (hspan.trans hput)
        simp only [After, Option.map_some, Option.getD_some, hsee]
        refine ⟨Nat.add_le_add_right harmed _, ?_, k, hk⟩
        have hzero : s.eye.tally = s.led.digit := by
          have := List.singleton_inj.mp htally
          omega
        rw [hdigits, hzero]
        rfl
      · have hsee := h.flash hs hphase hdigit hsince hputsoon
        rw [flashes, if_neg hdigit] at htarget
        simp only [StatusLed.shown, hphase] at hshown
        obtain ⟨hdigits, _⟩ := List.append_inj' hshown rfl
        simp only [After, Option.map_some, Option.getD_some, hsee]
        refine ⟨Nat.add_le_add_right harmed _, ?_, k, hk⟩
        have hall : s.led.pulsesDone + 1 = s.led.digit := by omega
        rw [hdigits, hall]
        rfl
    | again hphase =>
      have hdigit := hs.tells.digit_ne_zero (Or.inr hphase) (Or.inl hphase)
      have hlate := hs.soon (by simp [hphase])
      simp only [StatusLed.span, StatusLed.shown, hphase] at hshown hlate
      have hshort : c.put < s.eye.since + digitGapTime := by
        have hbound : 2 * lateness < digitGapTime - pulseOffTime := by decide
        omega
      have hsee := Watcher.see_within (p := ledPace)
        (by simpa [StatusLed.lit, hphase] using hlit) hsince hshort
      simp only [After, Option.map_some, Option.getD_some, hsee]
      refine ⟨?_, hshown, k, hk⟩
      have hspan' : StatusLed.span { s.led with
          phase := .pulseOn, next := c.armed + pulseOnTime } = pulseOnTime := if_neg hdigit
      rw [hspan']
      exact Nat.add_le_add_right harmed _
    | digit hphase hmore =>
      have hlate := hs.soon (by simp [hphase])
      simp only [StatusLed.span, StatusLed.shown, hphase] at hspan hshown hlate
      have hend : c.put < s.eye.since + (digitGapTime + repeatGapTime) := by
        have hbound : 2 * lateness < repeatGapTime := by decide
        omega
      have hsee := Watcher.see_digit (p := ledPace)
        (by simpa [StatusLed.lit, hphase] using hlit) (hspan.trans hput) hend
      simp only [After, Option.map_some, Option.getD_some, hsee]
      refine ⟨?_, ?_, k, hk⟩
      · have hnext := beginDigit_next (s := { s.led with di := s.led.di + 1 }) c.armed
        rw [hnext]
        exact Nat.add_le_add_right harmed _
      · have htake := s.led.number_take_succ (hs.tells.di_lt (by simp [hphase]))
        rw [hshown, ← htake]
        rfl
    | gap hphase hover =>
      simp only [StatusLed.span, StatusLed.shown, hphase] at hspan hshown
      have hlt := hs.tells.di_lt (by simp [hphase])
      refine ⟨?_, ?_, k, hk⟩
      · change s.eye.since + (digitGapTime + repeatGapTime) ≤ c.armed + repeatGapTime
        omega
      · have hwhole : s.led.number.take (s.led.di + 1) = s.led.number :=
          List.take_of_length_le (by simpa [StatusLed.number] using hover)
        change s.eye.digits ++ [s.eye.tally] = s.led.number
        rw [hshown, ← s.led.number_take_succ hlt, hwhole]
    | restart hphase =>
      have hsee := h.restart hs hphase hput
      simp only [After, Option.map_some, Option.getD_some, hsee]
      refine ⟨?_, rfl, k + 1, ?_⟩
      · have hnext := beginDigit_next (s := { s.led with di := 0 }) c.armed
        rw [hnext]
        exact Nat.add_le_add_right harmed _
      · rw [hk, List.append_assoc, ← List.replicate_succ']

/-- The first number that ends may be wrong; the one after it begins with its first flash. -/
theorem Watched.Seen.sync (h : s.Seen number) (hstep : LedStep s c t) :
    t.eye.numbers = s.eye.numbers ∨ ∃ x, t.Synced (s.eye.numbers ++ [x]) number := by
  rcases h.numbers hstep with hsame | ⟨hrepeat, rfl⟩
  · exact Or.inl hsame
  · have hsince : s.eye.since ≤ c.put := h.since.trans (hstep.1.after.trans hstep.1.put)
    have hdark : s.eye.lit = false := by simpa [StatusLed.lit, hrepeat] using h.lit
    by_cases hend : s.eye.since + ledPace.number ≤ c.put
    · have hsee := Watcher.see_number hdark hend
      refine Or.inr ⟨s.eye.digits ++ [s.eye.tally], ?_⟩
      simp only [After, Option.map_some, Option.getD_some, hsee]
      refine ⟨?_, rfl, 0, (List.append_nil _).symm⟩
      have hnext := beginDigit_next (s := { s.led with di := 0 }) c.armed
      rw [hnext]
      exact Nat.add_le_add_right hstep.1.armed _
    · exact Or.inl (Watcher.see_numbers hsince (Or.inr (Nat.not_le.mp hend)))

/-- Who looks up at some moment sees the light as it is to be seen. -/
theorem Watched.Seen.look (h : s.Seen number) {now : ℕ} (hnow : s.clock ≤ now) :
    Watched.Seen number ⟨s.led, .start s.led.lit now, now⟩ := by
  refine ⟨h.tells, rfl, Nat.le_refl now, fun hphase => ?_⟩
  have hsoon := h.soon hphase
  have hsince := h.since
  change s.led.next ≤ now + s.led.span + lateness
  omega

/-! ### Runs -/

variable {l : List LedCall}

theorem Watched.Seen.run (h : s.Seen number) (r : Run LedStep s l t) : t.Seen number :=
  r.invariant (I := Watched.Seen number) (fun _ _ _ hs hstep => hs.step hstep) h

theorem Watched.Synced.run (hs : s.Seen number) (h : s.Synced base number)
    (r : Run LedStep s l t) : t.Synced base number :=
  (r.invariant (I := fun s => s.Seen number ∧ s.Synced base number)
    (fun _ _ _ hI hstep => ⟨hI.1.step hstep, hI.2.step hI.1 hstep⟩) ⟨hs, h⟩).2

theorem Watched.Seen.sync_run (h : s.Seen number) (r : Run LedStep s l t) :
    t.eye.numbers = s.eye.numbers ∨ ∃ x, t.Synced (s.eye.numbers ++ [x]) number := by
  induction r with
  | nil _ => exact Or.inl rfl
  | cons hstep r ih =>
    rcases h.sync hstep with hsame | ⟨x, hsync⟩
    · rw [← hsame]
      exact ih (h.step hstep)
    · exact Or.inr ⟨x, hsync.run (h.step hstep) r⟩

/-! ### How long a number takes -/

/-- The longest that a digit may take, with the gap after it. -/
def digitTime (d : ℕ) : ℕ :=
  (if d = 0 then zeroOnTime + lateness
    else pulseOnTime + lateness + (d - 1) * (pulseOffTime + lateness + (pulseOnTime + lateness))) +
    (digitGapTime + lateness)

/-- The longest that some digits may take, and the gap after the number. -/
def cycleTime (number : List ℕ) : ℕ := (number.map digitTime).sum + (repeatGapTime + lateness)

/-- What may be left of the number after the next move. -/
def StatusLed.left (s : StatusLed) : ℕ :=
  match s.phase with
  | .pulseOn =>
    (s.pulsesTarget - s.pulsesDone - 1) * (pulseOffTime + lateness + (pulseOnTime + lateness)) +
      (digitGapTime + lateness) + cycleTime (s.number.drop (s.di + 1))
  | .pulseOff =>
    pulseOnTime + lateness +
      (s.pulsesTarget - s.pulsesDone - 1) * (pulseOffTime + lateness + (pulseOnTime + lateness)) +
      (digitGapTime + lateness) + cycleTime (s.number.drop (s.di + 1))
  | .digitGap => cycleTime (s.number.drop (s.di + 1))
  | .repeatGap => 0

theorem cycleTime_cons (d : ℕ) (number : List ℕ) :
    cycleTime (d :: number) = digitTime d + cycleTime number := by
  simp [cycleTime, Nat.add_assoc]

theorem StatusLed.number_drop (s : StatusLed) (hdi : s.di < s.ndigits) :
    s.number.drop s.di = s.digit :: s.number.drop (s.di + 1) := by
  have hlt : s.di < s.number.length := by simpa [number] using hdi
  have hget : s.number[s.di] = s.digit := by simp [number, digit]
  rw [List.drop_eq_getElem_cons hlt, hget]

theorem beginDigit_left {s : StatusLed} (hdi : s.di < s.ndigits) (armed : ℕ) :
    (beginDigit s s.di armed).next + lateness + (beginDigit s s.di armed).left =
      armed + cycleTime (s.number.drop s.di) := by
  rw [s.number_drop hdi, cycleTime_cons]
  by_cases hzero : s.digits s.di = 0
  · have hdigit : s.digit = 0 := by rw [StatusLed.digit, hzero]; rfl
    simp [beginDigit, StatusLed.left, hzero, digitTime, hdigit, StatusLed.number]
    omega
  · have hdigit : s.digit ≠ 0 := by
      rw [← UInt8.toNat_inj] at hzero
      exact hzero
    have htarget : (s.digits s.di).toNat = s.digit := rfl
    simp [beginDigit, StatusLed.left, hzero, digitTime, hdigit, StatusLed.number, htarget]
    omega

/-- A move takes what it may take of the time that is left; the one that begins the number again
has all of it. -/
theorem StatusLed.Tells.left_move {armed : ℕ} {s t : StatusLed} {lit : Option Bool}
    (h : s.Tells number) (hsoon : armed ≤ s.next + lateness) (hmove : s.Move armed t lit) :
    t.next + lateness + t.left ≤ s.next + lateness + s.left +
      if s.phase = .repeatGap then cycleTime number else 0 := by
  have hnumber : ∀ di done phase next, StatusLed.number { s with
      di := di, pulsesDone := done, phase := phase, next := next } = s.number :=
    fun _ _ _ _ => rfl
  cases hmove with
  | flash hphase hmore =>
    obtain ⟨n, hn⟩ : ∃ n, s.pulsesTarget - s.pulsesDone - 1 = n + 1 :=
      ⟨s.pulsesTarget - s.pulsesDone - 2, by omega⟩
    have hleft : s.pulsesTarget - (s.pulsesDone + 1) - 1 = n := by omega
    simp only [left, hphase, hn, hleft, hnumber, Nat.add_mul, Nat.one_mul]
    omega
  | last hphase hlast =>
    simp only [left, hphase, hnumber]
    omega
  | again hphase =>
    simp only [left, hphase, hnumber]
    omega
  | digit hphase hmore =>
    have hbegin := beginDigit_left (s := { s with di := s.di + 1 }) hmore armed
    rw [hbegin]
    simp only [left, hphase, hnumber]
    omega
  | gap hphase hover =>
    have hrest : s.number.drop (s.di + 1) = [] :=
      List.drop_eq_nil_of_le (by simpa [StatusLed.number] using hover)
    simp only [left, hphase, hrest, cycleTime, List.map_nil, List.sum_nil]
    omega
  | restart hphase =>
    have hbegin := beginDigit_left (s := { s with di := 0 }) h.some_digit armed
    rw [hbegin, if_pos hphase]
    simp only [left, hphase, hnumber, List.drop_zero, h.number]
    omega

/-- From `start` on, every number has taken no longer than it may, and so has this one. -/
structure Watched.OnTime (start : ℕ) (number : List ℕ) (s : Watched) : Prop where
  clock : s.clock ≤ s.led.next
  left : s.led.next + lateness + s.led.left ≤
    start + (s.eye.numbers.length + 1) * cycleTime number

theorem Watched.OnTime.step {start : ℕ} (hs : s.Seen number) (hsync : s.Synced base number)
    (h : s.OnTime start number) (hstep : LedStep s c t) : t.OnTime start number := by
  have hnumbers := hs.numbers hstep
  have hleft := h.left
  rcases hstep.cases hs.tells.colour with
    ⟨hearly, rfl⟩ | ⟨led, lit, hmove, rfl, hput, harmed, hsoon⟩
  · exact ⟨hearly.le, hleft⟩
  · have hmoved := hs.tells.left_move hsoon hmove
    refine ⟨by cases hmove <;> exact Nat.le_add_right _ _, ?_⟩
    by_cases hrepeat : s.led.phase = .repeatGap
    · obtain ⟨rfl, _⟩ := hmove.of_repeatGap hrepeat
      have hread : (s.After c led (some true)).eye.numbers.length = s.eye.numbers.length + 1 := by
        have hsee := hsync.restart hs hrepeat hput
        simp only [After, Option.map_some, Option.getD_some, hsee, List.length_append,
          List.length_singleton]
      rw [if_pos hrepeat] at hmoved
      rw [hread, Nat.add_mul _ 1, Nat.one_mul]
      exact hmoved.trans (by omega)
    · rw [if_neg hrepeat] at hmoved
      rw [hnumbers.resolve_right fun h => hrepeat h.1]
      exact hmoved.trans hleft

theorem Watched.OnTime.run {start : ℕ} (hs : s.Seen number) (hsync : s.Synced base number)
    (h : s.OnTime start number) (r : Run LedStep s l t) : t.OnTime start number :=
  (r.invariant (I := fun s => (s.Seen number ∧ s.Synced base number) ∧ s.OnTime start number)
    (fun _ _ _ hI hstep => ⟨⟨hI.1.1.step hstep, hI.1.2.step hI.1.1 hstep⟩,
      hI.2.step hI.1.1 hI.1.2 hstep⟩) ⟨⟨hs, hsync⟩, h⟩).2

/-- A call soon after the last one, which found nothing due, finds what is due in time. -/
theorem LedPoll.step (hclock : s.clock ≤ s.led.next) (h : LedPoll s c t) : LedStep s c t := by
  obtain ⟨⟨hafter, hput, harmed, hsoon⟩, rfl⟩ := h
  exact ⟨⟨hafter, hput, harmed, fun _ => hsoon.trans (Nat.add_le_add_right hclock _)⟩, rfl⟩

theorem Watched.OnTime.polled {start : ℕ} (hs : s.Seen number) (hsync : s.Synced base number)
    (h : s.OnTime start number) (r : Run LedPoll s l t) : Run LedStep s l t := by
  induction r with
  | nil s => exact .nil s
  | cons hpoll _ ih =>
    have hstep := hpoll.step h.clock
    exact .cons hstep (ih (hs.step hstep) (hsync.step hs hstep) (h.step hs hsync hstep))

end Watched

/-! ## An octet -/

section Octet

variable (s : StatusLed) (octet : UInt8)

theorem octetDigits_eq : octetDigits octet =
    if octet ≥ 100 then [octet.toNat / 100, octet.toNat / 10 % 10, octet.toNat % 10]
    else if octet ≥ 10 then [octet.toNat / 10, octet.toNat % 10]
    else [octet.toNat] := by
  have hlt : octet.toNat < 256 := UInt8.toNat_lt octet
  have hhundred : octet ≥ 100 ↔ 100 ≤ octet.toNat := UInt8.le_iff_toNat_le
  have hten : octet ≥ 10 ↔ 10 ≤ octet.toNat := UInt8.le_iff_toNat_le
  have hzero : octet = 0 ↔ octet.toNat = 0 := UInt8.toNat_inj.symm
  simp only [octetDigits, hhundred, hten, hzero]
  generalize octet.toNat = n at hlt
  have hdigits : ∀ m : ℕ, 0 < m → Nat.digits 10 m = m % 10 :: Nat.digits 10 (m / 10) :=
    fun m hm => Nat.digits_def' (by decide) hm
  have hlast : ∀ m : ℕ, 0 < m → m < 10 → Nat.digits 10 m = [m] := by
    intro m hpos hsmall
    rw [hdigits m hpos, Nat.mod_eq_of_lt hsmall, Nat.div_eq_of_lt hsmall, Nat.digits_zero]
  rcases Nat.eq_zero_or_pos n with rfl | hpos
  · rfl
  rw [if_neg hpos.ne']
  rcases Nat.lt_or_ge n 10 with hone | htwo
  · rw [if_neg (by omega), if_neg (by omega), hlast n hpos hone]
    rfl
  rcases Nat.lt_or_ge n 100 with htwo' | hthree
  · rw [if_neg (by omega), if_pos htwo, hdigits n hpos, hlast (n / 10) (by omega) (by omega)]
    rfl
  · rw [if_pos hthree, hdigits n hpos, hdigits (n / 10) (by omega),
      hlast (n / 10 / 10) (by omega) (by omega), Nat.div_div_eq_div_mul]
    rfl

theorem setDigits_number : (s.setDigits octet).number = octetDigits octet := by
  rw [octetDigits_eq, StatusLed.setDigits]
  split
  · simp [StatusLed.number, List.range_succ, Function.update]
  · split <;> simp [StatusLed.number, List.range_succ, Function.update]

theorem setDigits_ndigits : 0 < (s.setDigits octet).ndigits := by
  unfold StatusLed.setDigits
  split
  · exact Nat.succ_pos 2
  · split <;> exact Nat.succ_pos _

theorem setDigits_colour : (s.setDigits octet).colour = s.colour := by
  unfold StatusLed.setDigits
  split
  · rfl
  · split <;> rfl

theorem statusLedShowOctet_tells (hcolour : s.colour ≠ .black) (armed : ℕ) :
    (statusLedShowOctet s octet armed).Tells (octetDigits octet) :=
  beginDigit_tells (s := { s.setDigits octet with di := 0 })
    (by rwa [setDigits_colour]) (setDigits_number s octet) (setDigits_ndigits s octet) armed

theorem statusLedShowOctet_next (armed : ℕ) : (statusLedShowOctet s octet armed).next =
    armed + (statusLedShowOctet s octet armed).span :=
  beginDigit_next (s := { s.setDigits octet with di := 0 }) armed

/-- No octet takes longer than twenty seconds. -/
theorem cycleTime_octetDigits : cycleTime (octetDigits octet) ≤ 20000000 := by
  have hlt : octet.toNat < 256 := UInt8.toNat_lt octet
  have hhundred : octet ≥ 100 ↔ 100 ≤ octet.toNat := UInt8.le_iff_toNat_le
  have hten : octet ≥ 10 ↔ 10 ≤ octet.toNat := UInt8.le_iff_toNat_le
  have hdigit : ∀ d < 10, digitTime d ≤ 7680000 := by decide
  have hfirst : ∀ d < 3, digitTime d ≤ 2080000 := by decide
  have hgap : cycleTime [] = 2400000 := rfl
  rw [octetDigits_eq]
  simp only [hhundred, hten]
  split
  · have h₁ := hfirst (octet.toNat / 100) (by omega)
    have h₂ := hdigit (octet.toNat / 10 % 10) (Nat.mod_lt _ (by decide))
    have h₃ := hdigit (octet.toNat % 10) (Nat.mod_lt _ (by decide))
    simp only [cycleTime_cons]
    omega
  · split
    · have h₁ := hdigit (octet.toNat / 10) (by omega)
      have h₂ := hdigit (octet.toNat % 10) (Nat.mod_lt _ (by decide))
      simp only [cycleTime_cons]
      omega
    · have h₁ := hdigit octet.toNat (by omega)
      simp only [cycleTime_cons]
      omega

/-- The light has just been lit for the first digit, and a reader has seen it. -/
def Watched.shown (put armed : ℕ) : Watched :=
  ⟨statusLedShowOctet s octet armed, .start true put, armed⟩

variable {s octet} {put armed : ℕ} {l k : List LedCall} {t u : Watched}

theorem Watched.shown_seen (hcolour : s.colour ≠ .black) (hput : put ≤ armed)
    (hsoon : armed ≤ put + lateness) : (shown s octet put armed).Seen (octetDigits octet) := by
  refine ⟨statusLedShowOctet_tells s octet hcolour armed, rfl, hput, fun _ => ?_⟩
  have hnext := statusLedShowOctet_next s octet armed
  change (statusLedShowOctet s octet armed).next ≤
    put + (statusLedShowOctet s octet armed).span + lateness
  omega

theorem Watched.shown_synced (hput : put ≤ armed) :
    (shown s octet put armed).Synced [] (octetDigits octet) := by
  refine ⟨?_, rfl, 0, rfl⟩
  change put + (statusLedShowOctet s octet armed).span ≤ (statusLedShowOctet s octet armed).next
  rw [statusLedShowOctet_next]
  exact Nat.add_le_add_right hput _

theorem Watched.shown_onTime : (shown s octet put armed).OnTime armed (octetDigits octet) := by
  refine ⟨Nat.le_add_right _ _, ?_⟩
  have hleft := beginDigit_left (s := { s.setDigits octet with di := 0 })
    (setDigits_ndigits s octet) armed
  change (statusLedShowOctet s octet armed).next + lateness +
    (statusLedShowOctet s octet armed).left ≤ armed + (0 + 1) * cycleTime (octetDigits octet)
  rw [statusLedShowOctet, hleft, ← setDigits_number s octet, Nat.zero_add, Nat.one_mul]
  exact Nat.le_refl _

/-- **Who reads along reads the octet**, over and over, and never waits for long: whenever twenty
seconds have passed for each number and for one more, the next number has been read. -/
theorem statusLed_read (hcolour : s.colour ≠ .black) (hput : put ≤ armed)
    (hsoon : armed ≤ put + lateness) (r : Run LedPoll (Watched.shown s octet put armed) l t) :
    ∃ n, t.eye.numbers = List.replicate n (octetDigits octet) ∧
      t.clock ≤ armed + (n + 1) * 20000000 := by
  have hseen : (Watched.shown s octet put armed).Seen (octetDigits octet) :=
    Watched.shown_seen hcolour hput hsoon
  have hsync : (Watched.shown s octet put armed).Synced [] (octetDigits octet) :=
    Watched.shown_synced hput
  have r' := Watched.shown_onTime.polled hseen hsync r
  obtain ⟨n, hn⟩ := (hsync.run hseen r').numbers
  have htime := Watched.shown_onTime.run hseen hsync r'
  rw [List.nil_append] at hn
  refine ⟨n, hn, ?_⟩
  have hclock := htime.clock
  have hleft := htime.left
  rw [hn, List.length_replicate] at hleft
  have hcycle := Nat.mul_le_mul_left (n + 1) (cycleTime_octetDigits octet)
  omega

/-- The board at an address that ends in 1, whose light is green. -/
def Watched.one : Watched :=
  shown (statusLedSetColor ⟨.black, fun _ => 0, 1, 0, 0, 0, false, .pulseOn, 0⟩ 0 40 0) 1 300 310

/-- A call every 180 milliseconds. -/
def oneCalls : List LedCall := (List.range 18).map fun i =>
  ⟨(i + 1) * 180000 + 400, (i + 1) * 180000 + 700, (i + 1) * 180000 + 710⟩

/-- One flash, the two gaps, and with the first flash of the next number the 1 has been read. -/
theorem statusLed_read_one : ∃ t, Run LedPoll Watched.one oneCalls t ∧ t.eye.numbers = [[1]] ∧
    ∃ n, t.eye.numbers = List.replicate n (octetDigits 1) ∧ t.clock ≤ 310 + (n + 1) * 20000000 := by
  obtain ⟨t, r, hnumbers⟩ : ∃ t, Run LedPoll Watched.one oneCalls t ∧
      decide (t.eye.numbers = [[1]]) = true := Run.of_foldlM_any (by decide +kernel)
  exact ⟨t, r, of_decide_eq_true hnumbers,
    statusLed_read (by decide) (by decide) (by decide) r⟩

/-- **Who looks up at any moment** reads at most one number that is not the octet. -/
theorem statusLed_read_from (hcolour : s.colour ≠ .black) (hput : put ≤ armed)
    (hsoon : armed ≤ put + lateness) (r : Run LedStep (Watched.shown s octet put armed) l t)
    {now : ℕ} (hnow : t.clock ≤ now)
    (r' : Run LedStep ⟨t.led, .start t.led.lit now, now⟩ k u) :
    u.eye.numbers = [] ∨
      ∃ x n, u.eye.numbers = x :: List.replicate n (octetDigits octet) := by
  have hstart : (Watched.shown s octet put armed).Seen (octetDigits octet) :=
    Watched.shown_seen hcolour hput hsoon
  have hseen := hstart.run r
  rcases (hseen.look hnow).sync_run r' with hnone | ⟨x, hsync⟩
  · exact Or.inl hnone
  · obtain ⟨n, hn⟩ := hsync.numbers
    exact Or.inr ⟨x, n, hn⟩

/-- Calls that come when something is due, from the gap after the digit on. -/
def lateCalls : List LedCall :=
  [⟨880800, 880800, 880800⟩, ⟨3080900, 3081200, 3081210⟩, ⟨3261300, 3261600, 3261610⟩,
    ⟨3961700, 3961700, 3961700⟩, ⟨6161800, 6162100, 6162110⟩, ⟨6342200, 6342500, 6342510⟩,
    ⟨7042600, 7042600, 7042600⟩, ⟨9242700, 9243000, 9243010⟩]

/-- Someone looks up in the gap after the digit, takes what is left of the dark for the gap after a
zero, and so reads 01 before the 1. -/
theorem statusLed_read_from_one :
    let t := Watched.one.next ⟨180400, 180700, 180710⟩
    ∃ u, Run LedStep ⟨t.led, .start t.led.lit 200000, 200000⟩ lateCalls u ∧
      u.eye.numbers = [[0, 1], [1]] ∧
      (u.eye.numbers = [] ∨ ∃ x n, u.eye.numbers = x :: List.replicate n (octetDigits 1)) := by
  intro t
  have r : Run LedStep Watched.one [⟨180400, 180700, 180710⟩] t := .single ⟨by decide, rfl⟩
  obtain ⟨u, r', hnumbers⟩ : ∃ u, Run LedStep ⟨t.led, .start t.led.lit 200000, 200000⟩ lateCalls u ∧
      decide (u.eye.numbers = [[0, 1], [1]]) = true := Run.of_foldlM_any (by decide +kernel)
  exact ⟨u, r', of_decide_eq_true hnumbers,
    statusLed_read_from (by decide) (by decide) (by decide) r (by decide) r'⟩

end Octet

end EthPanel
