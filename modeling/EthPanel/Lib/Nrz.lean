import Mathlib.Algebra.Group.Nat.Defs
import Mathlib.Tactic.Common

/-!
# Bits told by the width of a pulse

A line carries bits as pulses: a wide pulse is a one, a narrow pulse a zero. A line that stays low
for the reset time ends a frame: the receivers take what they have, and what follows is the next
frame. A chain of lights takes a frame in parts of `size` bits, one light after the other.
-/

namespace Nrz

/-- In samples of the line. -/
structure Timing where
  /-- The shortest pulse that is a one. -/
  one : ℕ
  /-- How long the line is low at the end of a frame. -/
  reset : ℕ

structure Receiver where
  /-- For how long the line has been high. -/
  high : ℕ
  /-- For how long it has been low. -/
  low : ℕ
  /-- The bits of this frame. -/
  bits : List Bool
  /-- The frames that have ended. -/
  frames : List (List Bool)

variable (d : Timing)

/-- The bits of this frame, once the pulse is over that may be under way. -/
def Receiver.fall (r : Receiver) : List Bool :=
  if r.high = 0 then r.bits else r.bits ++ [decide (d.one ≤ r.high)]

/-- One sample of the line. -/
def Receiver.sample (r : Receiver) (pin : Bool) : Receiver :=
  if pin then { r with high := r.high + 1, low := 0 }
  else if r.low + 1 = d.reset then ⟨0, r.low + 1, [], r.frames ++ [r.fall d]⟩
  else ⟨0, r.low + 1, r.fall d, r.frames⟩

/-- All bits received. -/
def Receiver.received (r : Receiver) : List Bool := r.frames.flatten ++ r.bits

/-- The line after reset, with nothing received. -/
def Receiver.idle : Receiver := ⟨0, d.reset, [], []⟩

variable {d} {r : Receiver}

theorem Receiver.sample_high : r.sample d true = { r with high := r.high + 1, low := 0 } := rfl

@[simp] theorem Receiver.sample_high_received : (r.sample d true).received = r.received := rfl

@[simp] theorem Receiver.sample_low_high : (r.sample d false).high = 0 := by
  unfold sample
  split
  · contradiction
  · split <;> rfl

@[simp] theorem Receiver.sample_low_low : (r.sample d false).low = r.low + 1 := by
  unfold sample
  split
  · contradiction
  · split <;> rfl

/-- Ending a frame loses nothing. -/
theorem Receiver.sample_low_received :
    (r.sample d false).received = r.frames.flatten ++ r.fall d := by
  unfold sample
  split
  · contradiction
  · split <;> simp [received]

theorem Receiver.sample_low_idle (h : r.high = 0) : (r.sample d false).received = r.received := by
  rw [sample_low_received, fall, if_pos h, received]

theorem Receiver.sample_low_pulse (h : 0 < r.high) :
    (r.sample d false).received = r.received ++ [decide (d.one ≤ r.high)] := by
  rw [sample_low_received, fall, if_neg (by omega), received, List.append_assoc]

/-- A frame ends with the reset time, and at no other time. -/
theorem Receiver.sample_frames {pin : Bool} (h : pin = true ∨ r.low + 1 ≠ d.reset) :
    (r.sample d pin).frames = r.frames := by
  unfold sample
  split
  · rfl
  · rename_i hlow
    rw [if_neg (h.resolve_left hlow)]

theorem Receiver.sample_low (r : Receiver) : r.sample d false =
    if r.low + 1 = d.reset then ⟨0, r.low + 1, [], r.frames ++ [r.fall d]⟩
    else ⟨0, r.low + 1, r.fall d, r.frames⟩ := rfl

/-- The line is low, and nothing has been received since a frame ended. -/
def Receiver.Silent (d : Timing) (r : Receiver) : Prop :=
  d.reset ≤ r.low ∧ r.high = 0 ∧ r.bits = []

theorem Receiver.Silent.sample_low (h : r.Silent d) : (r.sample d false).Silent d := by
  obtain ⟨hlow, hhigh, hbits⟩ := h
  rw [Receiver.sample_low, if_neg (by omega)]
  exact ⟨Nat.le_succ_of_le hlow, rfl, by rw [fall, if_pos hhigh, hbits]⟩

/-! ## A chain of lights -/

end Nrz
