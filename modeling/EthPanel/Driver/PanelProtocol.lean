import Mathlib.Algebra.Group.Int.Defs
import Mathlib.Algebra.Group.Nat.Defs
import Mathlib.Data.Int.Notation
import Mathlib.Tactic.Common

/-!
# `panel_protocol.py`, host to device

The lines the driver sends. A line is for an output, a ring or the lamp, if it begins with that
output's `head`; no line is for two outputs.

The values of a ring command are those `color_rgba_to_bytes` makes of a message: bytes already.
-/

namespace EthPanel

/-- A line of text, its newline included. -/
abbrev Line := List Char

/-- `RING_IDS`. -/
def ringIds : List ℕ := [1, 2]

abbrev RingId := { id : ℕ // id ∈ ringIds }

/-- What a command can be for. -/
inductive Output
  | ring (id : RingId)
  | lamp
  deriving DecidableEq

/-- `%d`. -/
def dec (n : ℕ) : List Char := Nat.toDigits 10 n

/-- `_clamp8`, of an integer. -/
def clamp8 (v : ℤ) : ℕ := (max 0 (min 255 v)).toNat

def ringHead (id : ℕ) : List Char := "\x7b\"cmd\":\"ring\",\"id\":".toList ++ dec id ++ [',']

def lampHead : List Char := "\x7b\"cmd\":\"lamp\",".toList

/-- How the lines for an output begin. -/
def Output.head : Output → List Char
  | .ring id => ringHead id
  | .lamp => lampHead

def fmtRingCmd (ringId : ℕ) (r g b brightness : ℤ) : Line :=
  ringHead ringId ++ "\"r\":".toList ++ dec (clamp8 r) ++ ",\"g\":".toList ++ dec (clamp8 g) ++
    ",\"b\":".toList ++ dec (clamp8 b) ++ ",\"brightness\":".toList ++ dec (clamp8 brightness) ++
    "\x7d\n".toList

def fmtLampCmd (on : Bool) : Line :=
  lampHead ++ "\"on\":".toList ++ (if on then "true".toList else "false".toList) ++ "\x7d\n".toList

def fmtPingCmd : Line := "\x7b\"cmd\":\"ping\"\x7d\n".toList

def fmtHelloCmd : Line := "\x7b\"cmd\":\"hello\"\x7d\n".toList

/-- A command line for the output `o`. -/
structure CmdFor (o : Output) where
  line : Line
  head : o.head <+: line
  deriving DecidableEq

def ringCmd (id : RingId) (r g b brightness : UInt8) : CmdFor (.ring id) where
  line := fmtRingCmd id r.toNat g.toNat b.toNat brightness.toNat
  head := by
    unfold fmtRingCmd
    simp only [List.append_assoc]
    exact List.prefix_append _ _

def lampCmd (on : Bool) : CmdFor .lamp where
  line := fmtLampCmd on
  head := by
    unfold fmtLampCmd
    simp only [List.append_assoc]
    exact List.prefix_append _ _

theorem head_prefix_head {o o' : Output} (h : o.head <+: o'.head) : o = o' := by
  have hring : ∀ id ∈ ringIds, ∀ id' ∈ ringIds, ringHead id <+: ringHead id' → id = id' := by
    decide
  have hlamp : ∀ id ∈ ringIds, ¬ ringHead id <+: lampHead ∧ ¬ lampHead <+: ringHead id := by
    decide
  cases o with
  | ring id =>
    cases o' with
    | ring id' => exact congrArg Output.ring (Subtype.ext (hring id id.2 id' id'.2 h))
    | lamp => exact absurd h (hlamp id id.2).1
  | lamp =>
    cases o' with
    | ring id' => exact absurd h (hlamp id' id'.2).2
    | lamp => rfl

/-- **A line is for one output.** -/
theorem CmdFor.head_iff {o o' : Output} (cmd : CmdFor o) : o'.head <+: cmd.line ↔ o' = o := by
  constructor
  · intro h
    rcases List.prefix_or_prefix_of_prefix h cmd.head with h | h
    · exact head_prefix_head h
    · exact (head_prefix_head h).symm
  · rintro rfl
    exact cmd.head

/-- The reader's own lines are for no output. -/
theorem requests_for_none (o : Output) : ¬ o.head <+: fmtPingCmd ∧ ¬ o.head <+: fmtHelloCmd := by
  have hring : ∀ id ∈ ringIds, ¬ ringHead id <+: fmtPingCmd ∧ ¬ ringHead id <+: fmtHelloCmd := by
    decide
  cases o with
  | ring id => exact hring id id.2
  | lamp => decide

end EthPanel
