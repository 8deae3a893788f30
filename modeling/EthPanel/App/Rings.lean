import Mathlib.Algebra.Group.Int.Defs
import Mathlib.Algebra.Group.Nat.Defs
import Mathlib.Data.Fintype.Defs
import Mathlib.Data.Int.Notation
import Mathlib.Logic.Function.Basic
import Mathlib.Tactic.Common

/-!
# `rings/rings.c`

What each ring is to show, and whether it has been pushed since that last changed (`dirty`). The
fields of `rings_set` come from the parser as `int`s, with `-1` for a field to leave as it is.
-/

namespace EthPanel

/-- `RING_COUNT`. -/
abbrev ringCount : ℕ := 2

abbrev Ring := Fin ringCount

/-- `RING_MAX_LEDS`. -/
def ringMaxLeds : ℕ := 16

/-- `ring_state_t`. -/
structure RingState where
  r : UInt8
  g : UInt8
  b : UInt8
  brightness : UInt8
  deriving DecidableEq

/-- `rings_t`. -/
structure Rings where
  st : Ring → RingState
  nleds : Ring → UInt16
  dirty : Ring → Bool

/-- `ring_order_t`. -/
inductive RingOrder
  | grb | rgb
  deriving DecidableEq

/-- Black, at full brightness. -/
def RingState.off : RingState := ⟨0, 0, 0, 255⟩

def ringsInit (nleds : Ring → UInt16) : Rings := ⟨fun _ => .off, nleds, fun _ => true⟩

/-- `v == -1 || in_range(v)`. -/
def Fits (v : ℤ) : Prop := v = -1 ∨ 0 ≤ v ∧ v ≤ 255

instance (v : ℤ) : Decidable (Fits v) := inferInstanceAs (Decidable (_ ∨ _))

/-- `if (v != -1) c = (uint8_t)v;` -/
def keepOr (c : UInt8) (v : ℤ) : UInt8 := if v = -1 then c else UInt8.ofInt v

def RingState.patch (s : RingState) (r g b brightness : ℤ) : RingState :=
  ⟨keepOr s.r r, keepOr s.g g, keepOr s.b b, keepOr s.brightness brightness⟩

/-- `rings_set`: what it returns, and the rings after it. -/
def ringsSet (rs : Rings) (idx r g b brightness : ℤ) : Bool × Rings :=
  if h : 0 ≤ idx ∧ idx < ringCount then
    if ¬ Fits r ∨ ¬ Fits g ∨ ¬ Fits b ∨ ¬ Fits brightness then (false, rs)
    else
      let i : Ring := ⟨idx.toNat, by omega⟩
      let next := (rs.st i).patch r g b brightness
      if next ≠ rs.st i then
        (true, { rs with
          st := Function.update rs.st i next
          dirty := Function.update rs.dirty i true })
      else (true, rs)
  else (false, rs)

def ringsScale (c brightness : UInt8) : UInt8 :=
  ((c.toUInt32 * brightness.toUInt32 + 127) / 255).toUInt8

def RingState.pixelWord (s : RingState) (order : RingOrder) : UInt32 :=
  let r := (ringsScale s.r s.brightness).toUInt32
  let g := (ringsScale s.g s.brightness).toUInt32
  let b := (ringsScale s.b s.brightness).toUInt32
  match order with
  | .grb => (g <<< 16) ||| (r <<< 8) ||| b
  | .rgb => (r <<< 16) ||| (g <<< 8) ||| b

def ringsPixelWord (rs : Rings) (i : Ring) (order : RingOrder) : UInt32 := (rs.st i).pixelWord order

/-- `rings_render`: the words it writes, if there is room for them. -/
def ringsRender (rs : Rings) (i : Ring) (order : RingOrder) (maxWords : ℕ) : Option (List UInt32) :=
  if (rs.nleds i).toNat > maxWords then none
  else some (List.replicate (rs.nleds i).toNat (ringsPixelWord rs i order))

def ringsClearDirty (rs : Rings) (i : Ring) : Rings :=
  { rs with dirty := Function.update rs.dirty i false }

/-! ## `rings_set` -/

/-- **What `rings_set` does**: it refuses and changes nothing, or the one ring has its new state,
and is dirty if that is another one. -/
theorem ringsSet_cases (rs : Rings) (idx r g b brightness : ℤ) :
    (ringsSet rs idx r g b brightness = (false, rs) ∧
      ¬ ((0 ≤ idx ∧ idx < ringCount) ∧ Fits r ∧ Fits g ∧ Fits b ∧ Fits brightness)) ∨
    ∃ i : Ring, (i.val : ℤ) = idx ∧ Fits r ∧ Fits g ∧ Fits b ∧ Fits brightness ∧
      (ringsSet rs idx r g b brightness).1 = true ∧
      (ringsSet rs idx r g b brightness).2.st =
        Function.update rs.st i ((rs.st i).patch r g b brightness) ∧
      (ringsSet rs idx r g b brightness).2.nleds = rs.nleds ∧
      (ringsSet rs idx r g b brightness).2.dirty = Function.update rs.dirty i
        (rs.dirty i || decide ((rs.st i).patch r g b brightness ≠ rs.st i)) := by
  unfold ringsSet
  split
  · rename_i hidx
    split
    · rename_i hbad
      refine Or.inl ⟨rfl, ?_⟩
      rintro ⟨_, hr, hg, hb, hbrightness⟩
      rcases hbad with h | h | h | h
      · exact h hr
      · exact h hg
      · exact h hb
      · exact h hbrightness
    · rename_i hgood
      simp only [not_or, not_not] at hgood
      obtain ⟨hr, hg, hb, hbrightness⟩ := hgood
      refine Or.inr ⟨⟨idx.toNat, by omega⟩, Int.toNat_of_nonneg hidx.1, hr, hg, hb, hbrightness, ?_⟩
      dsimp only
      split
      · rename_i hne
        refine ⟨rfl, rfl, rfl, ?_⟩
        simp [hne]
      · rename_i hsame
        rw [not_not] at hsame
        refine ⟨rfl, ?_, rfl, ?_⟩
        · rw [hsame, Function.update_eq_self]
        · simp [hsame]
  · rename_i hidx
    exact Or.inl ⟨rfl, fun h => hidx h.1⟩

/-- Whether a command is refused does not depend on the rings. -/
theorem ringsSet_ok_iff (rs : Rings) (idx r g b brightness : ℤ) :
    (ringsSet rs idx r g b brightness).1 = true ↔
      (0 ≤ idx ∧ idx < ringCount) ∧ Fits r ∧ Fits g ∧ Fits b ∧ Fits brightness := by
  rcases ringsSet_cases rs idx r g b brightness with
    ⟨heq, hbad⟩ | ⟨i, hi, hr, hg, hb, hbrightness, hset, _⟩
  · rw [heq]
    exact ⟨fun h => Bool.noConfusion h, fun h => absurd h hbad⟩
  · have hlt := i.2
    exact ⟨fun _ => ⟨⟨by omega, by omega⟩, hr, hg, hb, hbrightness⟩, fun _ => hset⟩

/-- A refused command leaves the rings as they are. -/
theorem ringsSet_false {rs : Rings} {idx r g b brightness : ℤ}
    (h : (ringsSet rs idx r g b brightness).1 = false) :
    (ringsSet rs idx r g b brightness).2 = rs := by
  rcases ringsSet_cases rs idx r g b brightness with ⟨heq, _⟩ | ⟨i, _, _, _, _, _, hset, _⟩
  · rw [heq]
  · rw [h] at hset
    cases hset

end EthPanel
