import EthPanel.Lib.Lfsr
import Mathlib.Algebra.Polynomial.Div
import Mathlib.Algebra.Polynomial.Monic
import Mathlib.Algebra.CharP.Two
import Mathlib.Algebra.Field.ZMod
import Mathlib.Data.ZMod.Basic
import Mathlib.Tactic.LinearCombination

/-!
# Division by a shift register

A bit string is a polynomial over GF(2), its first bit the coefficient of the highest power
(`bitsPoly`). A register of `w` bits is read in the order in which its bits fall out, so its low
bit is the coefficient of `x ^ (w - 1)` (`reg`), and the feedback word stands for the polynomial
`x ^ w + reg poly` (`gen`).

One step of the register is then multiplication by `x` modulo the generator (`gen_dvd_step`), and
feeding in symbols is the long division of the message they spell (`reg_feed`): what the register
holds at the end is the remainder.
-/

namespace Lfsr

open Polynomial

/-! ## Bit strings -/

noncomputable def bitsPoly : List Bool → (ZMod 2)[X]
  | [] => 0
  | b :: bs => C (b.toNat : ZMod 2) * X ^ bs.length + bitsPoly bs

theorem coeff_bitsPoly (bs : List Bool) (i : ℕ) :
    (bitsPoly bs).coeff i = ((bs.reverse[i]?.getD false).toNat : ZMod 2) := by
  induction bs with
  | nil => simp [bitsPoly]
  | cons b bs ih =>
    rw [bitsPoly, coeff_add, coeff_C_mul, coeff_X_pow, ih, List.reverse_cons,
      List.getElem?_append, List.length_reverse]
    by_cases hlt : i < bs.length
    · rw [if_neg (by omega), if_pos hlt, mul_zero, zero_add]
    · have hout : bs.reverse[i]? = none := List.getElem?_eq_none (by simpa using hlt)
      rw [hout, if_neg hlt]
      by_cases heq : i = bs.length
      · simp [heq]
      · rw [if_neg heq, List.getElem?_singleton, if_neg (by omega)]
        simp

theorem bitsPoly_append (xs ys : List Bool) :
    bitsPoly (xs ++ ys) = bitsPoly xs * X ^ ys.length + bitsPoly ys := by
  induction xs with
  | nil => simp [bitsPoly]
  | cons b xs ih =>
    rw [List.cons_append, bitsPoly, bitsPoly, ih, List.length_append]
    ring

theorem bitsPoly_replicate_false (n : ℕ) : bitsPoly (List.replicate n false) = 0 := by
  induction n with
  | zero => rfl
  | succ n ih => simp [List.replicate_succ, bitsPoly, ih]

theorem degree_bitsPoly_lt (bs : List Bool) : (bitsPoly bs).degree < bs.length := by
  rw [degree_lt_iff_coeff_zero]
  intro i hi
  have hout : bs.reverse[i]? = none := List.getElem?_eq_none (by simpa using hi)
  rw [coeff_bitsPoly, hout]
  simp

/-! ## The register as a polynomial -/

variable {w : ℕ}

/-- The low `k` bits, the lowest first. -/
def lowBits (k : ℕ) (c : BitVec w) : List Bool := (List.range k).map c.getLsbD

@[simp] theorem length_lowBits (k : ℕ) (c : BitVec w) : (lowBits k c).length = k := by
  simp [lowBits]

noncomputable def reg (c : BitVec w) : (ZMod 2)[X] := bitsPoly (lowBits w c)

theorem coeff_reg (c : BitVec w) (i : ℕ) :
    (reg c).coeff i = if i < w then ((c.getLsbD (w - 1 - i)).toNat : ZMod 2) else 0 := by
  rw [reg, coeff_bitsPoly]
  by_cases hi : i < w
  · rw [if_pos hi, List.getElem?_reverse (by simpa using hi), length_lowBits, lowBits,
      List.getElem?_map, List.getElem?_range (by omega)]
    rfl
  · have hout : (lowBits w c).reverse[i]? = none := List.getElem?_eq_none (by simpa using hi)
    rw [hout, if_neg hi]
    simp

theorem degree_reg_lt (c : BitVec w) : (reg c).degree < w := by
  simpa [reg] using degree_bitsPoly_lt (lowBits w c)

theorem toNat_xor_cast (a b : Bool) :
    (((a ^^ b).toNat : ℕ) : ZMod 2) = (a.toNat : ZMod 2) + (b.toNat : ZMod 2) := by
  cases a <;> cases b <;> decide

theorem reg_xor (a b : BitVec w) : reg (a ^^^ b) = reg a + reg b := by
  ext i
  rw [coeff_add, coeff_reg, coeff_reg, coeff_reg]
  split
  · rw [BitVec.getLsbD_xor, toNat_xor_cast]
  · rw [add_zero]

@[simp] theorem reg_zero : reg (0#w) = 0 := by
  ext i
  simp [coeff_reg]

/-- Moving down is multiplying by `x`, short of the bit that falls out. -/
theorem X_mul_reg (c : BitVec w) :
    X * reg c = C ((c.getLsbD 0).toNat : ZMod 2) * X ^ w + reg (c >>> 1) := by
  ext i
  rw [coeff_add, coeff_C_mul, coeff_X_pow, coeff_reg, BitVec.getLsbD_ushiftRight]
  cases i with
  | zero =>
    rw [coeff_X_mul_zero]
    by_cases hw : w = 0
    · subst hw
      simp
    · have hout : c.getLsbD (1 + (w - 1 - 0)) = false := BitVec.getLsbD_of_ge c _ (by omega)
      rw [hout, if_neg (Ne.symm hw)]
      simp
  | succ i =>
    rw [coeff_X_mul, coeff_reg]
    rcases Nat.lt_trichotomy (i + 1) w with hlt | heq | hgt
    · have hidx : 1 + (w - 1 - (i + 1)) = w - 1 - i := by omega
      rw [if_pos (by omega), if_neg (by omega), if_pos hlt, hidx, mul_zero, zero_add]
    · have hidx : w - 1 - i = 0 := by omega
      rw [if_pos (by omega), if_pos heq, if_neg (by omega), hidx, mul_one, add_zero]
    · rw [if_neg (by omega), if_neg (by omega), if_neg (by omega), mul_zero, zero_add]

/-! ## The generator -/

/-- The polynomial the register divides by. -/
noncomputable def gen (poly : BitVec w) : (ZMod 2)[X] := X ^ w + reg poly

variable {poly : BitVec w}

theorem gen_monic (poly : BitVec w) : (gen poly).Monic := monic_X_pow_add (degree_reg_lt poly)

theorem degree_gen (poly : BitVec w) : (gen poly).degree = w := by
  rw [gen, degree_add_eq_left_of_degree_lt, degree_X_pow]
  rw [degree_X_pow]
  exact degree_reg_lt poly

/-- **One step is multiplication by `x`**, reduced once when a bit falls out. -/
theorem reg_step (c : BitVec w) :
    reg (step poly c) = X * reg c + C ((c.getLsbD 0).toNat : ZMod 2) * gen poly := by
  have hself : ∀ p : (ZMod 2)[X], p + p = 0 := CharTwo.add_self_eq_zero
  rw [step, reg_xor, X_mul_reg, gen]
  cases c.getLsbD 0 with
  | false => simp
  | true =>
    simp only [if_true, Bool.toNat_true, Nat.cast_one, C_1, one_mul]
    linear_combination -hself (X ^ w)

theorem gen_dvd_step (c : BitVec w) : gen poly ∣ reg (step poly c) - X * reg c := by
  rw [reg_step, add_sub_cancel_left]
  exact dvd_mul_left _ _

theorem gen_dvd_steps (n : ℕ) (c : BitVec w) :
    gen poly ∣ reg (steps poly n c) - X ^ n * reg c := by
  induction n generalizing c with
  | zero => simp
  | succ n ih =>
    rw [steps_succ]
    have hrest := ih (step poly c)
    have hone : gen poly ∣ X ^ n * (reg (step poly c) - X * reg c) :=
      (gen_dvd_step c).mul_left _
    have hsum := dvd_add hrest hone
    have hshape : reg (steps poly n (step poly c)) - X ^ n * reg (step poly c)
          + X ^ n * (reg (step poly c) - X * reg c)
        = reg (steps poly n (step poly c)) - X ^ (n + 1) * reg c := by ring
    rwa [hshape] at hsum

/-! ## Feeding a message -/

/-- A symbol in the low `k` bits spells these bits and then zeros. -/
theorem reg_symbol {k : ℕ} (hk : k ≤ w) {x : BitVec w} (hx : ∀ i, k ≤ i → x.getLsbD i = false) :
    reg x = bitsPoly (lowBits k x) * X ^ (w - k) := by
  have hbits : lowBits w x = lowBits k x ++ List.replicate (w - k) false := by
    obtain ⟨d, rfl⟩ := Nat.exists_eq_add_of_le hk
    rw [lowBits, List.range_add, List.map_append, List.map_map, Nat.add_sub_cancel_left]
    congr 1
    refine List.eq_replicate_iff.mpr ⟨by simp, ?_⟩
    intro b hb
    obtain ⟨i, _, rfl⟩ := List.mem_map.mp hb
    exact hx _ (Nat.le_add_right k i)
  rw [reg, hbits, bitsPoly_append, bitsPoly_replicate_false, List.length_replicate, add_zero]

theorem length_flatMap_lowBits (k : ℕ) (xs : List (BitVec w)) :
    (xs.flatMap (lowBits k)).length = k * xs.length := by
  induction xs with
  | nil => rfl
  | cons x xs ih =>
    rw [List.flatMap_cons, List.length_append, length_lowBits, ih, List.length_cons, Nat.mul_succ,
      Nat.add_comm]

/-- Induction over the symbols: each is added in and moved on by `k` places. -/
theorem gen_dvd_feed {k : ℕ} (hk : k ≤ w) {xs : List (BitVec w)}
    (hx : ∀ x ∈ xs, ∀ i, k ≤ i → x.getLsbD i = false) (c : BitVec w) :
    gen poly ∣ reg (feed poly k c xs)
      - (bitsPoly (xs.flatMap (lowBits k)) * X ^ w + reg c * X ^ (k * xs.length)) := by
  induction xs generalizing c with
  | nil => simp [feed, bitsPoly]
  | cons x xs ih =>
    have hsym := reg_symbol hk (hx x List.mem_cons_self)
    have hpow : (X : (ZMod 2)[X]) ^ w = X ^ k * X ^ (w - k) := by
      rw [← pow_add, Nat.add_sub_cancel' hk]
    have hrest := ih (fun y hy => hx y (List.mem_cons_of_mem _ hy)) (steps poly k (c ^^^ x))
    have hone : gen poly ∣
        (reg (steps poly k (c ^^^ x)) - X ^ k * reg (c ^^^ x)) * X ^ (k * xs.length) :=
      (gen_dvd_steps k _).mul_right _
    have hsum := dvd_add hrest hone
    rw [reg_xor, hsym] at hsum
    rw [List.flatMap_cons, bitsPoly_append, length_flatMap_lowBits, List.length_cons,
      Nat.mul_succ, pow_add]
    have hfeed : feed poly k c (x :: xs) = feed poly k (steps poly k (c ^^^ x)) xs := rfl
    rw [hfeed]
    convert hsum using 1
    rw [hpow]
    ring

/-- **What the register holds is the remainder** of the message, moved up by the width of the
register, and of what the register held, moved up by the length of the message. -/
theorem reg_feed {k : ℕ} (hk : k ≤ w) {xs : List (BitVec w)}
    (hx : ∀ x ∈ xs, ∀ i, k ≤ i → x.getLsbD i = false) (c : BitVec w) :
    reg (feed poly k c xs)
      = (bitsPoly (xs.flatMap (lowBits k)) * X ^ w + reg c * X ^ (k * xs.length))
          %ₘ gen poly := by
  have hsmall : reg (feed poly k c xs) %ₘ gen poly = reg (feed poly k c xs) := by
    rw [modByMonic_eq_self_iff (gen_monic poly), degree_gen]
    exact degree_reg_lt _
  rw [← hsmall]
  exact modByMonic_eq_of_dvd_sub (gen_monic poly) (gen_dvd_feed hk hx c)

end Lfsr
