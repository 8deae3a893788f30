import Mathlib.Tactic.Common
import Mathlib.Logic.Function.Iterate

/-!
# Shift registers with linear feedback

The Galois form, shifting right: the register moves down one place and, when the bit that
falls out is set, the feedback word `poly` is added in. Every reflected CRC is this register
with data XORed into its low end.

Over any width: the step is additive (`step_xor`), it loses nothing when the top bit of
`poly` is set (`step_injective`), and a run of steps splits into the low bits that will fall
out and the high bits that only move (`steps_split`), which is what a lookup table of the
low bits computes.

Symbols of `k` bits fed in one after another are one word XORed in at the start, as long as they
fit in the register side by side (`feed_eq_steps`); so what fits is never confused
(`feed_injective`).
-/

namespace Lfsr

variable {w : ℕ} (poly : BitVec w)

def step (c : BitVec w) : BitVec w :=
  (c >>> 1) ^^^ (if c.getLsbD 0 then poly else 0#w)

/-- `n` steps. -/
def steps (n : ℕ) (c : BitVec w) : BitVec w := (step poly)^[n] c

variable {poly}

@[simp] theorem steps_zero (c : BitVec w) : steps poly 0 c = c := rfl

theorem steps_succ (n : ℕ) (c : BitVec w) : steps poly (n + 1) c = steps poly n (step poly c) :=
  rfl

theorem steps_succ' (n : ℕ) (c : BitVec w) : steps poly (n + 1) c = step poly (steps poly n c) :=
  Function.iterate_succ_apply' _ _ _

/-! ## Additivity -/

theorem step_xor (a b : BitVec w) : step poly (a ^^^ b) = step poly a ^^^ step poly b := by
  refine BitVec.eq_of_getLsbD_eq fun i _ => ?_
  cases ha : a.getLsbD 0 <;> cases hb : b.getLsbD 0 <;>
    simp [step, ha, hb] <;> grind

theorem steps_xor (n : ℕ) (a b : BitVec w) :
    steps poly n (a ^^^ b) = steps poly n a ^^^ steps poly n b := by
  induction n generalizing a b with
  | zero => rfl
  | succ n ih => rw [steps_succ, step_xor, ih, steps_succ, steps_succ]

/-! ## Nothing is lost -/

/-- The top bit of the stepped register is the bit that fell out. -/
theorem getLsbD_step_top (hp : poly.getLsbD (w - 1) = true) (c : BitVec w) :
    (step poly c).getLsbD (w - 1) = c.getLsbD 0 := by
  have hout : c.getLsbD (1 + (w - 1)) = false := BitVec.getLsbD_of_ge c _ (by omega)
  cases hc : c.getLsbD 0 <;> simp [step, hc, hp, hout]

/-- **With its top bit set in `poly`, the step is injective**: the top bit says whether the
feedback was added, and what is left is the register moved down. -/
theorem step_injective (hp : poly.getLsbD (w - 1) = true) :
    Function.Injective (step poly) := by
  intro c d heq
  have h0 : c.getLsbD 0 = d.getLsbD 0 := by
    rw [← getLsbD_step_top hp c, ← getLsbD_step_top hp d, heq]
  have hshift : c >>> 1 = d >>> 1 := by
    unfold step at heq
    rw [h0] at heq
    exact (BitVec.xor_left_inj _).mp heq
  refine BitVec.eq_of_getLsbD_eq fun i _ => ?_
  cases i with
  | zero => exact h0
  | succ i =>
    have := congrArg (fun x => x.getLsbD i) hshift
    simpa [Nat.add_comm] using this

theorem steps_injective (hp : poly.getLsbD (w - 1) = true) (n : ℕ) :
    Function.Injective (steps poly n) :=
  (step_injective hp).iterate n

/-! ## Low bits and high bits -/

/-- A register whose low `n` bits are clear only moves down through `n` steps. -/
theorem steps_of_low_clear : ∀ (n : ℕ) (c : BitVec w), (∀ i < n, c.getLsbD i = false) →
    steps poly n c = c >>> n := by
  intro n
  induction n with
  | zero => intro c _; simp
  | succ n ih =>
    intro c hc
    have hbit : (c >>> n).getLsbD 0 = false := by simpa using hc n (by omega)
    rw [steps_succ', ih c fun i hi => hc i (by omega), step, hbit, BitVec.shiftRight_add]
    simp

/-- **`n` steps are those of the low `n` bits, plus the rest moved down.** -/
theorem steps_split (n : ℕ) (mask : BitVec w) (hm : ∀ i < w, mask.getLsbD i = decide (i < n))
    (c : BitVec w) : steps poly n c = steps poly n (c &&& mask) ^^^ (c >>> n) := by
  have hsplit : c = (c &&& mask) ^^^ (c &&& ~~~mask) := by
    refine BitVec.eq_of_getLsbD_eq fun i hi => ?_
    simp [hi]
    grind
  have hlow : ∀ i < n, (c &&& ~~~mask).getLsbD i = false := by
    intro i hi
    by_cases hw : i < w
    · simp [hm i hw, hi]
    · exact BitVec.getLsbD_of_ge _ _ (by omega)
  have hhigh : (c &&& ~~~mask) >>> n = c >>> n := by
    refine BitVec.eq_of_getLsbD_eq fun i _ => ?_
    by_cases hw : n + i < w
    · have := hm (n + i) hw
      simp [hw] at this ⊢
      simp [this]
    · simp [BitVec.getLsbD_of_ge c (n + i) (by omega)]
  calc steps poly n c = steps poly n ((c &&& mask) ^^^ (c &&& ~~~mask)) := by rw [← hsplit]
    _ = steps poly n (c &&& mask) ^^^ steps poly n (c &&& ~~~mask) := steps_xor n _ _
    _ = steps poly n (c &&& mask) ^^^ (c >>> n) := by rw [steps_of_low_clear n _ hlow, hhigh]

/-! ## Symbols side by side -/

/-- Feed in the symbols `xs`, each into the low end and followed by `k` steps. -/
def feed (poly : BitVec w) (k : ℕ) (c : BitVec w) (xs : List (BitVec w)) : BitVec w :=
  xs.foldl (fun c x => steps poly k (c ^^^ x)) c

/-- The symbols side by side in one word, the first lowest. -/
def pack (k : ℕ) : List (BitVec w) → BitVec w
  | [] => 0#w
  | x :: xs => x ^^^ (pack k xs <<< k)

theorem getLsbD_pack {k : ℕ} {xs : List (BitVec w)}
    (hx : ∀ x ∈ xs, ∀ i, k ≤ i → x.getLsbD i = false) {i : ℕ} (hi : k * xs.length ≤ i) :
    (pack k xs).getLsbD i = false := by
  induction xs generalizing i with
  | nil => simp [pack]
  | cons x xs ih =>
    rw [List.length_cons, Nat.mul_succ] at hi
    have hlow : x.getLsbD i = false := hx x List.mem_cons_self i (by omega)
    have hrest := ih (fun y hy => hx y (List.mem_cons_of_mem _ hy)) (i := i - k) (by omega)
    simp [pack, hlow, hrest]

/-- Moving up what fits and down again changes nothing. -/
theorem shiftLeft_shiftRight {k : ℕ} {c : BitVec w} (h : ∀ i, w ≤ i + k → c.getLsbD i = false) :
    (c <<< k) >>> k = c := by
  refine BitVec.eq_of_getLsbD_eq fun i hi => ?_
  by_cases hw : k + i < w
  · simp [hw, hi]
  · simp [hw, h i (by omega)]

theorem steps_xor_shiftLeft {k : ℕ} {x : BitVec w} (h : ∀ i, w ≤ i + k → x.getLsbD i = false)
    (c : BitVec w) : steps poly k (c ^^^ (x <<< k)) = steps poly k c ^^^ x := by
  have hlow : ∀ i < k, (x <<< k).getLsbD i = false := by
    intro i hi
    simp [hi]
  rw [steps_xor, steps_of_low_clear k _ hlow, shiftLeft_shiftRight h]

theorem steps_add (m n : ℕ) (c : BitVec w) :
    steps poly (m + n) c = steps poly n (steps poly m c) := by
  unfold steps
  rw [Nat.add_comm, Function.iterate_add_apply]

/-- **Symbols that fit in the register are one word.** -/
theorem feed_eq_steps {k : ℕ} {xs : List (BitVec w)}
    (hx : ∀ x ∈ xs, ∀ i, k ≤ i → x.getLsbD i = false) (hfit : k * xs.length ≤ w)
    (c : BitVec w) : feed poly k c xs = steps poly (k * xs.length) (c ^^^ pack k xs) := by
  induction xs generalizing c with
  | nil => simp [feed, pack]
  | cons x xs ih =>
    rw [List.length_cons, Nat.mul_succ] at hfit
    have hx' : ∀ y ∈ xs, ∀ i, k ≤ i → y.getLsbD i = false :=
      fun y hy => hx y (List.mem_cons_of_mem _ hy)
    have hroom : ∀ i, w ≤ i + k → (pack k xs).getLsbD i = false :=
      fun i hi => getLsbD_pack hx' (by omega)
    calc feed poly k c (x :: xs) = feed poly k (steps poly k (c ^^^ x)) xs := rfl
      _ = steps poly (k * xs.length) (steps poly k (c ^^^ x) ^^^ pack k xs) :=
          ih hx' (by omega) _
      _ = steps poly (k * xs.length) (steps poly k (c ^^^ x ^^^ (pack k xs <<< k))) := by
          rw [steps_xor_shiftLeft hroom]
      _ = steps poly (k * (x :: xs).length) (c ^^^ pack k (x :: xs)) := by
          rw [← steps_add, List.length_cons, Nat.mul_succ, Nat.add_comm, pack, BitVec.xor_assoc]

theorem pack_injective {k : ℕ} : ∀ {xs ys : List (BitVec w)}, xs.length = ys.length →
    (∀ x ∈ xs, ∀ i, k ≤ i → x.getLsbD i = false) →
    (∀ y ∈ ys, ∀ i, k ≤ i → y.getLsbD i = false) → k * xs.length ≤ w →
    pack k xs = pack k ys → xs = ys := by
  intro xs
  induction xs with
  | nil =>
    intro ys hlen _ _ _ _
    exact (List.length_eq_zero_iff.mp hlen.symm).symm
  | cons x xs ih =>
    intro ys hlen hx hy hfit heq
    cases ys with
    | nil => cases hlen
    | cons y ys =>
      rw [List.length_cons, Nat.mul_succ] at hfit
      have hlen' : xs.length = ys.length := Nat.succ.inj hlen
      have hx' : ∀ z ∈ xs, ∀ i, k ≤ i → z.getLsbD i = false :=
        fun z hz => hx z (List.mem_cons_of_mem _ hz)
      have hy' : ∀ z ∈ ys, ∀ i, k ≤ i → z.getLsbD i = false :=
        fun z hz => hy z (List.mem_cons_of_mem _ hz)
      -- The low `k` bits are those of the first symbol, the others those of the rest.
      have hbit : ∀ i, (x ^^^ (pack k xs <<< k)).getLsbD i
          = (y ^^^ (pack k ys <<< k)).getLsbD i := fun i => congrArg (fun c => c.getLsbD i) heq
      have hhead : x = y := by
        refine BitVec.eq_of_getLsbD_eq fun i hi => ?_
        by_cases hk : i < k
        · have := hbit i
          simpa [hk] using this
        · rw [hx x List.mem_cons_self i (by omega), hy y List.mem_cons_self i (by omega)]
      have hrest : pack k xs <<< k = pack k ys <<< k := by
        subst hhead
        exact (BitVec.xor_right_inj _).mp heq
      have htail : pack k xs = pack k ys := by
        have hroomx : ∀ i, w ≤ i + k → (pack k xs).getLsbD i = false :=
          fun i hi => getLsbD_pack hx' (by omega)
        have hroomy : ∀ i, w ≤ i + k → (pack k ys).getLsbD i = false :=
          fun i hi => getLsbD_pack hy' (by rw [← hlen']; omega)
        rw [← shiftLeft_shiftRight hroomx, ← shiftLeft_shiftRight hroomy, hrest]
      rw [hhead, ih hlen' hx' hy' (by omega) htail]

/-- **What fits in the register side by side is never confused.** -/
theorem feed_injective (hp : poly.getLsbD (w - 1) = true) {k : ℕ} {xs ys : List (BitVec w)}
    (hlen : xs.length = ys.length) (hx : ∀ x ∈ xs, ∀ i, k ≤ i → x.getLsbD i = false)
    (hy : ∀ y ∈ ys, ∀ i, k ≤ i → y.getLsbD i = false) (hfit : k * xs.length ≤ w) {c : BitVec w}
    (heq : feed poly k c xs = feed poly k c ys) : xs = ys := by
  rw [feed_eq_steps hx hfit, feed_eq_steps hy (hlen ▸ hfit), ← hlen] at heq
  exact pack_injective hlen hx hy hfit ((BitVec.xor_right_inj _).mp (steps_injective hp _ heq))

end Lfsr
