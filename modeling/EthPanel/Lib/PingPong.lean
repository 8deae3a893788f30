import Mathlib.Tactic.Common

/-!
# Two slots and a version number

The ping-pong store: two slots, each holding a record or nothing readable, every record
carrying a version. The store's value is the readable record of the highest version; a write
goes to the slot that does *not* hold it. A write may be cut, and then the slot it was aimed
at keeps what it had, is left unreadable, or holds the new record after all.

What this buys is one statement, `newest_write`: as long as the record written is newer than
everything stored, the store's value after a write, cut or not, is the new record or the old
value, and it is decided by whether the record reached its slot. A caller that counts its
writes to pick versions discharges the side condition with `maxSeq_write`.
-/

namespace PingPong

inductive Slot
  | a | b
  deriving DecidableEq, Repr

def Slot.other : Slot → Slot
  | .a => .b
  | .b => .a

/-- What each slot reads as; `none` is an unreadable slot. -/
structure Pair (R : Type*) where
  a : Option R
  b : Option R

/-- What a write attempt left in the slot it was aimed at. -/
inductive Outcome
  | kept | lost | stored
  deriving DecidableEq, Repr

namespace Pair

variable {R : Type*}

def get (p : Pair R) : Slot → Option R
  | .a => p.a
  | .b => p.b

def set (p : Pair R) : Slot → Option R → Pair R
  | .a, x => { p with a := x }
  | .b, x => { p with b := x }

@[simp] theorem get_set (p : Pair R) (s : Slot) (x : Option R) : (p.set s x).get s = x := by
  cases s <;> rfl

@[simp] theorem get_set_other (p : Pair R) (s : Slot) (x : Option R) :
    (p.set s x).get s.other = p.get s.other := by cases s <;> rfl

variable (seq : R → ℕ)

/-- The readable record of the highest version; slot `a` wins a tie. -/
def newest (p : Pair R) : Option R :=
  match p.a, p.b with
  | some x, some y => if seq y ≤ seq x then some x else some y
  | some x, none => some x
  | none, some y => some y
  | none, none => none

/-- The slot the next write goes to. -/
def target (p : Pair R) : Slot :=
  match p.a, p.b with
  | some x, some y => if seq y ≤ seq x then .b else .a
  | some _, none => .b
  | none, _ => .a

/-- The version of the store's value, `0` when nothing is readable. -/
def maxSeq (p : Pair R) : ℕ := ((p.newest seq).map seq).getD 0

/-- A write attempt of `r`, by its outcome. -/
def write (p : Pair R) (r : R) : Outcome → Pair R
  | .kept => p
  | .lost => p.set (p.target seq) none
  | .stored => p.set (p.target seq) (some r)

variable {seq}

/-! ## A write never touches the store's value -/

theorem get_other_target (p : Pair R) : p.get (p.target seq).other = p.newest seq := by
  obtain ⟨_ | x, _ | y⟩ := p
  · rfl
  · rfl
  · rfl
  · by_cases h : seq y ≤ seq x <;> simp [target, newest, h, get, Slot.other]

theorem seq_le_maxSeq {p : Pair R} {s : Slot} {r : R} (h : p.get s = some r) :
    seq r ≤ p.maxSeq seq := by
  obtain ⟨_ | x, _ | y⟩ := p <;> cases s <;> simp only [get, Option.some.injEq] at h
  all_goals first | exact absurd h (by simp) | subst h
  · simp [maxSeq, newest]
  · simp [maxSeq, newest]
  · by_cases hle : seq y ≤ seq x <;> simp [maxSeq, newest, hle]
    omega
  · by_cases hle : seq y ≤ seq x <;> simp [maxSeq, newest, hle]

theorem newest_set_target_none (p : Pair R) :
    (p.set (p.target seq) none).newest seq = p.newest seq := by
  obtain ⟨_ | x, _ | y⟩ := p
  · rfl
  · rfl
  · rfl
  · by_cases h : seq y ≤ seq x <;> simp [target, newest, h, set]

/-- Whatever record lands in the target slot, the value is that record or the old one. -/
theorem newest_set_target_or (p : Pair R) (r : R) :
    (p.set (p.target seq) (some r)).newest seq = some r ∨
      (p.set (p.target seq) (some r)).newest seq = p.newest seq := by
  obtain ⟨_ | x, _ | y⟩ := p
  · exact Or.inl rfl
  · by_cases h : seq y ≤ seq r <;> simp [target, newest, h, set]
  · by_cases h : seq r ≤ seq x <;> simp [target, newest, h, set]
  · by_cases h : seq y ≤ seq x
    · by_cases h' : seq r ≤ seq x <;> simp [target, newest, h, h', set]
    · by_cases h' : seq y ≤ seq r <;> simp [target, newest, h, h', set]

theorem newest_set_target (p : Pair R) {r : R} (h : p.maxSeq seq < seq r) :
    (p.set (p.target seq) (some r)).newest seq = some r := by
  rcases @newest_set_target_or R seq p r with heq | heq
  · exact heq
  · cases hn : p.newest seq with
    | none =>
      -- With nothing readable the write goes to slot `a` and stands alone.
      obtain ⟨_ | x, _ | y⟩ := p
      · rfl
      · simp [newest] at hn
      · simp [newest] at hn
      · by_cases hle : seq y ≤ seq x <;> simp [newest, hle] at hn
    | some x =>
      have hx : x ∈ p.newest seq := hn
      have hlt : seq x < seq r := by
        simpa [maxSeq, hn] using h
      have hin : (p.set (p.target seq) (some r)).get (p.target seq) = some r := get_set _ _ _
      have hle := @seq_le_maxSeq R seq _ _ _ hin
      rw [maxSeq, heq, hn] at hle
      simp only [Option.map_some, Option.getD_some] at hle
      omega

/-! ## The write law -/

/-- **A write, cut or not, yields the new record or the old value.** -/
theorem newest_write (p : Pair R) {r : R} (h : p.maxSeq seq < seq r) (o : Outcome) :
    (p.write seq r o).newest seq = if o = .stored then some r else p.newest seq := by
  cases o with
  | kept => rfl
  | lost => exact newest_set_target_none p
  | stored => exact newest_set_target p h

theorem maxSeq_write (p : Pair R) {r : R} (h : p.maxSeq seq < seq r) (o : Outcome) :
    (p.write seq r o).maxSeq seq = if o = .stored then seq r else p.maxSeq seq := by
  rw [maxSeq, newest_write p h]
  cases o <;> rfl

/-- Completed writes alternate between the slots. -/
theorem target_write (p : Pair R) {r : R} (h : p.maxSeq seq < seq r) :
    (p.write seq r .stored).target seq = (p.target seq).other := by
  have hle : ∀ {s x}, p.get s = some x → seq x < seq r := fun hx =>
    Nat.lt_of_le_of_lt (seq_le_maxSeq hx) h
  obtain ⟨_ | x, _ | y⟩ := p
  · rfl
  · have hy : seq y < seq r := hle (s := .b) rfl
    simp [write, target, set, Slot.other, Nat.le_of_lt hy]
  · have hx : seq x < seq r := hle (s := .a) rfl
    simp [write, target, set, Slot.other, hx]
  · have hx : seq x < seq r := hle (s := .a) rfl
    have hy : seq y < seq r := hle (s := .b) rfl
    by_cases hyx : seq y ≤ seq x <;>
      simp [write, target, set, Slot.other, hyx, hx, Nat.le_of_lt hy]

/-- Whatever holds of every readable record, and of the record written if it is stored, holds of
every readable record after a write attempt. -/
theorem get_write_of (P : R → Prop) {p : Pair R} {r : R} {o : Outcome}
    (hr : o = .stored → P r) (hp : ∀ s x, p.get s = some x → P x) :
    ∀ s x, (p.write seq r o).get s = some x → P x := by
  intro s x hx
  have hset : ∀ (t : Slot) (y : Option R), (∀ z, y = some z → P z) →
      (p.set t y).get s = some x → P x := by
    intro t y hy hget
    by_cases hst : s = t
    · subst hst; rw [get_set] at hget; exact hy x hget
    · have : s = t.other := by cases s <;> cases t <;> simp_all [Slot.other]
      rw [this, get_set_other] at hget
      exact hp _ x hget
  cases o with
  | kept => exact hp s x hx
  | lost => exact hset _ none (fun _ h => absurd h (by simp)) hx
  | stored => exact hset _ (some r) (fun z h => Option.some.inj h ▸ hr rfl) hx

end Pair

end PingPong
