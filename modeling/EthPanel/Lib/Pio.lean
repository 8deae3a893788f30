import Mathlib.Algebra.Group.Nat.Defs
import Mathlib.Tactic.Common

/-!
# A PIO state machine

One state machine of a programmable I/O block, cycle by cycle, with one side-set pin and with
autopull. An instruction drives the pin as it begins, also when it stalls, and then waits its delay.
An `out` takes bits from the top of the output shift register. The register is full again from the
FIFO, if the FIFO has a word, in any cycle in which `threshold` bits have been taken; an `out` that
finds it spent stalls.

`pending` is what the machine still has to shift out. A refill does not change it, and an `out`
takes its first bit.
-/

namespace Pio

abbrev Word := BitVec 32

inductive Op
  /-- `out x, n`. -/
  | out (n : ℕ)
  /-- `jmp target`. -/
  | jmp (target : ℕ)
  /-- `jmp !x target`. -/
  | jmpNotX (target : ℕ)
  | nop
  deriving DecidableEq

structure Instr where
  op : Op
  side : Bool
  delay : ℕ
  deriving DecidableEq

structure Program where
  code : List Instr
  wrapTarget : ℕ
  wrap : ℕ

/-- Shifting is to the left; no more than a word is taken. -/
structure Config where
  threshold : ℕ
  threshold_pos : 0 < threshold
  threshold_le : threshold ≤ 32
  /-- The depth of the FIFO. -/
  depth : ℕ

structure Machine where
  pc : ℕ
  x : Word
  osr : Word
  /-- The bits taken from the shift register. -/
  count : ℕ
  fifo : List Word
  delay : ℕ
  pin : Bool

variable (p : Program) (c : Config)

def Program.after (pc : ℕ) : ℕ := if pc = p.wrap then p.wrapTarget else pc + 1

/-- The machine as it is enabled: the shift register is spent. -/
def Machine.init : Machine := ⟨p.wrapTarget, 0, 0, 32, [], 0, false⟩

/-- Autopull. -/
def Machine.refill (s : Machine) : Machine :=
  if s.count < c.threshold then s
  else match s.fifo with
    | [] => s
    | w :: ws => { s with osr := w, count := 0, fifo := ws }

def Machine.exec (s : Machine) (i : Instr) : Machine :=
  match i.op with
  | .out n =>
    if s.count < c.threshold then
      Machine.refill c
        { s with
          pin := i.side
          x := s.osr >>> (32 - n)
          osr := s.osr <<< n
          count := min 32 (s.count + n)
          pc := p.after s.pc
          delay := i.delay }
    else Machine.refill c { s with pin := i.side }
  | .jmp target => Machine.refill c { s with pin := i.side, pc := target, delay := i.delay }
  | .jmpNotX target =>
    Machine.refill c
      { s with
        pin := i.side
        pc := if s.x = 0 then target else p.after s.pc
        delay := i.delay }
  | .nop => Machine.refill c { s with pin := i.side, pc := p.after s.pc, delay := i.delay }

/-- One cycle. -/
def Machine.cycle (s : Machine) : Machine :=
  if s.delay = 0 then
    match p.code[s.pc]? with
    | some i => s.exec p c i
    | none => s
  else Machine.refill c { s with delay := s.delay - 1 }

/-- The processor writes a word to the FIFO. -/
def Machine.put (s : Machine) (w : Word) : Machine := { s with fifo := s.fifo ++ [w] }

/-! ## What is to be shifted out -/

/-- The bits of a word that are sent, in their order. -/
def Config.wordBits (w : Word) : List Bool := (List.range c.threshold).map w.getMsbD

def Machine.held (s : Machine) : List Bool := (List.range (c.threshold - s.count)).map s.osr.getMsbD

def Machine.pending (s : Machine) : List Bool := s.held c ++ s.fifo.flatMap c.wordBits

variable {p c} {s : Machine}

@[simp] theorem Machine.refill_pc : (s.refill c).pc = s.pc := by
  unfold refill
  split
  · rfl
  · split <;> rfl

@[simp] theorem Machine.refill_x : (s.refill c).x = s.x := by
  unfold refill
  split
  · rfl
  · split <;> rfl

@[simp] theorem Machine.refill_delay : (s.refill c).delay = s.delay := by
  unfold refill
  split
  · rfl
  · split <;> rfl

@[simp] theorem Machine.refill_pin : (s.refill c).pin = s.pin := by
  unfold refill
  split
  · rfl
  · split <;> rfl

theorem Machine.held_eq_nil (h : ¬ s.count < c.threshold) : s.held c = [] := by
  have hnone : c.threshold - s.count = 0 := by omega
  simp [held, hnone]

@[simp] theorem Machine.refill_pending : (s.refill c).pending c = s.pending c := by
  unfold refill
  split
  · rfl
  · rename_i hspent
    split
    · rfl
    · rename_i w ws hfifo
      rw [pending, pending, held_eq_nil hspent, hfifo]
      rfl

@[simp] theorem Machine.put_pending (w : Word) :
    (s.put w).pending c = s.pending c ++ c.wordBits w := by
  simp [pending, put, held]

/-- An `out` of one bit takes the first. -/
theorem Machine.pending_out (h : s.count < c.threshold) :
    s.pending c = s.osr.getMsbD 0 ::
      Machine.pending c { s with osr := s.osr <<< 1, count := s.count + 1 } := by
  obtain ⟨n, hn⟩ : ∃ n, c.threshold - s.count = n + 1 := ⟨c.threshold - s.count - 1, by omega⟩
  have hrest : c.threshold - (s.count + 1) = n := by omega
  have hshift : (s.osr <<< 1).getMsbD = fun i => s.osr.getMsbD (i + 1) := by
    funext i
    rw [BitVec.getMsbD_shiftLeft]
  simp only [pending, held, hn, hrest, hshift, List.range_succ_eq_map, List.map_cons, List.map_map,
    List.cons_append]
  rfl

theorem shiftRight_eq_zero_iff (w : Word) : w >>> 31 = 0 ↔ w.getMsbD 0 = false := by
  constructor
  · intro h
    have hbit := congrArg (fun v : Word => v.getLsbD 0) h
    simpa [BitVec.getMsbD] using hbit
  · intro h
    apply BitVec.eq_of_getLsbD_eq
    intro i hi
    by_cases hzero : i = 0
    · subst hzero
      simpa [BitVec.getMsbD] using h
    · have hge : ¬ 31 + i < 32 := by omega
      simp [BitVec.getLsbD_of_ge _ _ (Nat.not_lt.mp hge)]

/-! ## One lemma per kind of cycle -/

/-- The machine waits. -/
theorem Machine.cycle_wait (h : s.delay ≠ 0) :
    s.cycle p c = Machine.refill c { s with delay := s.delay - 1 } := if_neg h

theorem Machine.cycle_exec {i : Instr} (hdelay : s.delay = 0) (hcode : p.code[s.pc]? = some i) :
    s.cycle p c = s.exec p c i := by
  rw [cycle, if_pos hdelay, hcode]

theorem Machine.exec_out_stall (h : ¬ s.count < c.threshold) (side : Bool) (delay : ℕ) :
    s.exec p c ⟨.out 1, side, delay⟩ = Machine.refill c { s with pin := side } := by
  simp [exec, h]

/-- What an `out` of one bit does that does not stall. -/
theorem Machine.exec_out (h : s.count < c.threshold) (side : Bool) (delay : ℕ) :
    s.exec p c ⟨.out 1, side, delay⟩ = Machine.refill c
      { s with
        pin := side
        x := s.osr >>> 31
        osr := s.osr <<< 1
        count := s.count + 1
        pc := p.after s.pc
        delay := delay } := by
  have hle := c.threshold_le
  have hcount : min 32 (s.count + 1) = s.count + 1 := by omega
  simp [exec, h, hcount]

/-! ## Spent and ready -/

/-- Nothing is left to refill from, or nothing to refill. -/
def Machine.Ready (c : Config) (s : Machine) : Prop := s.count < c.threshold ∨ s.fifo = []

instance (s : Machine) : Decidable (s.Ready c) := inferInstanceAs (Decidable (_ ∨ _))

theorem Machine.refill_ready : (s.refill c).Ready c := by
  unfold refill
  split
  · rename_i h
    exact Or.inl h
  · split
    · rename_i h
      exact Or.inr h
    · exact Or.inl c.threshold_pos

theorem Machine.cycle_ready {i : Instr} (hcode : p.code[s.pc]? = some i) :
    (s.cycle p c).Ready c := by
  by_cases hdelay : s.delay = 0
  · rw [cycle_exec hdelay hcode, exec]
    split
    · split <;> exact refill_ready
    all_goals exact refill_ready
  · rw [cycle_wait hdelay]
    exact refill_ready

theorem Config.wordBits_length (w : Word) : (c.wordBits w).length = c.threshold := by
  simp [wordBits]

theorem Machine.Ready.of_pending (h : s.Ready c) (hpending : s.pending c ≠ []) :
    s.count < c.threshold := by
  by_contra hcount
  exact hpending (by rw [pending, held_eq_nil hcount, h.resolve_left hcount]; rfl)

/-! ## How much it holds -/

theorem Machine.refill_fifo : (s.refill c).fifo.length ≤ s.fifo.length := by
  unfold refill
  split
  · exact Nat.le_refl _
  · split
    · exact Nat.le_refl _
    · rename_i w ws hfifo
      rw [hfifo]
      exact Nat.le_succ _

/-- Only a write fills the FIFO. -/
theorem Machine.cycle_fifo : (s.cycle p c).fifo.length ≤ s.fifo.length := by
  unfold cycle
  split
  · split
    · unfold exec
      split
      · split <;> exact refill_fifo
      all_goals exact refill_fifo
    · exact Nat.le_refl _
  · exact refill_fifo

theorem Machine.pending_length :
    (s.pending c).length = c.threshold - s.count + c.threshold * s.fifo.length := by
  have hwords : ∀ ws : List Word, (ws.flatMap c.wordBits).length = c.threshold * ws.length := by
    intro ws
    induction ws with
    | nil => rfl
    | cons w ws ih =>
      rw [List.flatMap_cons, List.length_append, Config.wordBits_length, ih, List.length_cons,
        Nat.mul_succ, Nat.add_comm]
  rw [pending, List.length_append, hwords]
  simp [held]

end Pio
