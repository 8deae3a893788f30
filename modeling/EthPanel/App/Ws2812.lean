import EthPanel.Lib.Nrz
import EthPanel.Lib.Pio
import EthPanel.Lib.Run
import Mathlib.Algebra.Group.Nat.Defs
import Mathlib.Tactic.Common

/-!
# `status_led/ws2812.pio`

The program that drives a chain of lights: for every bit the line is low for `T3` cycles, high for
`T1`, and for another `T2` high for a one and low for a zero. The machine runs at eight megahertz,
so a cycle is an eighth of a microsecond.

The processor writes words to the FIFO when it has them and the FIFO has room, and the line stays
low while it has none. Whatever it does, the chain receives what was written (`wire_received`).
-/

namespace EthPanel

open Lts Pio Nrz

/-- `T1`. -/
def ws2812T1 : ℕ := 2
/-- `T2`. -/
def ws2812T2 : ℕ := 5
/-- `T3`. -/
def ws2812T3 : ℕ := 3

/-- `ws2812`. `bitloop` is at 0, `do_one` at 2 and `do_zero` at 3. -/
def ws2812Program : Program where
  code := [
    ⟨.out 1, false, ws2812T3 - 1⟩,
    ⟨.jmpNotX 3, true, ws2812T1 - 1⟩,
    ⟨.jmp 0, true, ws2812T2 - 1⟩,
    ⟨.nop, false, ws2812T2 - 1⟩]
  wrapTarget := 0
  wrap := 3

/-- `ws2812_program_init`, without a white channel. The two FIFOs are joined. -/
def ws2812Config : Config := ⟨24, by decide, by decide, 8⟩

/-- When a light takes a pulse for a one. The program's two pulses are `T1` and `T1 + T2` long, and
any light that tells them apart will do. -/
structure Lights where
  one : ℕ
  narrow : ws2812T1 < one
  wide : one ≤ ws2812T1 + ws2812T2

variable (d : Lights)

/-- The lights: 280 microseconds end a frame. -/
def ws2812Timing : Timing := ⟨d.one, 2240⟩

/-- A state machine and the chain at its pin. -/
structure Wire where
  sm : Machine
  chain : Receiver

/-- One cycle. At its end the processor may have written a word. -/
def Wire.next (s : Wire) (put : Option Word) : Wire :=
  let sm := s.sm.cycle ws2812Program ws2812Config
  ⟨put.elim sm sm.put, s.chain.sample (ws2812Timing d) sm.pin⟩

/-- `pio_sm_put_blocking` waits for room. -/
def WireStep (s : Wire) (put : Option Word) (t : Wire) : Prop :=
  (put.isSome → s.sm.fifo.length < ws2812Config.depth) ∧ t = s.next d put

def Wire.start : Wire := ⟨.init ws2812Program, .idle (ws2812Timing d)⟩

/-! ## Where the program is -/

/-- Where the machine is in the program, and the bit that is on the line. -/
inductive Place (m : Machine) (r : Receiver) : List Bool → Prop
  /-- Before the next bit, the line low. -/
  | gap (hpc : m.pc = 0) (hdelay : m.delay ≤ 4) (hpin : m.pin = false) (hhigh : r.high = 0) :
      Place m r []
  /-- Before the next bit, in the pulse of a one. -/
  | wide (hpc : m.pc = 0) (hdelay : m.delay ≤ 4) (hpin : m.pin = true)
      (hhigh : r.high + m.delay = 7) (hlow : r.low = 0) : Place m r [true]
  /-- The low part of a bit. -/
  | low (bit : Bool) (hpc : m.pc = 1) (hdelay : m.delay ≤ 2) (hpin : m.pin = false)
      (hhigh : r.high = 0) (hx : m.x = 0 ↔ bit = false) : Place m r [bit]
  /-- The high part that all bits have. -/
  | high (bit : Bool) (hpc : m.pc = if bit then 2 else 3) (hdelay : m.delay ≤ 1)
      (hpin : m.pin = true) (hhigh : r.high + m.delay = 2) (hlow : r.low = 0) : Place m r [bit]

/-- What the program does in a cycle. -/
inductive WsCycle (s t : Machine) : Prop
  | wait (hdelay : s.delay = t.delay + 1) (hpc : t.pc = s.pc) (hx : t.x = s.x)
      (hpin : t.pin = s.pin) (hpending : t.pending ws2812Config = s.pending ws2812Config)
  | stall (hpc : s.pc = 0) (hdelay : s.delay = 0) (hspent : ¬ s.count < 24) (hpc' : t.pc = 0)
      (hdelay' : t.delay = 0) (hpin : t.pin = false)
      (hpending : t.pending ws2812Config = s.pending ws2812Config)
  | out (bit : Bool) (hpc : s.pc = 0) (hdelay : s.delay = 0) (hready : s.count < 24)
      (hpc' : t.pc = 1) (hdelay' : t.delay = 2) (hpin : t.pin = false)
      (hx : t.x = 0 ↔ bit = false)
      (hpending : s.pending ws2812Config = bit :: t.pending ws2812Config)
  | branch (hpc : s.pc = 1) (hdelay : s.delay = 0) (hpc' : t.pc = if s.x = 0 then 3 else 2)
      (hdelay' : t.delay = 1) (hpin : t.pin = true)
      (hpending : t.pending ws2812Config = s.pending ws2812Config)
  | one (hpc : s.pc = 2) (hdelay : s.delay = 0) (hpc' : t.pc = 0) (hdelay' : t.delay = 4)
      (hpin : t.pin = true) (hpending : t.pending ws2812Config = s.pending ws2812Config)
  | zero (hpc : s.pc = 3) (hdelay : s.delay = 0) (hpc' : t.pc = 0) (hdelay' : t.delay = 4)
      (hpin : t.pin = false) (hpending : t.pending ws2812Config = s.pending ws2812Config)

theorem WsCycle.of_cycle {s : Machine} (hpc : s.pc < 4) :
    WsCycle s (s.cycle ws2812Program ws2812Config) := by
  by_cases hdelay : s.delay = 0
  · have hpcs : s.pc = 0 ∨ s.pc = 1 ∨ s.pc = 2 ∨ s.pc = 3 := by omega
    rcases hpcs with hpc | hpc | hpc | hpc
    · have hcode : ws2812Program.code[s.pc]? = some ⟨.out 1, false, 2⟩ := by rw [hpc]; rfl
      have hafter : ws2812Program.after s.pc = 1 := by rw [hpc]; rfl
      rw [Machine.cycle_exec hdelay hcode]
      by_cases hready : s.count < ws2812Config.threshold
      · rw [Machine.exec_out hready, hafter]
        refine .out (s.osr.getMsbD 0) hpc hdelay hready (by simp) (by simp) (by simp) ?_ ?_
        · simpa using shiftRight_eq_zero_iff s.osr
        · rw [Machine.refill_pending, Machine.pending_out hready]
          rfl
      · rw [Machine.exec_out_stall hready]
        refine .stall hpc hdelay hready (by simpa using hpc) (by simpa using hdelay) (by simp) ?_
        rw [Machine.refill_pending]
        rfl
    · have hcode : ws2812Program.code[s.pc]? = some ⟨.jmpNotX 3, true, 1⟩ := by rw [hpc]; rfl
      have hafter : ws2812Program.after s.pc = 2 := by rw [hpc]; rfl
      rw [Machine.cycle_exec hdelay hcode, Machine.exec, hafter]
      refine .branch hpc hdelay (by simp) (by simp) (by simp) ?_
      rw [Machine.refill_pending]
      rfl
    · have hcode : ws2812Program.code[s.pc]? = some ⟨.jmp 0, true, 4⟩ := by rw [hpc]; rfl
      rw [Machine.cycle_exec hdelay hcode, Machine.exec]
      refine .one hpc hdelay (by simp) (by simp) (by simp) ?_
      rw [Machine.refill_pending]
      rfl
    · have hcode : ws2812Program.code[s.pc]? = some ⟨.nop, false, 4⟩ := by rw [hpc]; rfl
      have hafter : ws2812Program.after s.pc = 0 := by rw [hpc]; rfl
      rw [Machine.cycle_exec hdelay hcode, Machine.exec, hafter]
      refine .zero hpc hdelay (by simp) (by simp) (by simp) ?_
      rw [Machine.refill_pending]
      rfl
  · rw [Machine.cycle_wait hdelay]
    refine .wait ?_ (by simp) (by simp) (by simp) ?_
    · rw [Machine.refill_delay]
      change s.delay = s.delay - 1 + 1
      omega
    · rw [Machine.refill_pending]
      rfl

/-! ## What the chain receives -/

/-- The words that are written in some cycles. -/
def written (l : List (Option Word)) : List Word := l.flatMap Option.toList

/-- What the chain is to receive of some words. -/
def frameBits (words : List Word) : List Bool := words.flatMap ws2812Config.wordBits

/-- A bit is on the line, and with it the chain has, or is to have, `all` bits. -/
def Wire.Sends (all : List Bool) (s : Wire) : Prop :=
  ∃ bits, Place s.sm s.chain bits ∧ s.chain.received ++ bits ++ s.sm.pending ws2812Config = all

section Wire

variable {d} {s t : Wire} {m m' : Machine} {r : Receiver} {bits all : List Bool}

theorem Place.pc_lt (h : Place m r bits) : m.pc < 4 := by
  cases h with
  | gap hpc => omega
  | wide hpc => omega
  | low _ hpc => omega
  | high bit hpc => cases bit <;> simp_all

/-- The program is at `do_one` for a one, and at `do_zero` for a zero. -/
theorem bit_of_pc {bit : Bool} (hpc : m.pc = if bit then 2 else 3) :
    (m.pc = 2 → bit = true) ∧ (m.pc = 3 → bit = false) := by
  cases bit <;> simp_all

/-- The pulse of a one is 7 cycles long. -/
theorem reads_one (h : r.high = 7) : decide ((ws2812Timing d).one ≤ r.high) = true := by
  rw [h]
  exact decide_eq_true d.wide

/-- The pulse of a zero is 2 cycles long. -/
theorem reads_zero (h : r.high = 2) : decide ((ws2812Timing d).one ≤ r.high) = false := by
  rw [h]
  exact decide_eq_false (Nat.not_le.mpr d.narrow)

/-- **One cycle**: a bit that leaves the machine is on the line, and one that leaves the line has
been received. -/
theorem Place.cycle (d : Lights) (h : Place m r bits) (hcycle : WsCycle m m') :
    ∃ bits', Place m' (r.sample (ws2812Timing d) m'.pin) bits' ∧
      (r.sample (ws2812Timing d) m'.pin).received ++ bits' ++ m'.pending ws2812Config =
        r.received ++ bits ++ m.pending ws2812Config := by
  cases h with
  | gap hpc hdelay hpin hhigh =>
    cases hcycle with
    | wait hwait hpc' hx' hpin' hpending =>
      rw [hpin', hpin]
      refine ⟨[], .gap (hpc'.trans hpc) (by omega) (hpin'.trans hpin) (by simp), ?_⟩
      rw [Receiver.sample_low_idle hhigh, hpending]
    | stall _ _ _ hpc' hdelay' hpin' hpending =>
      rw [hpin']
      refine ⟨[], .gap hpc' (by omega) hpin' (by simp), ?_⟩
      rw [Receiver.sample_low_idle hhigh, hpending]
    | out bit _ _ _ hpc' hdelay' hpin' hx' hpending =>
      rw [hpin']
      refine ⟨[bit], .low bit hpc' (by omega) hpin' (by simp) hx', ?_⟩
      rw [Receiver.sample_low_idle hhigh, hpending]
      simp
    | branch h => omega
    | one h => omega
    | zero h => omega
  | wide hpc hdelay hpin hhigh hlow =>
    cases hcycle with
    | wait hwait hpc' hx' hpin' hpending =>
      rw [hpin', hpin]
      refine ⟨[true], .wide (hpc'.trans hpc) (by omega) (hpin'.trans hpin) ?_ rfl, ?_⟩
      · simp only [Receiver.sample_high]
        omega
      · rw [Receiver.sample_high_received, hpending]
    | stall _ _ _ hpc' hdelay' hpin' hpending =>
      have hone := reads_one (d := d) (show r.high = 7 by omega)
      rw [hpin']
      refine ⟨[], .gap hpc' (by omega) hpin' (by simp), ?_⟩
      rw [Receiver.sample_low_pulse (by omega), hpending, hone, List.append_nil]
    | out bit _ _ _ hpc' hdelay' hpin' hx' hpending =>
      have hone := reads_one (d := d) (show r.high = 7 by omega)
      rw [hpin']
      refine ⟨[bit], .low bit hpc' (by omega) hpin' (by simp) hx', ?_⟩
      rw [Receiver.sample_low_pulse (by omega), hpending, hone]
      simp
    | branch h => omega
    | one h => omega
    | zero h => omega
  | low bit hpc hdelay hpin hhigh hx =>
    cases hcycle with
    | wait hwait hpc' hx' hpin' hpending =>
      rw [hpin', hpin]
      refine ⟨[bit], .low bit (hpc'.trans hpc) (by omega) (hpin'.trans hpin) (by simp) ?_, ?_⟩
      · rwa [hx']
      · rw [Receiver.sample_low_idle hhigh, hpending]
    | branch _ hzero hpc' hdelay' hpin' hpending =>
      rw [hpin']
      refine ⟨[bit], .high bit ?_ (by omega) hpin' ?_ rfl, ?_⟩
      · rw [hpc', if_congr hx rfl rfl]
        cases bit <;> rfl
      · simp only [Receiver.sample_high]
        omega
      · rw [Receiver.sample_high_received, hpending]
    | stall h => omega
    | out _ h => omega
    | one h => omega
    | zero h => omega
  | high bit hpc hdelay hpin hhigh hlow =>
    cases hcycle with
    | wait hwait hpc' hx' hpin' hpending =>
      rw [hpin', hpin]
      refine ⟨[bit], .high bit (hpc'.trans hpc) (by omega) (hpin'.trans hpin) ?_ rfl, ?_⟩
      · simp only [Receiver.sample_high]
        omega
      · rw [Receiver.sample_high_received, hpending]
    | one h hzero hpc' hdelay' hpin' hpending =>
      have hbit := (bit_of_pc hpc).1 h
      subst hbit
      rw [hpin']
      refine ⟨[true], .wide hpc' (by omega) hpin' ?_ rfl, ?_⟩
      · simp only [Receiver.sample_high]
        omega
      · rw [Receiver.sample_high_received, hpending]
    | zero h hdone hpc' hdelay' hpin' hpending =>
      have hbit := (bit_of_pc hpc).2 h
      have hzero := reads_zero (d := d) (show r.high = 2 by omega)
      subst hbit
      rw [hpin']
      refine ⟨[], .gap hpc' (by omega) hpin' (by simp), ?_⟩
      rw [Receiver.sample_low_pulse (by omega), hpending, hzero, List.append_nil]
    | stall h => cases bit <;> simp_all
    | out _ h => cases bit <;> simp_all
    | branch h => cases bit <;> simp_all

theorem Place.put (h : Place m r bits) (w : Word) : Place (m.put w) r bits := by
  cases h with
  | gap hpc hdelay hpin hhigh => exact .gap hpc hdelay hpin hhigh
  | wide hpc hdelay hpin hhigh hlow => exact .wide hpc hdelay hpin hhigh hlow
  | low bit hpc hdelay hpin hhigh hx => exact .low bit hpc hdelay hpin hhigh hx
  | high bit hpc hdelay hpin hhigh hlow => exact .high bit hpc hdelay hpin hhigh hlow

theorem Wire.Sends.step {put : Option Word} (h : s.Sends all) (hstep : WireStep d s put t) :
    t.Sends (all ++ frameBits put.toList) := by
  obtain ⟨bits, hplace, hall⟩ := h
  obtain ⟨bits', hplace', hsame⟩ := hplace.cycle d (.of_cycle hplace.pc_lt)
  obtain ⟨_, rfl⟩ := hstep
  cases put with
  | none =>
    refine ⟨bits', hplace', ?_⟩
    simpa [next, frameBits] using hsame.trans hall
  | some w =>
    refine ⟨bits', hplace'.put w, ?_⟩
    change (s.chain.sample (ws2812Timing d) _).received ++ bits' ++
      Machine.pending _ (Machine.put _ w) = _
    rw [Machine.put_pending, ← List.append_assoc, hsame, hall]
    simp [frameBits]

theorem Wire.Sends.run {l : List (Option Word)} (h : s.Sends all) (r : Run (WireStep d) s l t) :
    t.Sends (all ++ frameBits (written l)) := by
  induction r generalizing all with
  | nil _ => simpa [written, frameBits] using h
  | cons hstep _ ih => simpa [written, frameBits] using ih (h.step hstep)

theorem Wire.start_sends : (Wire.start d).Sends [] := by
  exact ⟨[], .gap rfl (Nat.zero_le 4) rfl rfl, rfl⟩

end Wire

/-! ## How long it takes -/

/-- The cycles from the first cycle of some bits to the end of the last pulse. -/
def sendTime : List Bool → ℕ
  | [] => 0
  | bit :: bits => if bits = [] then if bit then 10 else 5 else 10 + sendTime bits

/-- An `out` that comes next finds the shift register spent, and a word in the FIFO. -/
def stall (m : Machine) : ℕ := if m.delay = 0 ∧ ¬ m.Ready ws2812Config then 1 else 0

/-- The cycles to the end of the last pulse, when nothing more is written. -/
def cyclesLeft (m : Machine) : ℕ :=
  let rest := m.pending ws2812Config
  if m.pc = 0 then
    if rest = [] then if m.pin then m.delay else 0
    else m.delay + stall m + sendTime rest
  else if m.pc = 1 then m.delay + sendTime (decide (m.x ≠ 0) :: rest) - 3
  else m.delay + sendTime (decide (m.pc = 2) :: rest) - 5

/-- The cycles for which the line stays low before the next pulse. -/
def rise (m : Machine) : ℕ :=
  if m.pin then 0 else if m.pc = 0 then m.delay + stall m + 3 else m.delay

theorem sendTime_pos {bits : List Bool} (h : bits ≠ []) : 5 ≤ sendTime bits := by
  obtain ⟨bit, bits, rfl⟩ := List.exists_cons_of_ne_nil h
  rw [sendTime]
  split
  · split <;> omega
  · omega

theorem stall_eq_zero {m : Machine} (h : m.delay ≠ 0 ∨ m.Ready ws2812Config) : stall m = 0 := by
  rw [stall, if_neg]
  rintro ⟨hdelay, hready⟩
  exact h.elim (fun hne => hne hdelay) hready

/-- A spent register is filled in one cycle, if there is something to fill it with. -/
theorem stall_eq_one {m : Machine} (hdelay : m.delay = 0) (hspent : ¬ m.count < 24)
    (hrest : m.pending ws2812Config ≠ []) : stall m = 1 :=
  if_pos ⟨hdelay, fun h => hspent (h.of_pending hrest)⟩

section Time

variable {d} {m m' : Machine} {r : Receiver} {bits : List Bool}

theorem cyclesLeft_gap (hpc : m.pc = 0) (hpin : m.pin = false) : cyclesLeft m =
    if m.pending ws2812Config = [] then 0
    else m.delay + stall m + sendTime (m.pending ws2812Config) := by
  simp [cyclesLeft, hpc, hpin]

theorem cyclesLeft_wide (hpc : m.pc = 0) (hpin : m.pin = true) : cyclesLeft m =
    if m.pending ws2812Config = [] then m.delay
    else m.delay + stall m + sendTime (m.pending ws2812Config) := by
  simp [cyclesLeft, hpc, hpin]

theorem cyclesLeft_low {bit : Bool} (hpc : m.pc = 1) (hx : m.x = 0 ↔ bit = false) :
    cyclesLeft m = m.delay + sendTime (bit :: m.pending ws2812Config) - 3 := by
  have hbit : decide (m.x ≠ 0) = bit := by cases bit <;> simp_all
  simp only [cyclesLeft, hpc, hbit]
  rfl

theorem cyclesLeft_high {bit : Bool} (hpc : m.pc = if bit then 2 else 3) :
    cyclesLeft m = m.delay + sendTime (bit :: m.pending ws2812Config) - 5 := by
  cases bit <;> simp [cyclesLeft, hpc]

/-- **A cycle takes one of the cycles that are left**, and the line is low once none are. -/
theorem Place.cyclesLeft_cycle (h : Place m r bits) (hcycle : WsCycle m m')
    (hready : m'.Ready ws2812Config) :
    cyclesLeft m' = cyclesLeft m - 1 ∧ (cyclesLeft m = 0 → m'.pin = false) ∧
      (cyclesLeft m = 1 → m'.pin = true) := by
  have hstall := stall_eq_zero (Or.inr hready)
  cases h with
  | gap hpc hdelay hpin hhigh =>
    rw [cyclesLeft_gap hpc hpin]
    cases hcycle with
    | wait hwait hpc' hx' hpin' hpending =>
      have hnone : stall m = 0 := stall_eq_zero (Or.inl (by omega))
      rw [cyclesLeft_gap (hpc'.trans hpc) (hpin'.trans hpin), hpending, hstall, hnone, hpin', hpin]
      split
      · simp
      · rename_i hrest
        have hpos := sendTime_pos hrest
        exact ⟨by omega, fun _ => rfl, by omega⟩
    | stall _ hzero hspent hpc' hdelay' hpin' hpending =>
      rw [cyclesLeft_gap hpc' hpin', hpending, hstall, hpin', hdelay', hzero]
      split
      · simp
      · rename_i hrest
        have hpos := sendTime_pos hrest
        rw [stall_eq_one hzero hspent hrest]
        exact ⟨by omega, fun _ => rfl, by omega⟩
    | out bit _ hzero hcount hpc' hdelay' hpin' hx' hpending =>
      have hnone : stall m = 0 := stall_eq_zero (Or.inr (Or.inl hcount))
      have hpos := sendTime_pos (List.cons_ne_nil bit (m'.pending ws2812Config))
      rw [cyclesLeft_low hpc' hx', hpending, hdelay', hnone, hzero, hpin',
        if_neg (List.cons_ne_nil _ _)]
      exact ⟨by omega, fun _ => rfl, by omega⟩
    | branch h => omega
    | one h => omega
    | zero h => omega
  | wide hpc hdelay hpin hhigh hlow =>
    rw [cyclesLeft_wide hpc hpin]
    cases hcycle with
    | wait hwait hpc' hx' hpin' hpending =>
      have hnone : stall m = 0 := stall_eq_zero (Or.inl (by omega))
      rw [cyclesLeft_wide (hpc'.trans hpc) (hpin'.trans hpin), hpending, hstall, hnone, hpin', hpin]
      split
      · exact ⟨by omega, by omega, fun _ => rfl⟩
      · exact ⟨by omega, by omega, fun _ => rfl⟩
    | stall _ hzero hspent hpc' hdelay' hpin' hpending =>
      rw [cyclesLeft_gap hpc' hpin', hpending, hstall, hpin', hdelay', hzero]
      split
      · simp
      · rename_i hrest
        have hpos := sendTime_pos hrest
        rw [stall_eq_one hzero hspent hrest]
        exact ⟨by omega, fun _ => rfl, by omega⟩
    | out bit _ hzero hcount hpc' hdelay' hpin' hx' hpending =>
      have hnone : stall m = 0 := stall_eq_zero (Or.inr (Or.inl hcount))
      have hpos := sendTime_pos (List.cons_ne_nil bit (m'.pending ws2812Config))
      rw [cyclesLeft_low hpc' hx', hpending, hdelay', hnone, hzero, hpin',
        if_neg (List.cons_ne_nil _ _)]
      exact ⟨by omega, fun _ => rfl, by omega⟩
    | branch h => omega
    | one h => omega
    | zero h => omega
  | low bit hpc hdelay hpin hhigh hx =>
    have hpos := sendTime_pos (List.cons_ne_nil bit (m.pending ws2812Config))
    rw [cyclesLeft_low hpc hx]
    cases hcycle with
    | wait hwait hpc' hx' hpin' hpending =>
      rw [cyclesLeft_low (hpc'.trans hpc) (hx' ▸ hx), hpending, hpin', hpin]
      exact ⟨by omega, fun _ => rfl, by omega⟩
    | branch _ hzero hpc' hdelay' hpin' hpending =>
      have hbranch : m'.pc = if bit then 2 else 3 := by
        rw [hpc', if_congr hx rfl rfl]
        cases bit <;> rfl
      rw [cyclesLeft_high hbranch, hpending, hdelay', hzero, hpin']
      exact ⟨by omega, by omega, fun _ => rfl⟩
    | stall h => omega
    | out _ h => omega
    | one h => omega
    | zero h => omega
  | high bit hpc hdelay hpin hhigh hlow =>
    have hpos := sendTime_pos (List.cons_ne_nil bit (m.pending ws2812Config))
    rw [cyclesLeft_high hpc]
    cases hcycle with
    | wait hwait hpc' hx' hpin' hpending =>
      rw [cyclesLeft_high (hpc'.trans hpc), hpending, hpin', hpin]
      exact ⟨by omega, by omega, fun _ => rfl⟩
    | one h hzero hpc' hdelay' hpin' hpending =>
      have hbit := (bit_of_pc hpc).1 h
      rw [cyclesLeft_wide hpc' hpin', hpending, hstall, hdelay', hzero, hbit, sendTime, hpin']
      split
      · simp
      · exact ⟨by omega, by omega, fun _ => rfl⟩
    | zero h hzero hpc' hdelay' hpin' hpending =>
      have hbit := (bit_of_pc hpc).2 h
      rw [cyclesLeft_gap hpc' hpin', hpending, hstall, hdelay', hzero, hbit, sendTime, hpin']
      split
      · simp
      · exact ⟨by omega, fun _ => rfl, by omega⟩
    | stall h => cases bit <;> simp_all
    | out _ h => cases bit <;> simp_all
    | branch h => cases bit <;> simp_all

theorem rise_low (hpin : m.pin = false) :
    rise m = if m.pc = 0 then m.delay + stall m + 3 else m.delay := by
  simp [rise, hpin]

theorem rise_high (hpin : m.pin = true) : rise m = 0 := by
  simp [rise, hpin]

/-- While something is to be sent, the line is low for eight cycles at most between two pulses. -/
theorem Place.rise_cycle (d : Lights) (h : Place m r bits) (hcycle : WsCycle m m')
    (hready : m'.Ready ws2812Config) (hleft : 0 < cyclesLeft m) :
    (r.sample (ws2812Timing d) m'.pin).low + rise m' = r.low + rise m ∨
      (r.sample (ws2812Timing d) m'.pin).low + rise m' ≤ 8 := by
  have hstall := stall_eq_zero (Or.inr hready)
  cases h with
  | gap hpc hdelay hpin hhigh =>
    rw [cyclesLeft_gap hpc hpin] at hleft
    have hrest : m.pending ws2812Config ≠ [] := by
      intro hnil
      rw [if_pos hnil] at hleft
      omega
    refine Or.inl ?_
    rw [rise_low hpin, if_pos hpc]
    cases hcycle with
    | wait hwait hpc' hx' hpin' hpending =>
      have hnone : stall m = 0 := stall_eq_zero (Or.inl (by omega))
      have hlow := hpin'.trans hpin
      rw [hlow, rise_low hlow, if_pos (hpc'.trans hpc), Receiver.sample_low_low]
      omega
    | stall _ hzero hspent hpc' hdelay' hpin' hpending =>
      rw [hpin', rise_low hpin', if_pos hpc', Receiver.sample_low_low,
        stall_eq_one hzero hspent hrest]
      omega
    | out bit _ hzero hcount hpc' hdelay' hpin' hx' hpending =>
      have hnone : stall m = 0 := stall_eq_zero (Or.inr (Or.inl hcount))
      rw [hpin', rise_low hpin', if_neg (by omega), Receiver.sample_low_low]
      omega
    | branch h => omega
    | one h => omega
    | zero h => omega
  | wide hpc hdelay hpin hhigh hlow =>
    refine Or.inr ?_
    cases hcycle with
    | wait hwait hpc' hx' hpin' hpending =>
      have hhigh' := hpin'.trans hpin
      rw [hhigh', rise_high hhigh']
      exact Nat.zero_le 8
    | stall _ hzero hspent hpc' hdelay' hpin' hpending =>
      rw [hpin', rise_low hpin', if_pos hpc', Receiver.sample_low_low]
      omega
    | out bit _ hzero hcount hpc' hdelay' hpin' hx' hpending =>
      rw [hpin', rise_low hpin', if_neg (by omega), Receiver.sample_low_low]
      omega
    | branch h => omega
    | one h => omega
    | zero h => omega
  | low bit hpc hdelay hpin hhigh hx =>
    cases hcycle with
    | wait hwait hpc' hx' hpin' hpending =>
      have hlow := hpin'.trans hpin
      refine Or.inl ?_
      rw [hlow, rise_low hlow, rise_low hpin, if_neg (by omega), if_neg (by omega),
        Receiver.sample_low_low]
      omega
    | branch _ hzero hpc' hdelay' hpin' hpending =>
      refine Or.inr ?_
      rw [hpin', rise_high hpin']
      exact Nat.zero_le 8
    | stall h => omega
    | out _ h => omega
    | one h => omega
    | zero h => omega
  | high bit hpc hdelay hpin hhigh hlow =>
    refine Or.inr ?_
    cases hcycle with
    | wait hwait hpc' hx' hpin' hpending =>
      have hhigh' := hpin'.trans hpin
      rw [hhigh', rise_high hhigh']
      exact Nat.zero_le 8
    | one h hzero hpc' hdelay' hpin' hpending =>
      rw [hpin', rise_high hpin']
      exact Nat.zero_le 8
    | zero h hzero hpc' hdelay' hpin' hpending =>
      rw [hpin', rise_low hpin', if_pos hpc', Receiver.sample_low_low]
      omega
    | stall h => cases bit <;> simp_all
    | out _ h => cases bit <;> simp_all
    | branch h => cases bit <;> simp_all

theorem rise_le (h : Place m r bits) : rise m ≤ 8 := by
  have hstall : stall m ≤ 1 := by
    unfold stall
    split <;> omega
  unfold rise
  cases h <;> split <;> (try split) <;> omega

/-- What is to be sent takes ten cycles for a bit, and a few more. -/
theorem sendTime_bounds (bits : List Bool) :
    10 * bits.length ≤ sendTime bits + 5 ∧ sendTime bits ≤ 10 * bits.length := by
  induction bits with
  | nil => exact ⟨Nat.zero_le _, Nat.zero_le _⟩
  | cons bit bits ih =>
    simp only [sendTime, List.length_cons]
    split
    · rename_i hnil
      subst hnil
      split <;> simp
    · omega

theorem cyclesLeft_bounds (h : Place m r bits) (hrest : m.pending ws2812Config ≠ []) :
    10 * (m.pending ws2812Config).length ≤ cyclesLeft m + 5 ∧
      cyclesLeft m ≤ 10 * (m.pending ws2812Config).length + 9 := by
  obtain ⟨hlower, hupper⟩ := sendTime_bounds (m.pending ws2812Config)
  have hstall : stall m ≤ 1 := by
    unfold stall
    split <;> omega
  cases h with
  | gap hpc hdelay hpin hhigh =>
    rw [cyclesLeft_gap hpc hpin, if_neg hrest]
    omega
  | wide hpc hdelay hpin hhigh hlow =>
    rw [cyclesLeft_wide hpc hpin, if_neg hrest]
    omega
  | low bit hpc hdelay hpin hhigh hx =>
    rw [cyclesLeft_low hpc hx, sendTime, if_neg hrest]
    omega
  | high bit hpc hdelay hpin hhigh hlow =>
    rw [cyclesLeft_high hpc, sendTime, if_neg hrest]
    omega

theorem cyclesLeft_le (h : Place m r bits) :
    cyclesLeft m ≤ 10 * (m.pending ws2812Config).length + 9 := by
  by_cases hrest : m.pending ws2812Config = []
  · have hone : ∀ bit, sendTime [bit] ≤ 10 := by decide
    rw [hrest]
    cases h with
    | gap hpc _ hpin _ =>
      rw [cyclesLeft_gap hpc hpin, if_pos hrest]
      omega
    | wide hpc _ hpin _ _ =>
      rw [cyclesLeft_wide hpc hpin, if_pos hrest]
      omega
    | low bit hpc _ _ _ hx =>
      have htime := hone bit
      rw [cyclesLeft_low hpc hx, hrest]
      omega
    | high bit hpc _ _ _ _ =>
      have htime := hone bit
      rw [cyclesLeft_high hpc, hrest]
      omega
  · exact (cyclesLeft_bounds h hrest).2

/-- With no cycle left, the machine holds nothing. -/
theorem pending_of_left (h : Place m r bits) (hleft : cyclesLeft m = 0) :
    m.pending ws2812Config = [] := by
  by_contra hrest
  have hlength := List.length_pos_iff.mpr hrest
  have hbounds := cyclesLeft_bounds h hrest
  omega

/-- Once nothing is to be sent and the line is low, no bit is on it. -/
theorem Place.eq_nil (h : Place m r bits)
    (hleft : cyclesLeft m = 0) (hpin : m.pin = false) : bits = [] := by
  cases h with
  | gap _ _ _ _ => rfl
  | wide _ _ hhigh _ _ => rw [hhigh] at hpin; cases hpin
  | low bit hpc _ _ _ hx =>
    have hpos := sendTime_pos (List.cons_ne_nil bit (m.pending ws2812Config))
    rw [cyclesLeft_low hpc hx] at hleft
    omega
  | high _ _ _ hhigh _ _ => rw [hhigh] at hpin; cases hpin

theorem WsCycle.ready (hpc : m.pc < 4) :
    (m.cycle ws2812Program ws2812Config).Ready ws2812Config :=
  Machine.cycle_ready (List.getElem?_eq_getElem (l := ws2812Program.code) hpc)

end Time

/-! ## When all of it has been received -/

section Drain

variable {d} {s t : Wire} {all : List Bool}

/-- The FIFO is never over its depth. -/
theorem Wire.fifo_step {put : Option Word} (h : s.sm.fifo.length ≤ ws2812Config.depth)
    (hstep : WireStep d s put t) : t.sm.fifo.length ≤ ws2812Config.depth := by
  have hcycle := Machine.cycle_fifo (p := ws2812Program) (c := ws2812Config) (s := s.sm)
  obtain ⟨hroom, rfl⟩ := hstep
  cases put with
  | none => exact Nat.le_trans hcycle h
  | some w =>
    have hfree := hroom rfl
    change ((s.sm.cycle ws2812Program ws2812Config).fifo ++ [w]).length ≤ _
    rw [List.length_append, List.length_singleton]
    omega

theorem Wire.fifo_run {l : List (Option Word)} (h : s.sm.fifo.length ≤ ws2812Config.depth)
    (r : Run (WireStep d) s l t) : t.sm.fifo.length ≤ ws2812Config.depth :=
  r.invariant (I := fun s => s.sm.fifo.length ≤ ws2812Config.depth)
    (fun _ _ _ hI hstep => Wire.fifo_step hI hstep) h

/-- A full FIFO and the word before it take less than 272 microseconds. -/
theorem Wire.Sends.left_lt (h : s.Sends all) (hfifo : s.sm.fifo.length ≤ ws2812Config.depth) :
    cyclesLeft s.sm < 272 * 8 := by
  obtain ⟨bits, hplace, _⟩ := h
  have hlength := Machine.pending_length (c := ws2812Config) (s := s.sm)
  have hdepth : ws2812Config.depth = 8 := rfl
  have hthreshold : ws2812Config.threshold = 24 := rfl
  have hupper := cyclesLeft_le hplace
  rw [hthreshold] at hlength
  omega

/-- While nothing is written, a cycle takes one of the cycles that are left. -/
theorem Wire.Sends.drain {n : ℕ} (h : s.Sends all)
    (r : Run (WireStep d) s (List.replicate n none) t) :
    t.Sends all ∧ cyclesLeft t.sm = cyclesLeft s.sm - n := by
  induction n generalizing s with
  | zero =>
    cases r
    exact ⟨h, rfl⟩
  | succ n ih =>
    rw [List.replicate_succ] at r
    cases r with
    | cons hstep r =>
      have hnext := h.step hstep
      obtain ⟨bits, hplace, _⟩ := h
      obtain ⟨_, rfl⟩ := hstep
      obtain ⟨hless, _⟩ := hplace.cyclesLeft_cycle (.of_cycle hplace.pc_lt)
        (WsCycle.ready hplace.pc_lt)
      rw [Option.toList_none, frameBits, List.flatMap_nil, List.append_nil] at hnext
      obtain ⟨hsends, hleft⟩ := ih hnext r
      refine ⟨hsends, hleft.trans ?_⟩
      change cyclesLeft (s.sm.cycle ws2812Program ws2812Config) - n = _
      rw [hless]
      omega

/-- One cycle after the last of them the line is low, and all bits have been received. -/
theorem Wire.Sends.drained {n : ℕ} (h : s.Sends all)
    (r : Run (WireStep d) s (List.replicate n none) t) (hn : cyclesLeft s.sm < n) :
    t.chain.received = all := by
  obtain ⟨k, rfl⟩ : ∃ k, n = k + 1 := ⟨n - 1, by omega⟩
  rw [List.replicate_succ'] at r
  obtain ⟨u, front, last⟩ := r.split
  obtain ⟨hsends, hleft⟩ := h.drain front
  obtain ⟨⟨bits, hplace, hall⟩, hleft'⟩ := hsends.drain (n := 1) last
  obtain ⟨_, hplaceu, _⟩ := hsends
  have hpin : t.sm.pin = false := by
    cases last with
    | cons hstep hnil =>
      cases hnil
      obtain ⟨_, rfl⟩ := hstep
      exact (hplaceu.cyclesLeft_cycle (.of_cycle hplaceu.pc_lt)
        (WsCycle.ready hplaceu.pc_lt)).2.1 (by omega)
  have hzero : cyclesLeft t.sm = 0 := by omega
  obtain rfl := hplace.eq_nil hzero hpin
  rw [pending_of_left hplace hzero, List.append_nil, List.append_nil] at hall
  exact hall

/-- **What is written is received**, in its order and with nothing added: at any time all of it but
the bit on the line and what the machine still holds, and all of it once nothing has been written
for 272 microseconds. -/
theorem wire_received {l : List (Option Word)} (r : Run (WireStep d) (.start d) l t) :
    (∃ bits, bits.length ≤ 1 ∧
      t.chain.received ++ bits ++ t.sm.pending ws2812Config = frameBits (written l)) ∧
    ∀ n u, 272 * 8 ≤ n → Run (WireStep d) t (List.replicate n none) u →
      u.chain.received = frameBits (written l) := by
  have hsends := Wire.start_sends.run r
  rw [List.nil_append] at hsends
  constructor
  · obtain ⟨bits, hplace, hall⟩ := hsends
    refine ⟨bits, ?_, hall⟩
    cases hplace <;> simp
  · intro n u hn pause
    have hleft := hsends.left_lt (Wire.fifo_run (Nat.zero_le _) r)
    exact hsends.drained pause (by omega)

/-- The processor can always pause. -/
theorem Wire.exists_pause (d : Lights) (s : Wire) (n : ℕ) :
    ∃ t, Run (WireStep d) s (List.replicate n none) t := by
  induction n generalizing s with
  | zero => exact ⟨s, .nil s⟩
  | succ n ih =>
    obtain ⟨t, r⟩ := ih (s.next d none)
    exact ⟨t, .cons ⟨by simp, rfl⟩ r⟩

/-- Half a microsecond is a one. -/
def Lights.half : Lights := ⟨4, by decide, by decide⟩

/-- One word is written, and 272 microseconds later all of it has been received. -/
theorem wire_received_word : ∃ t u, Run (WireStep .half) (.start .half) [some 0xFF000000] t ∧
    Run (WireStep .half) t (List.replicate (272 * 8) none) u ∧
    u.chain.received = frameBits [0xFF000000] := by
  have write : Run (WireStep .half) (.start .half) [some 0xFF000000]
      ((Wire.start .half).next .half (some 0xFF000000)) := .single ⟨fun _ => by decide, rfl⟩
  obtain ⟨u, pause⟩ := Wire.exists_pause .half
    ((Wire.start .half).next .half (some 0xFF000000)) (272 * 8)
  exact ⟨_, u, write, pause, (wire_received write).2 _ u (Nat.le_refl _) pause⟩

end Drain

/-! ## Frames -/

section Frames

variable {d} {s t : Wire} {frames : List (List Bool)} {frame : List Bool}

/-- The chain has ended `frames`, and of `frame` it has, or is to have, all bits. -/
structure Wire.Open (d : Lights) (frames : List (List Bool)) (frame : List Bool) (s : Wire) :
    Prop where
  place : ∃ bits, Place s.sm s.chain bits ∧
    s.chain.bits ++ bits ++ s.sm.pending ws2812Config = frame
  frames : s.chain.frames = frames
  /-- The line is high again before the reset time, or has been low since the frame before. -/
  calm : s.chain.low + rise s.sm < (ws2812Timing d).reset ∨ s.chain.Silent (ws2812Timing d)

/-- The bits of a frame are not lost while no frame ends. -/
theorem Wire.Open.cycle (h : s.Open d frames frame)
    (hframes : (s.next d none).chain.frames = frames) :
    ∃ bits, Place (s.next d none).sm (s.next d none).chain bits ∧
      (s.next d none).chain.bits ++ bits ++ (s.next d none).sm.pending ws2812Config = frame := by
  obtain ⟨bits, hplace, hframe⟩ := h.place
  obtain ⟨bits', hplace', hsame⟩ := hplace.cycle d (.of_cycle hplace.pc_lt)
  refine ⟨bits', hplace', ?_⟩
  have hreceived : (s.next d none).chain.received ++ bits' ++
      (s.next d none).sm.pending ws2812Config = s.chain.received ++ bits ++
        s.sm.pending ws2812Config := hsame
  rw [Receiver.received, Receiver.received, hframes, h.frames, List.append_assoc, List.append_assoc,
    List.append_assoc, List.append_assoc] at hreceived
  rw [← hframe, List.append_assoc, List.append_assoc]
  exact List.append_cancel_left hreceived

/-- **While something is to be sent** the frame stays open. -/
theorem Wire.Open.quiet (h : s.Open d frames frame) (hleft : 0 < cyclesLeft s.sm) :
    (s.next d none).Open d frames frame ∧ cyclesLeft (s.next d none).sm = cyclesLeft s.sm - 1 ∧
      (cyclesLeft s.sm = 1 → (s.next d none).chain.low = 0) := by
  obtain ⟨bits, hplace, _⟩ := h.place
  have hcycle := WsCycle.of_cycle hplace.pc_lt
  have hready := WsCycle.ready hplace.pc_lt
  obtain ⟨hleft', _, hlast⟩ := hplace.cyclesLeft_cycle hcycle hready
  have hrise := hplace.rise_cycle d hcycle hready hleft
  have hreset : (ws2812Timing d).reset = 2240 := rfl
  have hcalm := h.calm
  have hkeeps : (s.next d none).chain.frames = frames ∧
      ((s.next d none).chain.low + rise (s.next d none).sm < (ws2812Timing d).reset ∨
        (s.next d none).chain.Silent (ws2812Timing d)) := by
    change (s.chain.sample (ws2812Timing d) _).frames = frames ∧
      ((s.chain.sample (ws2812Timing d) _).low + rise (s.sm.cycle ws2812Program ws2812Config) < _ ∨
        (s.chain.sample (ws2812Timing d) _).Silent _)
    cases hpin : (s.sm.cycle ws2812Program ws2812Config).pin with
    | true =>
      refine ⟨(Receiver.sample_frames (Or.inl rfl)).trans h.frames, Or.inl ?_⟩
      rw [rise_high hpin, hreset]
      exact Nat.zero_lt_succ _
    | false =>
      rw [hpin, Receiver.sample_low_low] at hrise
      rw [Receiver.sample_low_low]
      rcases hcalm with hsoon | hsilent
      · exact ⟨(Receiver.sample_frames (Or.inr (by omega))).trans h.frames, Or.inl (by omega)⟩
      · have hlow := hsilent.1
        exact ⟨(Receiver.sample_frames (Or.inr (by omega))).trans h.frames,
          Or.inr hsilent.sample_low⟩
  refine ⟨⟨h.cycle hkeeps.1, hkeeps.1, hkeeps.2⟩, hleft', fun hone => ?_⟩
  change (s.chain.sample (ws2812Timing d) _).low = 0
  rw [hlast hone]
  rfl

/-- The line once nothing is to be sent: it has been low for `n` cycles since, and the frame ends
with the reset time. -/
structure Wire.Over (d : Lights) (frames : List (List Bool)) (frame : List Bool) (n : ℕ)
    (s : Wire) : Prop where
  place : ∃ bits, Place s.sm s.chain bits ∧ s.chain.bits ++ bits =
    if n < (ws2812Timing d).reset then frame else []
  spent : cyclesLeft s.sm = 0
  low : s.chain.low = n
  frames : s.chain.frames = if n < (ws2812Timing d).reset then frames else frames ++ [frame]

theorem Wire.Open.over (h : s.Open d frames frame) (hleft : cyclesLeft s.sm = 0)
    (hlow : s.chain.low < (ws2812Timing d).reset) : s.Over d frames frame s.chain.low := by
  obtain ⟨bits, hplace, hframe⟩ := h.place
  rw [pending_of_left hplace hleft, List.append_nil] at hframe
  refine ⟨⟨bits, hplace, ?_⟩, hleft, rfl, ?_⟩
  · rw [if_pos hlow, hframe]
  · rw [if_pos hlow, h.frames]

theorem Wire.Over.quiet {n : ℕ} (h : s.Over d frames frame n) :
    (s.next d none).Over d frames frame (n + 1) := by
  obtain ⟨bits, hplace, hbits⟩ := h.place
  have hcycle := WsCycle.of_cycle hplace.pc_lt
  obtain ⟨hleft, hover, _⟩ := hplace.cyclesLeft_cycle hcycle (WsCycle.ready hplace.pc_lt)
  obtain ⟨bits', hplace', hsame⟩ := hplace.cycle d hcycle
  have hpin := hover h.spent
  have hleft' : cyclesLeft (s.next d none).sm = 0 := hleft.trans (by rw [h.spent])
  obtain rfl := hplace'.eq_nil hleft' hpin
  have hfall : s.chain.fall (ws2812Timing d) = s.chain.bits ++ bits := by
    rw [hpin, Receiver.sample_low_received, pending_of_left hplace' hleft',
      pending_of_left hplace h.spent, Receiver.received] at hsame
    simpa using hsame
  have hchain : (s.next d none).chain = if n + 1 = (ws2812Timing d).reset then
      ⟨0, n + 1, [], s.chain.frames ++ [s.chain.bits ++ bits]⟩
      else ⟨0, n + 1, s.chain.bits ++ bits, s.chain.frames⟩ := by
    change s.chain.sample (ws2812Timing d) _ = _
    rw [hpin, Receiver.sample_low, hfall, h.low]
  rw [hbits, h.frames] at hchain
  by_cases hend : n + 1 = (ws2812Timing d).reset
  · rw [if_pos hend, if_pos (by omega), if_pos (by omega)] at hchain
    refine ⟨⟨[], hplace', ?_⟩, hleft', ?_, ?_⟩
    · rw [hchain, if_neg (by omega)]
      rfl
    · rw [hchain]
    · rw [hchain, if_neg (by omega)]
  · have hsame : n < (ws2812Timing d).reset ↔ n + 1 < (ws2812Timing d).reset := by omega
    rw [if_neg hend] at hchain
    refine ⟨⟨[], hplace', ?_⟩, hleft', ?_, ?_⟩
    · rw [hchain, List.append_nil]
      exact if_congr hsame rfl rfl
    · rw [hchain]
    · rw [hchain]
      exact if_congr hsame rfl rfl

theorem Wire.Over.run {n k : ℕ} (h : s.Over d frames frame n)
    (r : Run (WireStep d) s (List.replicate k none) t) : t.Over d frames frame (n + k) := by
  induction k generalizing s n with
  | zero =>
    cases r
    exact h
  | succ k ih =>
    rw [List.replicate_succ] at r
    cases r with
    | cons hstep r =>
      obtain ⟨_, rfl⟩ := hstep
      rw [Nat.add_comm k, ← Nat.add_assoc]
      exact ih h.quiet r

/-- **When a frame ends** to which nothing more is written: the reset time after its last pulse,
and then the line has been low for the rest of the time. -/
theorem wire_pause {n : ℕ} (h : s.Open d frames frame) (hleft : 0 < cyclesLeft s.sm)
    (r : Run (WireStep d) s (List.replicate n none) t) :
    if n < cyclesLeft s.sm then t.Open d frames frame ∧ cyclesLeft t.sm = cyclesLeft s.sm - n
    else t.Over d frames frame (n - cyclesLeft s.sm) := by
  induction n generalizing s with
  | zero =>
    cases r
    rw [if_pos hleft]
    exact ⟨h, rfl⟩
  | succ n ih =>
    rw [List.replicate_succ] at r
    cases r with
    | cons hstep r =>
      obtain ⟨_, rfl⟩ := hstep
      obtain ⟨hopen, hless, hlast⟩ := h.quiet hleft
      rcases Nat.eq_or_lt_of_le (Nat.succ_le_of_lt hleft) with hone | hmore
      · have hlow := hlast hone.symm
        have hover := (hopen.over (by omega) (by rw [hlow]; exact Nat.zero_lt_succ _)).run r
        rw [if_neg (by omega)]
        rw [hlow, Nat.zero_add] at hover
        have hn : n + 1 - cyclesLeft s.sm = n := by omega
        rwa [hn]
      · have hrest := ih hopen (by omega) r
        rw [hless] at hrest
        split
        · rw [if_pos (by omega)] at hrest
          exact ⟨hrest.1, by omega⟩
        · rw [if_neg (by omega)] at hrest
          have hn : n + 1 - cyclesLeft s.sm = n - (cyclesLeft s.sm - 1) := by omega
          rw [hn]
          exact hrest

/-! ### Frames one after the other -/

/-- The processor is in time with the next word: the line has not been low for almost the reset
time. Before the first word it has been low for longer. -/
def Wire.InTime (d : Lights) (s : Wire) : Prop :=
  s.chain.low + 12 < (ws2812Timing d).reset ∨ (ws2812Timing d).reset ≤ s.chain.low

/-- **A cycle in time** keeps the frame open, with the word that is written at its end. -/
theorem Wire.Open.step {put : Option Word} (h : s.Open d frames frame) (htime : s.InTime d)
    (hstep : WireStep d s put t) : t.Open d frames (frame ++ frameBits put.toList) := by
  obtain ⟨bits, hplace, _⟩ := h.place
  obtain ⟨_, rfl⟩ := hstep
  have hreset : (ws2812Timing d).reset = 2240 := rfl
  have hframes : (s.next d none).chain.frames = frames := by
    refine (Receiver.sample_frames (Or.inr ?_)).trans h.frames
    rcases htime with hsoon | hlong <;> omega
  obtain ⟨bits', hplace', hframe'⟩ := h.cycle hframes
  have hcalm : ∀ m : Machine, Place m (s.next d none).chain bits' → m.pin = (s.next d none).sm.pin →
      (s.next d none).chain.low + rise m < (ws2812Timing d).reset ∨
        (s.next d none).chain.Silent (ws2812Timing d) := by
    intro m hm hpin
    have hrise := rise_le hm
    change (s.chain.sample (ws2812Timing d) _).low + rise m < _ ∨
      (s.chain.sample (ws2812Timing d) _).Silent _
    cases hpin' : (s.sm.cycle ws2812Program ws2812Config).pin with
    | true =>
      rw [rise_high (hpin.trans hpin')]
      exact Or.inl (Nat.zero_lt_succ _)
    | false =>
      rw [Receiver.sample_low_low]
      rcases h.calm with hsoon | hsilent
      · exact Or.inl (by rcases htime with hin | hlong <;> omega)
      · exact Or.inr hsilent.sample_low
  cases put with
  | none =>
    rw [Option.toList_none, frameBits, List.flatMap_nil, List.append_nil]
    exact ⟨⟨bits', hplace', hframe'⟩, hframes, hcalm _ hplace' rfl⟩
  | some w =>
    refine ⟨⟨bits', hplace'.put w, ?_⟩, hframes, hcalm _ (hplace'.put w) rfl⟩
    change (s.next d none).chain.bits ++ bits' ++ ((s.next d none).sm.put w).pending _ = _
    rw [Machine.put_pending, ← List.append_assoc, hframe']
    simp [frameBits]

theorem Wire.Open.run {l : List (Option Word)} (h : s.Open d frames frame)
    (r : Run (Guarded (WireStep d) fun s _ => s.InTime d) s l t) :
    t.Open d frames (frame ++ frameBits (written l)) := by
  induction r generalizing frame with
  | nil _ => simpa [written, frameBits] using h
  | cons hstep _ ih => simpa [written, frameBits] using ih (h.step hstep.2 hstep.1)

/-- Frames, each written in time, and a pause after each that ends it. -/
inductive Wire.Pushes (d : Lights) : Wire → List (List Word) → Wire → Prop
  | nil (s : Wire) : Pushes d s [] s
  | cons {s t u v : Wire} {l : List (Option Word)} {n : ℕ} {rest : List (List Word)}
      (write : Run (Guarded (WireStep d) fun s _ => s.InTime d) s l t) (some_word : written l ≠ [])
      (pause : Run (WireStep d) t (List.replicate n none) u)
      (long : cyclesLeft t.sm + (ws2812Timing d).reset ≤ n) (more : Pushes d u rest v) :
      Pushes d s (written l :: rest) v

/-- Between two frames. -/
structure Wire.Closed (d : Lights) (frames : List (List Bool)) (s : Wire) : Prop where
  frame : s.Open d frames []
  silent : s.chain.Silent (ws2812Timing d)

theorem Wire.start_closed : (Wire.start d).Closed d [] := by
  have hsilent : (Wire.start d).chain.Silent (ws2812Timing d) := ⟨Nat.le_refl _, rfl, rfl⟩
  exact ⟨⟨⟨[], .gap rfl (Nat.zero_le 4) rfl rfl, rfl⟩, rfl, Or.inr hsilent⟩, hsilent⟩

theorem Wire.Over.closed {n : ℕ} (h : s.Over d frames frame n) (hn : (ws2812Timing d).reset ≤ n) :
    s.Closed d (frames ++ [frame]) := by
  have hend : ¬ n < (ws2812Timing d).reset := Nat.not_lt.mpr hn
  obtain ⟨bits, hplace, hbits⟩ := h.place
  rw [if_neg hend, List.append_eq_nil_iff] at hbits
  obtain ⟨hnil, rfl⟩ := hbits
  have hhigh : s.chain.high = 0 := by
    cases hplace with
    | gap _ _ _ hhigh => exact hhigh
  have hsilent : s.chain.Silent (ws2812Timing d) := ⟨h.low ▸ hn, hhigh, hnil⟩
  refine ⟨⟨⟨[], hplace, ?_⟩, ?_, Or.inr hsilent⟩, hsilent⟩
  · rw [hnil, pending_of_left hplace h.spent]
    rfl
  · rw [h.frames, if_neg hend]

/-- Something has been written, so the line is not silent once it is sent. -/
theorem Wire.Open.not_silent (h : s.Open d frames frame) (hframe : frame ≠ [])
    (hleft : cyclesLeft s.sm = 0) : s.chain.low < (ws2812Timing d).reset := by
  rcases h.calm with hsoon | ⟨hlow, hhigh, hnil⟩
  · omega
  · obtain ⟨bits, hplace, hbits⟩ := h.place
    rw [pending_of_left hplace hleft, hnil, List.append_nil, List.nil_append] at hbits
    have hreset : (ws2812Timing d).reset = 2240 := rfl
    cases hplace with
    | gap _ _ _ _ => exact absurd hbits.symm hframe
    | wide _ _ _ _ hzero => omega
    | low bit hpc _ _ _ hx =>
      have hpos := sendTime_pos (List.cons_ne_nil bit (s.sm.pending ws2812Config))
      rw [cyclesLeft_low hpc hx] at hleft
      omega
    | high _ _ _ _ _ hzero => omega

/-- A pause that is long enough ends the frame. -/
theorem Wire.Open.close {n : ℕ} (h : s.Open d frames frame) (hframe : frame ≠ [])
    (hn : cyclesLeft s.sm + (ws2812Timing d).reset ≤ n)
    (r : Run (WireStep d) s (List.replicate n none) t) : t.Closed d (frames ++ [frame]) := by
  rcases Nat.eq_zero_or_pos (cyclesLeft s.sm) with hzero | hpos
  · have hover := (h.over hzero (h.not_silent hframe hzero)).run r
    exact hover.closed (by omega)
  · have hover := wire_pause h hpos r
    rw [if_neg (by omega)] at hover
    exact hover.closed (by omega)

theorem frameBits_ne_nil {words : List Word} (h : words ≠ []) : frameBits words ≠ [] := by
  intro hnil
  obtain ⟨w, rest, rfl⟩ := List.exists_cons_of_ne_nil h
  have hlength := congrArg List.length hnil
  rw [frameBits, List.flatMap_cons, List.length_append, Config.wordBits_length] at hlength
  exact absurd hlength (by simp [ws2812Config])

theorem Wire.Closed.pushes {ws : List (List Word)} (h : s.Closed d frames) (r : s.Pushes d ws t) :
    t.Closed d (frames ++ ws.map frameBits) := by
  induction r generalizing frames with
  | nil _ => simpa using h
  | cons write some_word pause long _ ih =>
    have hopen := h.frame.run write
    rw [List.nil_append] at hopen
    have hclosed := hopen.close (frameBits_ne_nil some_word) long pause
    simpa using ih hclosed

theorem Wire.fifo_pushes {ws : List (List Word)} (h : s.sm.fifo.length ≤ ws2812Config.depth)
    (r : s.Pushes d ws t) : t.sm.fifo.length ≤ ws2812Config.depth := by
  induction r with
  | nil _ => exact h
  | cons write _ pause _ _ ih =>
    exact ih (Wire.fifo_run (Wire.fifo_run h (write.mono fun _ _ _ hstep => hstep.1)) pause)

/-- Between two frames the machine holds nothing. -/
theorem Wire.Closed.fifo (h : s.Closed d frames) : s.sm.fifo = [] := by
  obtain ⟨bits, _, hframe⟩ := h.frame.place
  have hlength := Machine.pending_length (c := ws2812Config) (s := s.sm)
  have hthreshold : ws2812Config.threshold = 24 := rfl
  rw [(List.append_eq_nil_iff.mp hframe).2, List.length_nil, hthreshold] at hlength
  exact List.eq_nil_of_length_eq_zero (by omega)

/-- A frame of one word can be written then. -/
theorem Wire.Closed.write (h : s.Closed d frames) (w : Word) :
    Run (Guarded (WireStep d) fun s _ => s.InTime d) s [some w] (s.next d (some w)) := by
  refine .single ⟨⟨fun _ => ?_, rfl⟩, Or.inr h.silent.1⟩
  rw [h.fifo]
  decide

theorem Wire.Closed.exists_push (h : s.Closed d frames) (w : Word) :
    ∃ t, s.Pushes d [[w]] t := by
  obtain ⟨t, pause⟩ := Wire.exists_pause d (s.next d (some w))
    (cyclesLeft (s.next d (some w)).sm + (ws2812Timing d).reset)
  exact ⟨t, .cons (h.write w) (List.cons_ne_nil w []) pause (Nat.le_refl _) (.nil t)⟩

/-- **What a pause after a word is worth.** After `n` cycles without a word the frame has ended if,
and only if, the machine's own cycles are over and the reset time with them. So the pause of 300
microseconds before a frame never ends the frame before, and one of 552 always does. -/
theorem ws2812_pause {ws : List (List Word)} {l : List (Option Word)} {w : Word} {u v : Wire}
    {n : ℕ} (pushes : (Wire.start d).Pushes d ws s)
    (write : Run (Guarded (WireStep d) fun s _ => s.InTime d) s (l ++ [some w]) u)
    (pause : Run (WireStep d) u (List.replicate n none) v) :
    v.chain.frames = ws.map frameBits ++
        (if n < cyclesLeft u.sm + (ws2812Timing d).reset then []
          else [frameBits (written l ++ [w])]) ∧
      300 * 8 < cyclesLeft u.sm + (ws2812Timing d).reset ∧
      cyclesLeft u.sm + (ws2812Timing d).reset ≤ 552 * 8 := by
  have hreset : (ws2812Timing d).reset = 2240 := rfl
  have hdepth : ws2812Config.depth = 8 := rfl
  have hthreshold : ws2812Config.threshold = 24 := rfl
  have hopen := (Wire.start_closed.pushes pushes).frame.run write
  have hwritten : written (l ++ [some w]) = written l ++ [w] := by simp [written]
  rw [List.nil_append, List.nil_append, hwritten] at hopen
  have hfifo := Wire.fifo_run (Wire.fifo_pushes (Nat.zero_le _) pushes)
    (write.mono fun _ _ _ hstep => hstep.1)
  -- The last word is still in the machine.
  have hword : 24 ≤ (u.sm.pending ws2812Config).length := by
    obtain ⟨t, _, hlast⟩ := write.split
    cases hlast with
    | cons hstep hnil =>
      cases hnil
      obtain ⟨⟨_, rfl⟩, _⟩ := hstep
      change 24 ≤ (Machine.pending _ (Machine.put _ w)).length
      rw [Machine.put_pending, List.length_append, Config.wordBits_length]
      omega
  have hlength := Machine.pending_length (c := ws2812Config) (s := u.sm)
  obtain ⟨bits, hplace, _⟩ := hopen.place
  obtain ⟨hlower, hupper⟩ := cyclesLeft_bounds hplace (by
    intro hnil
    rw [hnil] at hword
    simp at hword)
  have hpause := wire_pause hopen (by omega) pause
  rw [hthreshold] at hlength
  refine ⟨?_, by omega, by omega⟩
  split
  · rename_i hshort
    split at hpause
    · rw [hpause.1.frames, List.append_nil]
    · rw [hpause.frames, if_pos (by omega), List.append_nil]
  · rename_i hlong
    rw [if_neg (by omega)] at hpause
    rw [hpause.frames, if_neg (by omega)]

/-- A ring of one light has a frame, then another: the first is latched in the pause before the
second, the second in the pause after it. -/
theorem ws2812_pause_word : ∃ s u n v, (Wire.start .half).Pushes .half [[0xFF000000]] s ∧
    Run (WireStep .half) s [some 0x00FF0000] u ∧
    Run (WireStep .half) u (List.replicate n none) v ∧
    v.chain.frames = [frameBits [0xFF000000], frameBits [0x00FF0000]] := by
  obtain ⟨s, pushes⟩ := Wire.start_closed.exists_push (d := .half) 0xFF000000
  have hclosed := Wire.start_closed.pushes pushes
  have write := hclosed.write 0x00FF0000
  obtain ⟨v, pause⟩ := Wire.exists_pause .half (s.next .half (some 0x00FF0000))
    (cyclesLeft (s.next .half (some 0x00FF0000)).sm + (ws2812Timing .half).reset)
  obtain ⟨hframes, _⟩ := ws2812_pause (l := []) pushes write pause
  rw [if_neg (Nat.lt_irrefl _)] at hframes
  exact ⟨s, _, _, v, pushes, .single ⟨fun _ => by rw [hclosed.fifo]; decide, rfl⟩, pause, hframes⟩

end Frames

end EthPanel
