import EthPanel.Driver.PanelProtocol
import EthPanel.Lib.Run
import Mathlib.Algebra.Order.Ring.Rat
import Mathlib.Tactic.Linarith
import Mathlib.Tactic.NormNum

/-!
# `panel_node.py`: keepalive and liveness

The reader's loop keeps three times of a connection and compares them with the clock once in every
iteration. `LoopTimes` is what the code has; `Conn` adds the link: whether a ping has reached the
device since it was last heard, and how many pings of the present silence were lost. Times are
exact numbers.

The constructor warns that a single lost ping forces a reconnect when the timeout is below two
keepalive periods. At two periods exactly there is no warning, and a single lost ping still does:
the second ping falls due in the iteration in which the timeout does, and the timeout is looked at
first. `lossTolerated_iff` says that above that the promise holds.
-/

namespace EthPanel

open Lts

variable {α : Type*} [CommRing α] [LinearOrder α]

/-- The constructor's `self.liveness_timeout < 2 * self.keepalive_period`. -/
def WarnsLiveness (keepalive liveness : α) : Prop := liveness < 2 * keepalive

/-- The local variables of `_reader_loop` for one connection, and `_hello_seen`. -/
structure LoopTimes (α : Type*) where
  tConn : α
  lastRx : α
  lastPing : α
  helloSeen : Bool
  helloRequested : Bool

namespace LoopTimes

def connect (t : α) : LoopTimes α := ⟨t, t, 0, false, false⟩

/-- Data came at the time `t`, with a hello line in it or not. -/
def recv (s : LoopTimes α) (t : α) (hello : Bool) : LoopTimes α :=
  { s with lastRx := t, helloSeen := s.helloSeen || hello }

def pingDue (keepalive now : α) (s : LoopTimes α) : Bool :=
  now - s.lastRx ≥ keepalive && now - s.lastPing ≥ keepalive

def helloDue (now : α) (s : LoopTimes α) : Bool :=
  !s.helloSeen && !s.helloRequested && now - s.tConn ≥ 1

/-- The checks of an iteration after its `recv`, and what they send; `none` is the
`ConnectionError`. -/
def check (keepalive liveness now : α) (s : LoopTimes α) : Option (LoopTimes α × List Line) :=
  if now - s.lastRx ≥ liveness then none
  else some
    ({ s with
        lastPing := if s.pingDue keepalive now then now else s.lastPing
        helloRequested := s.helloRequested || s.helloDue now },
      (if s.pingDue keepalive now then [fmtPingCmd] else []) ++
        if s.helloDue now then [fmtHelloCmd] else [])

end LoopTimes

/-! ## The link -/

/-- A connection to a device that answers every ping that reaches it. -/
structure Conn (α : Type*) where
  times : LoopTimes α
  /-- The last time that was read off the clock. -/
  clock : α
  /-- A ping has reached the device since the last data came. -/
  owed : Bool
  /-- The pings lost since the last data came. -/
  lost : ℕ

/-- One iteration of the loop. -/
structure Turn (α : Type*) where
  /-- When data came, if any did, and whether a hello was in it. -/
  rx : Option (α × Bool)
  now : α
  /-- A ping sent in this iteration does not reach the device. -/
  lost : Bool

namespace Conn

def connect (t : α) : Conn α := ⟨.connect t, t, false, 0⟩

def recv (c : Conn α) : Option (α × Bool) → Conn α
  | none => c
  | some (t, hello) => ⟨c.times.recv t hello, t, false, 0⟩

def check (keepalive liveness : α) (c : Conn α) (now : α) (lost : Bool) : Option (Conn α) :=
  (c.times.check keepalive liveness now).map fun (times, sent) =>
    { times
      clock := now
      owed := c.owed || sent.contains fmtPingCmd && !lost
      lost := if sent.contains fmtPingCmd && lost then c.lost + 1 else c.lost }

end Conn

/-- An iteration on this link: the clock does not go back, and a ping that reached the device has
been answered. -/
def ConnStep (keepalive liveness : α) (c : Conn α) (i : Turn α) (c' : Conn α) : Prop :=
  (∀ r ∈ i.rx, c.clock ≤ r.1) ∧ (c.owed = true → i.rx.isSome = true) ∧
    (c.recv i.rx).clock ≤ i.now ∧
      (c.recv i.rx).check keepalive liveness i.now i.lost = some c'

/-- What some schedule of iterations leads to. -/
def Reached (keepalive liveness : α) (c : Conn α) : Prop :=
  ∃ t turns, 0 ≤ t ∧ Run (ConnStep keepalive liveness) (.connect t) turns c

/-- A silence begins with the connection or when data has come. -/
def SilenceStart (keepalive liveness : α) (c : Conn α) : Prop :=
  (∃ t, 0 ≤ t ∧ c = .connect t) ∨
    ∃ c₀ r, Reached keepalive liveness c₀ ∧ c₀.clock ≤ r.1 ∧ c = c₀.recv (some r)

/-- The next iteration of a silence can be at the time `now`: no ping waits for its answer, and no
multiple of the keepalive period after the last data is passed over. -/
structure Conn.Next (keepalive : α) (c : Conn α) (now : α) : Prop where
  clock : c.clock ≤ now
  unowed : c.owed = false
  multiples : ∀ j : ℕ, 0 < j → c.times.lastRx + j * keepalive < now →
    c.times.lastRx + j * keepalive ≤ c.clock

/-- An iteration without data: its time, and what becomes of a ping sent in it. -/
def QuietStep (keepalive liveness : α) (c : Conn α) (i : α × Bool) (c' : Conn α) : Prop :=
  c.Next keepalive i.1 ∧ c.check keepalive liveness i.1 i.2 = some c'

/-- In a silence in which one ping is lost, no iteration raises the `ConnectionError`. -/
def LossTolerated (keepalive liveness : α) : Prop :=
  ∀ start is c now, SilenceStart keepalive liveness start →
    Run (QuietStep keepalive liveness) start is c → c.lost = 1 → c.Next keepalive now →
      (c.times.check keepalive liveness now).isSome = true

/-! ## What an iteration does -/

section Check

variable {keepalive liveness : α} {c c' : Conn α} {now : α} {lost : Bool}

theorem contains_ping (p q : Bool) :
    ((if p then [fmtPingCmd] else []) ++ if q then [fmtHelloCmd] else []).contains fmtPingCmd
      = p := by
  have hne : [fmtHelloCmd].contains fmtPingCmd = false := by decide +kernel
  cases p with
  | true => simp
  | false => cases q <;> simp_all

/-- The checks of an iteration that does not raise. -/
theorem Conn.check_some (h : c.check keepalive liveness now lost = some c') :
    c'.clock = now ∧ c'.times.lastRx = c.times.lastRx ∧
    c'.times.lastPing = (if c.times.pingDue keepalive now then now else c.times.lastPing) ∧
    c'.owed = (c.owed || c.times.pingDue keepalive now && !lost) ∧
    c'.lost = if c.times.pingDue keepalive now && lost then c.lost + 1 else c.lost := by
  unfold Conn.check LoopTimes.check at h
  split at h
  · cases h
  · rw [Option.map_some] at h
    obtain rfl := Option.some.inj h
    refine ⟨rfl, rfl, rfl, ?_, ?_⟩
    · simp only [contains_ping]
    · simp only [contains_ping]

theorem LoopTimes.check_isSome {s : LoopTimes α} :
    (s.check keepalive liveness now).isSome = true ↔ now - s.lastRx < liveness := by
  unfold LoopTimes.check
  split
  · rename_i h
    simp only [Option.isSome_none, Bool.false_eq_true, false_iff]
    exact not_lt.mpr h
  · rename_i h
    simp only [Option.isSome_some, true_iff]
    exact not_le.mp h

end Check

variable {keepalive liveness : α}

/-! ## Where a silence can be -/

/-- No ping has been sent later than now. -/
theorem Reached.lastPing_le {c : Conn α} (h : Reached keepalive liveness c) :
    c.times.lastPing ≤ c.clock := by
  obtain ⟨t, turns, ht, hrun⟩ := h
  refine hrun.invariant (I := fun c => c.times.lastPing ≤ c.clock) ?_ ht
  intro c i c' hc hstep
  obtain ⟨hrx, _, hclock, hcheck⟩ := hstep
  obtain ⟨hnow, _, hping, _, _⟩ := Conn.check_some hcheck
  have hrecv : (c.recv i.rx).times.lastPing ≤ (c.recv i.rx).clock := by
    cases hi : i.rx with
    | none => exact hc
    | some r => exact hc.trans (hrx r hi)
  rw [hnow, hping]
  split
  · exact le_rfl
  · exact hrecv.trans hclock

theorem SilenceStart.fresh {c : Conn α} (h : SilenceStart keepalive liveness c) :
    c.clock = c.times.lastRx ∧ c.times.lastPing ≤ c.times.lastRx ∧ c.lost = 0 := by
  rcases h with ⟨t, ht, rfl⟩ | ⟨c₀, r, hreached, hclock, rfl⟩
  · exact ⟨rfl, ht, rfl⟩
  · exact ⟨rfl, hreached.lastPing_le.trans hclock, rfl⟩

/-- **The course of a silence**: the first ping goes out one keepalive period after the last data
and the second after two, unless the first is answered. -/
inductive SilencePhase (keepalive : α) (c : Conn α) : Prop
  | early (hi : c.clock < c.times.lastRx + keepalive) (hping : c.times.lastPing ≤ c.times.lastRx)
      (hlost : c.lost = 0)
  | once (hi : c.clock < c.times.lastRx + 2 * keepalive)
      (hping : c.times.lastPing = c.times.lastRx + keepalive)
      (hfate : 1 ≤ c.lost ∨ c.owed = true)
  | twice (hfate : 2 ≤ c.lost ∨ c.owed = true)

theorem pingDue_iff {s : LoopTimes α} {now : α} : s.pingDue keepalive now = true ↔
    keepalive ≤ now - s.lastRx ∧ keepalive ≤ now - s.lastPing := by
  simp [LoopTimes.pingDue]

/-- The iteration at the first multiple, and at the second. -/
theorem Conn.Next.first {c : Conn α} {now : α} (h : c.Next keepalive now)
    (hi : c.clock < c.times.lastRx + keepalive) : now ≤ c.times.lastRx + keepalive := by
  by_contra hlt
  have hpassed := h.multiples 1 Nat.one_pos
  rw [Nat.cast_one, one_mul] at hpassed
  exact absurd (hpassed (not_le.mp hlt)) (not_le.mpr hi)

theorem Conn.Next.second {c : Conn α} {now : α} (h : c.Next keepalive now)
    (hi : c.clock < c.times.lastRx + 2 * keepalive) : now ≤ c.times.lastRx + 2 * keepalive := by
  by_contra hlt
  have hpassed := h.multiples 2 Nat.two_pos
  rw [Nat.cast_ofNat] at hpassed
  exact absurd (hpassed (not_le.mp hlt)) (not_le.mpr hi)

section Ordered

variable [IsStrictOrderedRing α]

theorem SilencePhase.step (hK : 0 < keepalive) {c c' : Conn α} {i : α × Bool}
    (h : SilencePhase keepalive c) (hstep : QuietStep keepalive liveness c i c') :
    SilencePhase keepalive c' := by
  obtain ⟨now, lost⟩ := i
  obtain ⟨hnext, hcheck⟩ := hstep
  obtain ⟨hclock, hrx, hping, howed, hlost⟩ := Conn.check_some hcheck
  have hunowed := hnext.unowed
  cases h with
  | early hi hp hl =>
    by_cases hdue : now < c.times.lastRx + keepalive
    · have hno : c.times.pingDue keepalive now = false := by
        rw [← Bool.not_eq_true, pingDue_iff]
        rintro ⟨h, _⟩
        linarith
      refine .early (by rw [hclock, hrx]; exact hdue) ?_ ?_
      · rw [hping, hno, hrx]
        exact hp
      · rw [hlost, hno]
        exact hl
    · -- The iteration is at the first multiple, and a ping goes out.
      have hnow : now = c.times.lastRx + keepalive := le_antisymm (hnext.first hi) (not_lt.mp hdue)
      have hyes : c.times.pingDue keepalive now = true := by
        rw [pingDue_iff]
        exact ⟨by linarith, by linarith⟩
      refine .once (by rw [hclock, hrx]; linarith) ?_ ?_
      · rw [hping, hyes, hrx, if_pos rfl, hnow]
      · rw [howed, hlost, hyes, hunowed]
        cases lost <;> simp
  | once hi hp hfate =>
    have hone : 1 ≤ c.lost := hfate.resolve_right (by rw [hunowed]; exact Bool.false_ne_true)
    by_cases hdue : now < c.times.lastRx + 2 * keepalive
    · have hno : c.times.pingDue keepalive now = false := by
        rw [← Bool.not_eq_true, pingDue_iff, hp]
        rintro ⟨_, h⟩
        linarith
      refine .once (by rw [hclock, hrx]; exact hdue) ?_ (Or.inl ?_)
      · rw [hping, hno, hrx]
        exact hp
      · rw [hlost, hno]
        exact hone
    · have hnow : now = c.times.lastRx + 2 * keepalive :=
        le_antisymm (hnext.second hi) (not_lt.mp hdue)
      have hyes : c.times.pingDue keepalive now = true := by
        rw [pingDue_iff, hp]
        exact ⟨by linarith, by linarith⟩
      refine .twice ?_
      rw [howed, hlost, hyes, hunowed]
      cases lost with
      | true => exact Or.inl (Nat.succ_le_succ hone)
      | false => exact Or.inr rfl
  | twice hfate =>
    have htwo : 2 ≤ c.lost := hfate.resolve_right (by rw [hunowed]; exact Bool.false_ne_true)
    refine .twice (Or.inl ?_)
    rw [hlost]
    split
    · exact Nat.le_succ_of_le htwo
    · exact htwo

theorem silencePhase (hK : 0 < keepalive) {start c : Conn α} {is : List (α × Bool)}
    (hstart : SilenceStart keepalive liveness start)
    (hrun : Run (QuietStep keepalive liveness) start is c) : SilencePhase keepalive c := by
  obtain ⟨hclock, hping, hlost⟩ := hstart.fresh
  refine hrun.invariant (fun _ _ _ hc hstep => hc.step hK hstep) (.early ?_ hping hlost)
  rw [hclock]
  exact lt_add_of_pos_right _ hK

/-! ## The law -/

/-- Above two keepalive periods: when the timeout falls due, a second ping is lost or answered. -/
theorem lossTolerated_of_lt (hK : 0 < keepalive) (hT : 2 * keepalive < liveness) :
    LossTolerated keepalive liveness := by
  intro start is c now hstart hrun hlost hnext
  rw [LoopTimes.check_isSome]
  have hunowed := hnext.unowed
  cases silencePhase hK hstart hrun with
  | early hi hping hnone =>
    rw [hnone] at hlost
    cases hlost
  | once hi hping hfate =>
    have hnow := hnext.second hi
    linarith
  | twice hfate =>
    rcases hfate with htwo | howed
    · omega
    · rw [hunowed] at howed
      cases howed

end Ordered

/-- A connection whose first data is a hello, at the time zero. -/
def afterHello : Conn α := (Conn.connect 0).recv (some (0, true))

/-- … and its first silence, when a ping sent at `t` was lost. -/
def pingLostAt (t : α) : Conn α := ⟨⟨0, 0, t, true, false⟩, t, false, 1⟩

theorem afterHello_check (hK : 0 < keepalive) (hT : 0 < liveness) :
    (afterHello : Conn α).check keepalive liveness 0 false = some afterHello := by
  have hnot : ¬ (0 : α) - 0 ≥ liveness := by rw [sub_zero]; exact not_le.mpr hT
  have hdue : LoopTimes.pingDue keepalive 0 (⟨0, 0, 0, true, false⟩ : LoopTimes α) = false := by
    rw [← Bool.not_eq_true, pingDue_iff, sub_zero]
    exact fun h => not_le.mpr hK h.1
  simp only [afterHello, Conn.connect, Conn.recv, Conn.check, LoopTimes.connect, LoopTimes.recv,
    LoopTimes.check, LoopTimes.helloDue, Bool.false_or, if_neg hnot, hdue, Option.map_some]
  simp

theorem afterHello_ping (hT : keepalive < liveness) :
    (afterHello : Conn α).check keepalive liveness keepalive true =
      some (pingLostAt keepalive) := by
  have hnot : ¬ keepalive - 0 ≥ liveness := by rw [sub_zero]; exact not_le.mpr hT
  have hdue : LoopTimes.pingDue keepalive keepalive (⟨0, 0, 0, true, false⟩ : LoopTimes α) = true :=
    pingDue_iff.mpr ⟨by rw [sub_zero], by rw [sub_zero]⟩
  simp only [afterHello, Conn.connect, Conn.recv, Conn.check, LoopTimes.connect, LoopTimes.recv,
    LoopTimes.check, LoopTimes.helloDue, Bool.false_or, if_neg hnot, hdue, if_true, Option.map_some]
  simp [pingLostAt]

section Ordered

variable [IsStrictOrderedRing α]

/-- At two keepalive periods exactly, the timeout comes before the second ping. -/
theorem not_lossTolerated_two (hK : 0 < keepalive) :
    ¬ LossTolerated keepalive (2 * keepalive) := by
  intro h
  have hT : keepalive < 2 * keepalive := by linarith
  have hfresh : SilenceStart keepalive (2 * keepalive) (afterHello : Conn α) :=
    Or.inr ⟨.connect 0, (0, true), ⟨0, [], le_rfl, .nil _⟩, le_rfl, rfl⟩
  -- No multiple lies before the first.
  have hmultiple : ∀ j : ℕ, 0 < j → keepalive ≤ j * keepalive := by
    intro j hj
    have hone : (1 : α) ≤ j := by exact_mod_cast hj
    calc keepalive = 1 * keepalive := (one_mul _).symm
      _ ≤ j * keepalive := mul_le_mul_of_nonneg_right hone hK.le
  have hzero : (afterHello : Conn α).Next keepalive 0 := by
    refine ⟨le_rfl, rfl, fun j hj hlt => ?_⟩
    have hlow : (0 : α) + j * keepalive < 0 := hlt
    have := hmultiple j hj
    linarith
  have hfirst : (afterHello : Conn α).Next keepalive keepalive := by
    refine ⟨hK.le, rfl, fun j hj hlt => ?_⟩
    have hlow : (0 : α) + j * keepalive < keepalive := hlt
    have := hmultiple j hj
    linarith
  have hsecond : (pingLostAt keepalive).Next keepalive (2 * keepalive) := by
    refine ⟨hT.le, rfl, fun j hj hlt => ?_⟩
    have hlow : (0 : α) + j * keepalive < 2 * keepalive := hlt
    rw [zero_add] at hlow
    have htwo : (j : α) < 2 := lt_of_mul_lt_mul_right hlow hK.le
    obtain rfl : j = 1 := by
      have : j < 2 := by exact_mod_cast htwo
      omega
    show (0 : α) + (1 : ℕ) * keepalive ≤ keepalive
    rw [zero_add, Nat.cast_one, one_mul]
  have hrun : Run (QuietStep keepalive (2 * keepalive)) afterHello
      [(0, false), (keepalive, true)] (pingLostAt keepalive) :=
    .cons ⟨hzero, afterHello_check hK (hK.trans hT)⟩ (.single ⟨hfirst, afterHello_ping hT⟩)
  have hsome := h _ _ _ _ hfresh hrun rfl hsecond
  rw [LoopTimes.check_isSome] at hsome
  have hraise : 2 * keepalive - 0 < 2 * keepalive := hsome
  rw [sub_zero] at hraise
  exact lt_irrefl _ hraise

/-- **Where the node accepts the timing without a warning, it stands one lost ping just above two
keepalive periods**, and not at two. -/
theorem lossTolerated_iff (hK : 0 < keepalive)
    (hwarn : ¬ WarnsLiveness keepalive liveness) :
    LossTolerated keepalive liveness ↔ 2 * keepalive < liveness := by
  constructor
  · intro h
    rcases lt_or_eq_of_le (not_lt.mp hwarn) with hlt | heq
    · exact hlt
    · rw [← heq] at h
      exact absurd h (not_lossTolerated_two hK)
  · exact lossTolerated_of_lt hK

end Ordered

/-- The parameters' defaults. -/
theorem lossTolerated_default : LossTolerated (2 : ℚ) 6 ↔ (2 : ℚ) * 2 < 6 :=
  lossTolerated_iff (by norm_num) (by unfold WarnsLiveness; norm_num)

/-- Two seconds and four: accepted, and one lost ping costs the connection. -/
theorem lossTolerated_two_four :
    ¬ ∀ keepalive liveness : ℚ, 0 < keepalive → 0 < liveness →
      ¬ WarnsLiveness keepalive liveness → LossTolerated keepalive liveness := by
  intro h
  have hfour := h 2 (2 * 2) (by norm_num) (by norm_num) (by unfold WarnsLiveness; norm_num)
  exact not_lossTolerated_two (by norm_num) hfour

end EthPanel
