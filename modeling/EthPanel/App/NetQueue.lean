import EthPanel.App.NetFlush
import EthPanel.Lib.Queue

/-!
# `net/net.c`: the ring is a queue

`NetRx` has the ring as it is, with an interrupt between any two accesses; `SuperLoop` has a queue
of bytes and does all of a call at once. Both are the same bounded queue: whatever an access or an
interrupt does to the ring is something a queue does (`netRx_queue`), and so is what a step of the
super-loop does to its own (`superLoop_queue`). And what the super-loop does the ring can do, by
calls that no interrupt comes into (`superLoop_followed`).
-/

namespace EthPanel

open Lts BoundedQueue

/-- One slot of the ring stays free. -/
def rxCapacity : ℕ := rxRingSize - 1

namespace NetRx

/-- What waits in the ring, and what has become of the bytes that do not any more. -/
def queue (s : NetRx) : Queue (Option RxByte) :=
  ⟨s.unread, rxGone s.log, (rxDropped s.log).map some⟩

section Step

variable {s t : NetRx}

/-- The handler pushes a byte. -/
theorem Took.queue {c : RxByte} (h : s.Took c t) :
    t.queue = s.queue.next rxCapacity (.push (some c)) := by
  cases h with
  | stored hunread hring htail hpc hlog hoverruns harmed hfifo =>
    have hroom := hring.length_unread
    rw [hunread, List.length_append, List.length_singleton] at hroom
    rw [Queue.push_room (show s.unread.length < rxCapacity by unfold rxCapacity; omega),
      NetRx.queue, hlog, hunread]
    rfl
  | dropped hfull =>
    rw [Queue.push_full (show ¬ s.unread.length < rxCapacity by unfold rxCapacity; omega)]
    refine congrArg₂ (Queue.mk s.unread) ?_ ?_
    · exact (rxGone_append _ _).trans (List.append_nil _)
    · exact (congrArg (List.map some) (rxDropped_append _ _)).trans List.map_append

/-- What leaves the ring in a step, and nothing else. -/
theorem queue_of_log {l : List RxLog} (hlog : t.log = s.log ++ l) (hd : rxDropped l = []) :
    t.queue = ⟨t.unread, rxGone s.log ++ rxGone l, (rxDropped s.log).map some⟩ := by
  rw [queue, hlog, rxGone_append, rxDropped_append, hd, List.append_nil]

/-- A step that takes nothing out. -/
theorem queue_of_keeps {l : List RxLog} (hlog : t.log = s.log ++ l) (hg : rxGone l = [])
    (hd : rxDropped l = []) (hunread : t.unread = s.unread) : t.queue = s.queue := by
  rw [queue_of_log hlog hd, hg, hunread, List.append_nil]
  rfl

/-- An access takes a front part, if it does anything; an IRQ that is not armed leaves the ring
out. -/
theorem Accessed.queue (h : s.Accessed t) (hunarmed : s.irqInited = false → s.unread = []) :
    ∃ ops, t.queue = s.queue.run rxCapacity ops := by
  have hcap : 0 < rxCapacity := by decide
  cases h with
  | goto hold hnew hok => exact ⟨[], rfl⟩
  | readStore hpc hring hunread =>
    refine ⟨[.take 1], (queue_of_log rfl rfl).trans ?_⟩
    exact (Queue.take_all rxCapacity (show s.queue.waiting = [_] ++ _ from hunread)).symm
  | flushLoad hpc => exact ⟨[], rfl⟩
  | flushStore hpc hring hunread =>
    have htake := Queue.take_all rxCapacity (q := s.queue) hunread.symm
    refine ⟨[.take _], ((queue_of_log rfl (rxDropped_discarded _)).trans ?_).trans htake.symm⟩
    rw [rxGone_discarded]
    rfl
  | @readFifo max n c fifo hpc hnot hfifo =>
    refine ⟨[.push (some c), .take 1], (queue_of_log rfl rfl).trans ?_⟩
    exact (Queue.push_take (q := s.queue) hcap (hunarmed hnot)).symm
  | @flushFifo c fifo hpc hnot hfifo =>
    refine ⟨[.push (some c), .take 1], (queue_of_log rfl rfl).trans ?_⟩
    exact (Queue.push_take (q := s.queue) hcap (hunarmed hnot)).symm
  | flushFifoDone hpc hnot hfifo => exact ⟨[], queue_of_keeps rfl rfl rfl rfl⟩

theorem Lossless.queue_irq (h : s.Lossless) (harm : s.irqInited = true) :
    ∃ ops, s.netRxIrq.queue = s.queue.run rxCapacity ops := by
  refine (netRxIrq_induction
    (P := fun u => u.Lossless ∧ ∃ ops, u.queue = s.queue.run rxCapacity ops)
    (fun hu => hu.1.inRing) ?_ ⟨h, [], rfl⟩ harm).2
  rintro u ⟨hu, ops, hops⟩ c rest v hfifo harmed htook
  refine ⟨hu.took hfifo harmed htook, ops ++ [.push (some c)], ?_⟩
  rw [htook.queue, Queue.run_append, ← hops]
  rfl

/-- **A step does to the ring what a queue does**, whatever it comes into. -/
theorem Lossless.queue_step {e : NetEvent} (h : s.Lossless) (hs : RxStep s e t) :
    ∃ ops, t.queue = s.queue.run rxCapacity ops := by
  cases hs.did with
  | arrive val => exact ⟨[], queue_of_keeps rfl rfl rfl rfl⟩
  | netRxIrq harm => exact h.queue_irq harm
  | rxIrqEnable hpc =>
    refine ⟨[], ?_⟩
    unfold NetRx.rxIrqEnable
    split
    · rfl
    · rename_i hnot
      have hempty := h.unarmed (by simpa using hnot)
      show Queue.mk _ _ _ = Queue.mk s.unread _ _
      rw [hempty, unread_of_zero rfl rfl]
  | netRead max hpc => exact ⟨[], rfl⟩
  | netRxFlush hpc => exact ⟨[], queue_of_keeps rfl rfl rfl rfl⟩
  | access haccess => exact (access_cases h.inRing h.pcOk haccess).queue h.unarmed
  | accessOther hpc hmore => exact ⟨[], rfl⟩

end Step

end NetRx

/-- **The ring is a bounded queue**, over every run: what has left it, what is in it and what has
been dropped is what a queue makes of it. -/
theorem netRx_queue {l : List NetEvent} {t : NetRx} (r : Run RxStep .boot l t) :
    ∃ ops, t.queue = Queue.empty.run rxCapacity ops := by
  have hstep : ∀ (s : NetRx) (e : NetEvent) (t : NetRx),
      (s.Lossless ∧ ∃ ops, s.queue = Queue.empty.run rxCapacity ops) → RxStep s e t →
        t.Lossless ∧ ∃ ops, t.queue = Queue.empty.run rxCapacity ops := by
    rintro s e t ⟨h, ops, hops⟩ hs
    obtain ⟨ops', hops'⟩ := h.queue_step hs
    refine ⟨h.step hs, ops ++ ops', ?_⟩
    rw [hops', hops, Queue.run_append]
  exact (r.invariant hstep ⟨.boot, [], rfl⟩).2

/-! ## The super-loop's queue -/

/-- What a step does to the ring. -/
def SuperLoop.ringOps (s : SuperLoop) : LoopEvent → List (Op Tagged)
  | .accept => []
  | .rx b => [.push ⟨s.conn, b⟩]
  | .poll peer => if peer && !s.peerWasConnected then [.take s.ring.length] else []
  | .read => [.take rxbufSize]

theorem LoopStep.queue {s t : SuperLoop} {e : LoopEvent} (hs : LoopStep s e t) {q : Queue Tagged}
    (hq : q.waiting = s.ring) : (q.run rxCapacity (s.ringOps e)).waiting = t.ring := by
  cases hs.did with
  | accept => exact hq
  | rx b =>
    have hroom : q.waiting.length < rxCapacity ↔ s.ring.length + 1 < rxRingSize := by
      rw [hq, rxCapacity]
      omega
    show (q.next rxCapacity (.push ⟨s.conn, b⟩)).waiting =
      if s.ring.length + 1 < rxRingSize then s.ring ++ [⟨s.conn, b⟩] else s.ring
    split
    · rename_i h
      rw [Queue.push_room (hroom.mpr h), hq]
    · rename_i h
      rw [Queue.push_full (fun h' => h (hroom.mp h')), hq]
  | poll peer hpolled =>
    unfold SuperLoop.ringOps SuperLoop.poll
    dsimp only
    split
    · show q.waiting.drop s.ring.length = []
      rw [hq, List.drop_length]
    · exact hq
  | read hpolled =>
    show q.waiting.drop rxbufSize = s.ring.drop rxbufSize
    rw [hq]

theorem superLoop_queue {l : List LoopEvent} {t : SuperLoop} (r : Run LoopStep .start l t) :
    ∃ ops, (Queue.empty.run rxCapacity ops).waiting = t.ring := by
  have hstep : ∀ (s : SuperLoop) (e : LoopEvent) (t : SuperLoop),
      (∃ ops, (Queue.empty.run rxCapacity ops).waiting = s.ring) → LoopStep s e t →
        ∃ ops, (Queue.empty.run rxCapacity ops).waiting = t.ring := by
    rintro s e t ⟨ops, hops⟩ hs
    refine ⟨ops ++ s.ringOps e, ?_⟩
    rw [Queue.run_append, hs.queue hops]
  exact r.invariant hstep ⟨[], rfl⟩

/-! ## The ring can follow it -/

/-- The bytes that come in. -/
def LoopEvent.arrived : LoopEvent → List UInt8
  | .rx b => [b]
  | _ => []

def NetEvent.arrived : NetEvent → List UInt8
  | .arrive val => [val]
  | _ => []

/-- Between two calls the ring has the bytes of the super-loop's queue. -/
structure Carries (u : SuperLoop) (s : NetRx) : Prop where
  lossless : s.Lossless
  armed : s.irqInited = true
  idle : s.pc = .idle
  fifo : s.fifo = []
  ring : s.unread.map (Option.map RxByte.val) = u.ring.map fun b => some b.byte

section Follow

variable {u v : SuperLoop} {s : NetRx}

/-- The interrupt comes at once. -/
theorem Carries.rx (h : Carries u s) (b : UInt8) :
    ∃ t, Run RxStep s [.arrive b, .netRxIrq] t ∧ Carries (u.rx b) t := by
  let c : RxByte := ⟨b, (rxReceived s.log).length⟩
  have hone : (s.arrive b).netRxIrq = (s.arrive b).irqByte c := by
    show (s.fifo ++ [c]).foldl NetRx.irqByte _ = _
    rw [h.fifo]
    rfl
  have hirq : RxStep (s.arrive b) .netRxIrq ((s.arrive b).irqByte c) := by
    rw [← hone]
    exact if_pos h.armed
  have r : Run RxStep s [.arrive b, .netRxIrq] ((s.arrive b).irqByte c) := .cons rfl (.single hirq)
  have hring := (h.lossless.arrive b).inRing
  have htook := NetRx.irqByte_took hring c
  have hlength := congrArg List.length h.ring
  rw [List.length_map, List.length_map] at hlength
  refine ⟨_, r, h.lossless.run r, htook.armed.trans h.armed, htook.pc.trans h.idle, ?_, ?_⟩
  · rw [htook.fifo]
    show (s.fifo ++ [c]).tail = []
    rw [h.fifo]
    rfl
  · rw [NetRx.unread_irqByte hring, show (s.arrive b).unread = s.unread from rfl, hlength]
    show _ = (if u.ring.length + 1 < rxRingSize then u.ring ++ [⟨u.conn, b⟩] else u.ring).map _
    split
    · rw [List.map_append, List.map_append, h.ring]
      rfl
    · exact h.ring

/-- A connect edge is a flush. -/
theorem Carries.flush (h : Carries u s) (hring : v.ring = []) :
    ∃ t, Run RxStep s [.netRxFlush, .access, .access] t ∧ Carries v t := by
  have hcall : RxStep s .netRxFlush
      { s with pc := .flushLoad, log := s.log ++ [.flushCalled] } := by
    simp [RxStep, NetRx.next, h.idle, h.armed]
  obtain ⟨t, r, hunread, hfifo, hidle, harmed, _⟩ := (h.lossless.step hcall).flush_now rfl
  have hall := Run.cons hcall r
  refine ⟨t, hall, h.lossless.run hall, harmed.trans h.armed, hidle, hfifo.trans h.fifo, ?_⟩
  rw [hunread, hring]
  rfl

theorem Carries.read (h : Carries u s) :
    ∃ k t, Run RxStep s (.netRead rxbufSize :: List.replicate k .access) t ∧ Carries u.read t := by
  obtain ⟨k, t, r, hunread, _, hidle, harmed, hfifo⟩ :=
    h.lossless.netRead_now h.armed h.idle rxbufSize
  refine ⟨k, t, r, h.lossless.run r, harmed, hidle, hfifo.trans h.fifo, ?_⟩
  show _ = (u.ring.drop rxbufSize).map _
  rw [hunread, List.map_drop, List.map_drop, h.ring]

/-- **What the super-loop does the ring can do**, by calls that no interrupt comes into. -/
theorem Carries.step {e : LoopEvent} (h : Carries u s) (hs : LoopStep u e v) :
    ∃ l t, Run RxStep s l t ∧ l.flatMap NetEvent.arrived = e.arrived ∧ Carries v t := by
  cases hs.did with
  | accept => exact ⟨[], s, .nil s, rfl, h.lossless, h.armed, h.idle, h.fifo, h.ring⟩
  | rx b =>
    obtain ⟨t, r, ht⟩ := h.rx b
    exact ⟨_, t, r, rfl, ht⟩
  | poll peer hpolled =>
    by_cases hedge : (peer && !u.peerWasConnected) = true
    · have hring : (u.poll peer).ring = [] := by
        unfold SuperLoop.poll
        rw [if_pos hedge]
        rfl
      obtain ⟨t, r, ht⟩ := h.flush hring
      exact ⟨_, t, r, rfl, ht⟩
    · refine ⟨[], s, .nil s, rfl, h.lossless, h.armed, h.idle, h.fifo, ?_⟩
      unfold SuperLoop.poll
      rw [if_neg hedge]
      exact h.ring
  | read hpolled =>
    obtain ⟨k, t, r, ht⟩ := h.read
    refine ⟨_, t, r, ?_, ht⟩
    rw [List.flatMap_cons]
    exact List.flatMap_eq_nil_iff.mpr fun e he => by rw [List.eq_of_mem_replicate he]; rfl

end Follow

theorem superLoop_followed {l : List LoopEvent} {u : SuperLoop} (r : Run LoopStep .start l u) :
    ∃ k t, Run RxStep .boot k t ∧ k.flatMap NetEvent.arrived = l.flatMap LoopEvent.arrived ∧
      Carries u t := by
  have henable : RxStep .boot .rxIrqEnable NetRx.boot.rxIrqEnable := rfl
  have hstart : Carries .start NetRx.boot.rxIrqEnable :=
    ⟨NetRx.Lossless.boot.step henable, rfl, rfl, rfl, rfl⟩
  obtain ⟨k, t, r', hsame, ht⟩ := r.simulate (fun _ _ _ _ h hs => h.step hs) hstart
  exact ⟨.rxIrqEnable :: k, t, .cons henable r', hsame, ht⟩

end EthPanel
