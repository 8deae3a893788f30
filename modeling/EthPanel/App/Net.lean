import EthPanel.App.SuperLoop
import EthPanel.Lib.RingBuffer
import Mathlib.Data.Int.Notation
import Mathlib.Data.List.Nodup

/-!
# `net/net.c`: what comes in

A received byte waits in the UART's FIFO until `net_rx_irq` moves it to the ring, and there until
`net_read` returns it or `net_rx_flush` discards it. The handler runs to its end at once, between
any two accesses that the main thread makes to `s_rx_head`, `s_rx_tail` and the ring: `RxPc` has
a place for each of these.

The bytes carry the number of their arrival, which the code does not see, and a slot not yet
written is `none`. `log` says what has become of the bytes; nothing reads it.

`App/SuperLoop.lean` takes the ring for a queue that drops what does not fit. `unread_irqByte` says
so of a byte that comes in, and `App/NetQueue.lean` of all that is done to the ring.
-/

namespace EthPanel

open Lts

/-- `RX_RING_MASK`. -/
def rxRingMask : UInt32 := 2047

/-- A byte, and how many the UART had received before it. -/
structure RxByte where
  val : UInt8
  no : ℕ
  deriving DecidableEq

inductive RxLog
  /-- By the UART. -/
  | received (b : RxByte)
  /-- By the handler, with this many in the ring. -/
  | dropped (b : RxByte) (unread : ℕ)
  | returned (slot : Option RxByte)
  | flushCalled
  | discarded (slot : Option RxByte)
  | flushReturned
  deriving DecidableEq

/-- Where the main thread is. In `net_read`, `n` bytes have been copied. -/
inductive RxPc
  /-- In neither function. -/
  | idle
  /-- At the head of the loop. -/
  | readTest (max : ℤ) (n : ℕ)
  /-- In the test, with one of the two indices loaded. -/
  | readHead (max : ℤ) (n : ℕ) (tail : UInt32)
  | readTail (max : ℤ) (n : ℕ) (head : UInt32)
  /-- About to load `s_rx_tail` for `s_rx_ring[s_rx_tail]`, … -/
  | readIndex (max : ℤ) (n : ℕ)
  /-- … the slot, … -/
  | readSlot (max : ℤ) (n : ℕ) (i : UInt32)
  /-- … and, with the slot copied, `s_rx_tail` for `s_rx_tail + 1u`. -/
  | readNext (max : ℤ) (n : ℕ) (slot : Option RxByte)
  | readStore (max : ℤ) (n : ℕ) (slot : Option RxByte) (next : UInt32)
  | flushLoad
  | flushStore (head : UInt32)
  /-- In the loops over the FIFO, for when the IRQ is not armed. -/
  | readFifo (max : ℤ) (n : ℕ)
  | flushFifo

structure NetRx where
  /-- The UART's, the oldest byte first. -/
  fifo : List RxByte
  ring : ℕ → Option RxByte
  head : UInt32
  tail : UInt32
  overruns : UInt32
  irqInited : Bool
  pc : RxPc
  log : List RxLog

/-- `.bss`. -/
def NetRx.boot : NetRx := ⟨[], fun _ => none, 0, 0, 0, false, .idle, []⟩

/-- The bytes that the UART has received. -/
def rxReceived (log : List RxLog) : List RxByte :=
  log.filterMap fun e => match e with
    | .received b => some b
    | _ => none

def rxDropped (log : List RxLog) : List RxByte :=
  log.filterMap fun e => match e with
    | .dropped b _ => some b
    | _ => none

/-- What `net_read` has returned. -/
def rxReturned (log : List RxLog) : List (Option RxByte) :=
  log.filterMap fun e => match e with
    | .returned slot => some slot
    | _ => none

/-- What has been returned or discarded. -/
def rxGone (log : List RxLog) : List (Option RxByte) :=
  log.filterMap fun e => match e with
    | .returned slot | .discarded slot => some slot
    | _ => none

inductive NetEvent
  /-- The UART receives a byte. -/
  | arrive (val : UInt8)
  | netRxIrq
  | rxIrqEnable
  | netRead (max : ℤ)
  | netRxFlush
  /-- The main thread's next access. -/
  | access
  /-- The same, where C leaves it open which of two loads comes first. -/
  | accessOther

namespace NetRx

/-- The bytes in the ring. -/
def unread (s : NetRx) : List (Option RxByte) :=
  RingBuffer.contents rxRingSize s.ring s.tail.toNat s.head.toNat

def arrive (s : NetRx) (val : UInt8) : NetRx :=
  let b : RxByte := ⟨val, (rxReceived s.log).length⟩
  { s with fifo := s.fifo ++ [b], log := s.log ++ [.received b] }

/-- The loop body of `net_rx_irq`. -/
def irqByte (s : NetRx) (c : RxByte) : NetRx :=
  let next := (s.head + 1) &&& rxRingMask
  if next = s.tail then
    { s with
      fifo := s.fifo.tail
      overruns := s.overruns + 1
      log := s.log ++ [.dropped c s.unread.length] }
  else
    { s with
      fifo := s.fifo.tail
      ring := Function.update s.ring s.head.toNat (some c)
      head := next }

def netRxIrq (s : NetRx) : NetRx := s.fifo.foldl irqByte s

def rxIrqEnable (s : NetRx) : NetRx :=
  if s.irqInited then s else { s with head := 0, tail := 0, irqInited := true }

/-- The next access of `net_read` or `net_rx_flush`, with what comes after it up to the next. -/
def access (s : NetRx) : Option NetRx :=
  match s.pc with
  | .idle => none
  | .readTest max n =>
    if n < max then some { s with pc := .readHead max n s.tail } else some { s with pc := .idle }
  | .readHead max n tail =>
    some { s with pc := if tail ≠ s.head then .readIndex max n else .idle }
  | .readTail max n head =>
    some { s with pc := if s.tail ≠ head then .readIndex max n else .idle }
  | .readIndex max n => some { s with pc := .readSlot max n s.tail }
  | .readSlot max n i => some { s with pc := .readNext max (n + 1) (s.ring i.toNat) }
  | .readNext max n slot =>
    some { s with pc := .readStore max n slot ((s.tail + 1) &&& rxRingMask) }
  | .readStore max n slot next =>
    some { s with tail := next, pc := .readTest max n, log := s.log ++ [.returned slot] }
  | .flushLoad => some { s with pc := .flushStore s.head }
  | .flushStore head =>
    some { s with
      tail := head
      pc := .idle
      log := s.log ++ ((RingBuffer.contents rxRingSize s.ring s.tail.toNat head.toNat).map
        .discarded ++ [.flushReturned]) }
  | .readFifo max n =>
    if n < max then
      match s.fifo with
      | [] => some { s with pc := .idle }
      | c :: fifo =>
        some { s with
          fifo := fifo, pc := .readFifo max (n + 1), log := s.log ++ [.returned (some c)] }
    else some { s with pc := .idle }
  | .flushFifo =>
    match s.fifo with
    | [] => some { s with pc := .idle, log := s.log ++ [.flushReturned] }
    | c :: fifo => some { s with fifo := fifo, log := s.log ++ [.discarded (some c)] }

def next (s : NetRx) (e : NetEvent) : Option NetRx :=
  match e, s.pc with
  | .arrive val, _ => some (s.arrive val)
  | .netRxIrq, _ => if s.irqInited then some s.netRxIrq else none
  | .rxIrqEnable, .idle => some s.rxIrqEnable
  | .netRead max, .idle =>
    some { s with pc := if s.irqInited then .readTest max 0 else .readFifo max 0 }
  | .netRxFlush, .idle =>
    some { s with
      pc := if s.irqInited then .flushLoad else .flushFifo, log := s.log ++ [.flushCalled] }
  | .access, _ => s.access
  | .accessOther, .readTest max n =>
    if n < max then some { s with pc := .readTail max n s.head } else none
  | _, _ => none

end NetRx

def RxStep (s : NetRx) (e : NetEvent) (t : NetRx) : Prop := s.next e = some t

/-- What a step does. -/
inductive NetRx.Did (s : NetRx) : NetEvent → NetRx → Prop
  | arrive (val : UInt8) : Did s (.arrive val) (s.arrive val)
  | netRxIrq (harm : s.irqInited = true) : Did s .netRxIrq s.netRxIrq
  | rxIrqEnable (hpc : s.pc = .idle) : Did s .rxIrqEnable s.rxIrqEnable
  | netRead (max : ℤ) (hpc : s.pc = .idle) : Did s (.netRead max)
      { s with pc := if s.irqInited then .readTest max 0 else .readFifo max 0 }
  | netRxFlush (hpc : s.pc = .idle) : Did s .netRxFlush
      { s with
        pc := if s.irqInited then .flushLoad else .flushFifo, log := s.log ++ [.flushCalled] }
  | access {t : NetRx} (haccess : s.access = some t) : Did s .access t
  | accessOther {max : ℤ} {n : ℕ} (hpc : s.pc = .readTest max n) (hmore : n < max) :
      Did s .accessOther { s with pc := .readTail max n s.head }

theorem RxStep.did {s t : NetRx} {e : NetEvent} (hs : RxStep s e t) : s.Did e t := by
  unfold RxStep NetRx.next at hs
  split at hs
  · obtain rfl := Option.some.inj hs
    exact .arrive _
  · split at hs
    · rename_i harm
      obtain rfl := Option.some.inj hs
      exact .netRxIrq harm
    · cases hs
  · rename_i hpc
    obtain rfl := Option.some.inj hs
    exact .rxIrqEnable hpc
  · rename_i hpc
    obtain rfl := Option.some.inj hs
    exact .netRead _ hpc
  · rename_i hpc
    obtain rfl := Option.some.inj hs
    exact .netRxFlush hpc
  · exact .access hs
  · rename_i hpc
    split at hs
    · rename_i hmore
      obtain rfl := Option.some.inj hs
      exact .accessOther hpc hmore
    · cases hs
  · cases hs

/-- Not in `net_rx_flush`. -/
def RxPc.outsideFlush : RxPc → Bool
  | .flushLoad | .flushStore _ | .flushFifo => false
  | _ => true

/-! ## The log -/

/-- Received and not dropped. -/
def rxKept (log : List RxLog) : List RxByte := (rxReceived log).filter fun b => b ∉ rxDropped log

section Log

variable (log l : List RxLog)

@[simp] theorem rxReceived_append : rxReceived (log ++ l) = rxReceived log ++ rxReceived l :=
  List.filterMap_append

@[simp] theorem rxDropped_append : rxDropped (log ++ l) = rxDropped log ++ rxDropped l :=
  List.filterMap_append

@[simp] theorem rxGone_append : rxGone (log ++ l) = rxGone log ++ rxGone l := List.filterMap_append

variable {log}

@[simp] theorem mem_rxReceived {b : RxByte} : b ∈ rxReceived log ↔ .received b ∈ log := by
  simp only [rxReceived, List.mem_filterMap]
  constructor
  · rintro ⟨e, he, heq⟩
    cases e <;> simp_all
  · exact fun h => ⟨_, h, rfl⟩

/-- A flush discards what it has come past. -/
theorem rxGone_discarded (slots : List (Option RxByte)) :
    rxGone (slots.map .discarded ++ [.flushReturned]) = slots := by
  induction slots with
  | nil => rfl
  | cons slot slots ih =>
    rw [List.map_cons, List.cons_append]
    exact congrArg (slot :: ·) ih

theorem rxReceived_discarded (slots : List (Option RxByte)) :
    rxReceived (slots.map .discarded ++ [.flushReturned]) = [] := by
  induction slots with
  | nil => rfl
  | cons slot slots ih => exact ih

theorem rxDropped_discarded (slots : List (Option RxByte)) :
    rxDropped (slots.map .discarded ++ [.flushReturned]) = [] := by
  induction slots with
  | nil => rfl
  | cons slot slots ih => exact ih

/-- An entry that is about no received byte. -/
theorem rxKept_append_of_nil (hr : rxReceived l = []) (hd : rxDropped l = []) :
    rxKept (log ++ l) = rxKept log := by
  simp [rxKept, hr, hd]

theorem rxKept_received {b : RxByte} (hnew : b ∉ rxDropped log) :
    rxKept (log ++ [.received b]) = rxKept log ++ [b] := by
  have hr : rxReceived [.received b] = [b] := rfl
  have hd : rxDropped [.received b] = [] := rfl
  simp [rxKept, hr, hd, hnew]

theorem rxKept_dropped (b : RxByte) (k : ℕ) :
    rxKept (log ++ [.dropped b k]) = (rxKept log).filter fun b' => b' ≠ b := by
  have hr : rxReceived [.dropped b k] = [] := rfl
  have hd : rxDropped [.dropped b k] = [b] := rfl
  simp only [rxKept, rxReceived_append, rxDropped_append, hr, hd, List.append_nil, List.mem_append,
    List.mem_singleton, not_or, List.filter_filter, Bool.decide_and]
  exact List.filter_congr fun b' _ => Bool.and_comm _ _

theorem filter_ne_of_nodup {l r : List RxByte} {c : RxByte} (h : (l ++ c :: r).Nodup) :
    (l ++ c :: r).filter (fun b => b ≠ c) = l ++ r := by
  have hnew : c ∉ l := fun hmem => (List.nodup_append.mp h).2.2 c hmem c List.mem_cons_self rfl
  have herase := h.erase_eq_filter c
  rw [List.erase_append_right _ hnew, List.erase_cons_head] at herase
  rw [herase]
  exact List.filter_congr fun b _ => by rw [bne, beq_eq_decide, decide_not]

end Log

/-! ## The handler -/

theorem toNat_next {i : UInt32} (hi : i.toNat < rxRingSize) :
    ((i + 1) &&& rxRingMask).toNat = RingBuffer.next rxRingSize i.toNat := by
  have hlt : i.toNat + 1 < 2 ^ 32 := by
    unfold rxRingSize at hi
    omega
  rw [UInt32.toNat_and, UInt32.toNat_add, show (1 : UInt32).toNat = 1 from rfl,
    Nat.mod_eq_of_lt hlt, show rxRingMask.toNat = 2 ^ 11 - 1 from rfl,
    Nat.and_two_pow_sub_one_eq_mod]
  rfl

namespace NetRx

/-- Both indices are indices. -/
def InRing (s : NetRx) : Prop := s.tail.toNat < rxRingSize ∧ s.head.toNat < rxRingSize

theorem InRing.unread_eq_nil {s : NetRx} (h : s.InRing) : s.unread = [] ↔ s.tail = s.head := by
  rw [unread, RingBuffer.contents_eq_nil h.1 h.2, UInt32.toNat_inj]

theorem unread_of_zero {s : NetRx} (htail : s.tail = 0) (hhead : s.head = 0) : s.unread = [] := by
  rw [unread, htail, hhead]
  rfl

/-- **What the handler does with a byte**: it goes to the end of the ring, or is dropped when all
slots but one are taken. -/
inductive Took (s : NetRx) (c : RxByte) : NetRx → Prop
  | stored {t : NetRx} (hunread : t.unread = s.unread ++ [some c]) (hring : t.InRing)
      (htail : t.tail = s.tail) (hpc : t.pc = s.pc) (hlog : t.log = s.log)
      (hoverruns : t.overruns = s.overruns) (harmed : t.irqInited = s.irqInited)
      (hfifo : t.fifo = s.fifo.tail) : Took s c t
  | dropped (hfull : s.unread.length = rxRingSize - 1) :
      Took s c { s with
        fifo := s.fifo.tail
        overruns := s.overruns + 1
        log := s.log ++ [.dropped c (rxRingSize - 1)] }

theorem Took.fifo {s t : NetRx} {c : RxByte} (h : s.Took c t) : t.fifo = s.fifo.tail := by
  cases h with
  | stored hunread hring htail hpc hlog hoverruns harmed hfifo => exact hfifo
  | dropped hfull => rfl

theorem Took.armed {s t : NetRx} {c : RxByte} (h : s.Took c t) : t.irqInited = s.irqInited := by
  cases h with
  | stored hunread hring htail hpc hlog hoverruns harmed hfifo => exact harmed
  | dropped hfull => rfl

theorem Took.pc {s t : NetRx} {c : RxByte} (h : s.Took c t) : t.pc = s.pc := by
  cases h with
  | stored hunread hring htail hpc hlog hoverruns harmed hfifo => exact hpc
  | dropped hfull => rfl

theorem irqByte_took {s : NetRx} (h : s.InRing) (c : RxByte) : s.Took c (s.irqByte c) := by
  have hnext := toNat_next h.2
  unfold irqByte
  dsimp only
  split
  · rename_i heq
    have hfull : s.unread.length = rxRingSize - 1 := by
      rw [unread, RingBuffer.length_contents]
      refine RingBuffer.unread_full h.1 h.2 ?_
      rw [← hnext, heq]
    rw [hfull]
    exact .dropped hfull
  · rename_i hne
    have hroom : RingBuffer.next rxRingSize s.head.toNat ≠ s.tail.toNat := by
      rw [← hnext]
      exact fun heq => hne (UInt32.toNat_inj.mp heq)
    refine .stored ?_ ⟨h.1, ?_⟩ rfl rfl rfl rfl rfl rfl
    · show RingBuffer.contents rxRingSize _ s.tail.toNat ((s.head + 1) &&& rxRingMask).toNat = _
      rw [hnext]
      exact RingBuffer.contents_push h.1 h.2 hroom (some c)
    · show ((s.head + 1) &&& rxRingMask).toNat < rxRingSize
      rw [hnext]
      exact RingBuffer.next_lt h.2

/-- Byte after byte. -/
theorem netRxIrq_induction {P : NetRx → Prop} (hring : ∀ {s}, P s → s.InRing)
    (htook : ∀ {s : NetRx}, P s → ∀ {c rest t}, s.fifo = c :: rest → s.irqInited = true →
      s.Took c t → P t) {s : NetRx} (h : P s) (harm : s.irqInited = true) : P s.netRxIrq := by
  have hdrain : ∀ (l : List RxByte) {s : NetRx}, P s → s.irqInited = true → s.fifo = l →
      P (l.foldl irqByte s) := by
    intro l
    induction l with
    | nil => exact fun h _ _ => h
    | cons c rest ih =>
      intro s h harm hfifo
      have hc := irqByte_took (hring h) c
      refine ih (htook h hfifo harm hc) (hc.armed.trans harm) ?_
      rw [hc.fifo, hfifo, List.tail_cons]
  exact hdrain s.fifo h harm rfl

theorem InRing.length_unread {s : NetRx} (h : s.InRing) : s.unread.length < rxRingSize := by
  rw [unread, RingBuffer.length_contents]
  exact RingBuffer.unread_lt h.1

/-- The ring as a queue. -/
theorem unread_irqByte {s : NetRx} (h : s.InRing) (c : RxByte) : (s.irqByte c).unread =
    if s.unread.length + 1 < rxRingSize then s.unread ++ [some c] else s.unread := by
  have htook := irqByte_took h c
  generalize s.irqByte c = t at htook ⊢
  cases htook with
  | stored hunread hring =>
    have hroom := hring.length_unread
    rw [hunread, List.length_append, List.length_singleton] at hroom
    rw [if_pos hroom, hunread]
  | dropped hfull =>
    have hnone : ¬ s.unread.length + 1 < rxRingSize := by
      rw [hfull]
      exact Nat.lt_irrefl _
    rw [if_neg hnone]
    rfl

/-- The slot at the tail is the oldest byte. -/
theorem InRing.unread_cons {s : NetRx} (h : s.InRing) (hne : s.unread ≠ []) :
    s.unread = s.ring s.tail.toNat ::
      unread { s with tail := (s.tail + 1) &&& rxRingMask } := by
  have hne' : s.tail.toNat ≠ s.head.toNat := by
    intro heq
    exact hne (h.unread_eq_nil.mpr (UInt32.toNat_inj.mp heq))
  rw [unread, unread, RingBuffer.contents_pop h.1 h.2 hne']
  dsimp only
  rw [toNat_next h.1]

theorem InRing.tail_next {s : NetRx} (h : s.InRing) (t : NetRx)
    (htail : t.tail = (s.tail + 1) &&& rxRingMask) (hhead : t.head = s.head) : t.InRing := by
  refine ⟨?_, ?_⟩
  · rw [htail, toNat_next h.1]
    exact RingBuffer.next_lt h.1
  · rw [hhead]
    exact h.2

/-- What is unread up to an index seen earlier, and from there on. -/
theorem InRing.split {s : NetRx} (h : s.InRing) {mid : UInt32} (hmid : mid.toNat < rxRingSize)
    (hle : RingBuffer.unread rxRingSize s.tail.toNat mid.toNat ≤ s.unread.length) :
    RingBuffer.contents rxRingSize s.ring s.tail.toNat mid.toNat ++
      RingBuffer.contents rxRingSize s.ring mid.toNat s.head.toNat = s.unread := by
  rw [unread, RingBuffer.length_contents] at hle
  exact RingBuffer.contents_split h.1 h.2 hmid hle

/-! ## The invariant -/

/-- What the main thread has seen is still so, as far as it relies on it. -/
def PcOk (s : NetRx) : Prop :=
  match s.pc with
  | .idle | .readTest .. => True
  | .readHead _ _ tail => tail = s.tail
  | .readIndex .. => s.unread ≠ []
  | .readSlot _ _ i => i = s.tail ∧ s.unread ≠ []
  | .readNext _ _ slot => s.unread.head? = some slot
  | .readStore _ _ slot next => s.unread.head? = some slot ∧ next = (s.tail + 1) &&& rxRingMask
  -- There may be more in the ring since then.
  | .readTail _ _ head | .flushStore head => head.toNat < rxRingSize ∧
      RingBuffer.unread rxRingSize s.tail.toNat head.toNat ≤ s.unread.length
  | .flushLoad => s.irqInited = true
  | .readFifo .. | .flushFifo => s.irqInited = false

theorem PcOk.grow {s t : NetRx} (h : s.PcOk) (htail : t.tail = s.tail) (hpc : t.pc = s.pc)
    (harmed : t.irqInited = s.irqInited) (hunread : s.unread <+: t.unread) : t.PcOk := by
  have hlen := hunread.length_le
  obtain ⟨more, hmore⟩ := hunread
  have hne : s.unread ≠ [] → t.unread ≠ [] := by
    intro hne
    rw [← hmore]
    exact List.append_ne_nil_of_left_ne_nil hne more
  have hhead : ∀ {slot}, s.unread.head? = some slot → t.unread.head? = some slot := by
    intro slot hslot
    rw [← hmore, List.head?_append, hslot]
    rfl
  unfold PcOk at h ⊢
  rw [hpc, htail, harmed]
  revert h
  cases s.pc with
  | idle => exact id
  | readTest max n => exact id
  | readHead max n tail => exact id
  | readTail max n head => exact fun h => ⟨h.1, h.2.trans hlen⟩
  | readIndex max n => exact hne
  | readSlot max n i => exact fun h => ⟨h.1, hne h.2⟩
  | readNext max n slot => exact hhead
  | readStore max n slot next => exact fun h => ⟨hhead h.1, h.2⟩
  | flushLoad => exact id
  | flushStore head => exact fun h => ⟨h.1, h.2.trans hlen⟩
  | readFifo max n => exact id
  | flushFifo => exact id

/-- **What an access of the main thread does** to the ring and the FIFO. -/
inductive Accessed (s : NetRx) : NetRx → Prop
  | goto {pc : RxPc} (hold : s.pc.outsideFlush = true) (hnew : pc.outsideFlush = true)
      (hok : PcOk { s with pc := pc }) : Accessed s { s with pc := pc }
  | readStore {max : ℤ} {n : ℕ} {slot : Option RxByte} {next : UInt32}
      (hpc : s.pc = .readStore max n slot next) (hring : InRing { s with tail := next })
      (hunread : s.unread = slot :: unread { s with tail := next }) :
      Accessed s { s with
        tail := next, pc := .readTest max n, log := s.log ++ [.returned slot] }
  | flushLoad (hpc : s.pc = .flushLoad) : Accessed s { s with pc := .flushStore s.head }
  | flushStore {head : UInt32} (hpc : s.pc = .flushStore head)
      (hring : InRing { s with tail := head })
      (hunread : RingBuffer.contents rxRingSize s.ring s.tail.toNat head.toNat ++
        unread { s with tail := head } = s.unread) :
      Accessed s { s with
        tail := head
        pc := .idle
        log := s.log ++ ((RingBuffer.contents rxRingSize s.ring s.tail.toNat head.toNat).map
          .discarded ++ [.flushReturned]) }
  | readFifo {max : ℤ} {n : ℕ} {c : RxByte} {fifo : List RxByte} (hpc : s.pc = .readFifo max n)
      (hnot : s.irqInited = false) (hfifo : s.fifo = c :: fifo) :
      Accessed s { s with
        fifo := fifo, pc := .readFifo max (n + 1), log := s.log ++ [.returned (some c)] }
  | flushFifo {c : RxByte} {fifo : List RxByte} (hpc : s.pc = .flushFifo)
      (hnot : s.irqInited = false) (hfifo : s.fifo = c :: fifo) :
      Accessed s { s with
        fifo := fifo, pc := .flushFifo, log := s.log ++ [.discarded (some c)] }
  | flushFifoDone (hpc : s.pc = .flushFifo) (hnot : s.irqInited = false) (hfifo : s.fifo = []) :
      Accessed s { s with pc := .idle, log := s.log ++ [.flushReturned] }

theorem access_cases {s t : NetRx} (hring : s.InRing) (hpcOk : s.PcOk) (hs : s.access = some t) :
    s.Accessed t := by
  unfold access at hs
  unfold PcOk at hpcOk
  cases hpc : s.pc with
  | idle =>
    rw [hpc] at hs
    cases hs
  | readTest max n =>
    rw [hpc] at hs
    dsimp only at hs
    split at hs
    · obtain rfl := Option.some.inj hs
      exact .goto (by rw [hpc]; rfl) rfl rfl
    · obtain rfl := Option.some.inj hs
      exact .goto (by rw [hpc]; rfl) rfl trivial
  | readHead max n tail =>
    rw [hpc] at hs hpcOk
    obtain rfl := Option.some.inj hs
    split
    · rename_i hne
      rw [show tail = s.tail from hpcOk] at hne
      exact .goto (by rw [hpc]; rfl) rfl fun hnil => hne (hring.unread_eq_nil.mp hnil)
    · exact .goto (by rw [hpc]; rfl) rfl trivial
  | readTail max n head =>
    rw [hpc] at hs hpcOk
    obtain rfl := Option.some.inj hs
    split
    · rename_i hne
      refine .goto (by rw [hpc]; rfl) rfl fun hnil => hne ?_
      have hlen := hpcOk.2
      rw [show s.unread = [] from hnil, List.length_nil, Nat.le_zero,
        RingBuffer.unread_eq_zero hring.1 hpcOk.1] at hlen
      exact UInt32.toNat_inj.mp hlen
    · exact .goto (by rw [hpc]; rfl) rfl trivial
  | readIndex max n =>
    rw [hpc] at hs hpcOk
    obtain rfl := Option.some.inj hs
    exact .goto (by rw [hpc]; rfl) rfl ⟨rfl, hpcOk⟩
  | readSlot max n i =>
    rw [hpc] at hs hpcOk
    obtain rfl := Option.some.inj hs
    refine .goto (by rw [hpc]; rfl) rfl ?_
    show s.unread.head? = some (s.ring i.toNat)
    rw [hpcOk.1, hring.unread_cons hpcOk.2]
    rfl
  | readNext max n slot =>
    rw [hpc] at hs hpcOk
    obtain rfl := Option.some.inj hs
    exact .goto (by rw [hpc]; rfl) rfl ⟨hpcOk, rfl⟩
  | readStore max n slot next =>
    rw [hpc] at hs hpcOk
    obtain rfl := Option.some.inj hs
    obtain ⟨hslot, rfl⟩ := hpcOk
    have hcons := hring.unread_cons (List.ne_nil_of_mem (List.mem_of_mem_head? hslot))
    rw [hcons, List.head?_cons] at hslot
    rw [Option.some.inj hslot] at hcons
    exact .readStore hpc (hring.tail_next _ rfl rfl) hcons
  | flushLoad =>
    rw [hpc] at hs
    obtain rfl := Option.some.inj hs
    exact .flushLoad hpc
  | flushStore head =>
    rw [hpc] at hs hpcOk
    obtain rfl := Option.some.inj hs
    exact .flushStore hpc ⟨hpcOk.1, hring.2⟩ (hring.split hpcOk.1 hpcOk.2)
  | readFifo max n =>
    rw [hpc] at hs hpcOk
    dsimp only at hs
    split at hs
    · split at hs
      · obtain rfl := Option.some.inj hs
        exact .goto (by rw [hpc]; rfl) rfl trivial
      · rename_i c fifo hfifo
        obtain rfl := Option.some.inj hs
        exact .readFifo hpc hpcOk hfifo
    · obtain rfl := Option.some.inj hs
      exact .goto (by rw [hpc]; rfl) rfl trivial
  | flushFifo =>
    rw [hpc] at hs hpcOk
    dsimp only at hs
    split at hs
    · rename_i hfifo
      obtain rfl := Option.some.inj hs
      exact .flushFifoDone hpc hpcOk hfifo
    · rename_i c fifo hfifo
      obtain rfl := Option.some.inj hs
      exact .flushFifo hpc hpcOk hfifo

/-- What holds at every moment. -/
structure Lossless (s : NetRx) : Prop where
  inRing : s.InRing
  numbered : (rxReceived s.log).map RxByte.no = List.range (rxReceived s.log).length
  dropped_mem : ∀ b ∈ rxDropped s.log, b ∈ rxReceived s.log
  queue : rxGone s.log ++ s.unread ++ s.fifo.map some = (rxKept s.log).map some
  overruns : s.overruns = UInt32.ofNat (rxDropped s.log).length
  full : ∀ b k, .dropped b k ∈ s.log → k = rxRingSize - 1
  /-- A byte is received before it is discarded. -/
  causal : ∀ before slot after, s.log = before ++ .discarded slot :: after →
    ∃ b, slot = some b ∧ .received b ∈ before
  unarmed : s.irqInited = false → s.unread = []
  pcOk : s.PcOk

theorem Lossless.boot : Lossless .boot where
  inRing := ⟨Nat.zero_lt_succ 2047, Nat.zero_lt_succ 2047⟩
  numbered := rfl
  dropped_mem := fun _ h => nomatch h
  queue := rfl
  overruns := rfl
  full := fun _ _ h => nomatch h
  causal := fun before _ _ h => by simp [NetRx.boot] at h
  unarmed := fun _ => rfl
  pcOk := trivial

namespace Lossless

variable {s : NetRx}

theorem no_lt (h : s.Lossless) {b : RxByte} (hb : .received b ∈ s.log) :
    b.no < (rxReceived s.log).length := by
  have hno := List.mem_map_of_mem (f := RxByte.no) (mem_rxReceived.mpr hb)
  rw [h.numbered] at hno
  exact List.mem_range.mp hno

theorem nodup_received (h : s.Lossless) : (rxReceived s.log).Nodup := by
  refine List.Nodup.of_map RxByte.no ?_
  rw [h.numbered]
  exact List.nodup_range

theorem nodup_kept (h : s.Lossless) : (rxKept s.log).Nodup := h.nodup_received.filter _

/-- Nothing is anywhere but what has been received. -/
theorem received_of_mem (h : s.Lossless) {slot : Option RxByte}
    (hslot : slot ∈ rxGone s.log ++ s.unread ++ s.fifo.map some) :
    ∃ b, slot = some b ∧ .received b ∈ s.log := by
  rw [h.queue] at hslot
  obtain ⟨b, hb, rfl⟩ := List.mem_map.mp hslot
  exact ⟨b, rfl, mem_rxReceived.mp (List.mem_filter.mp hb).1⟩

theorem received_unread (h : s.Lossless) {slot : Option RxByte} (hslot : slot ∈ s.unread) :
    ∃ b, slot = some b ∧ .received b ∈ s.log := by
  refine h.received_of_mem (List.mem_append_left _ ?_)
  exact List.mem_append_right _ hslot

theorem received_fifo (h : s.Lossless) {b : RxByte} (hb : b ∈ s.fifo) : .received b ∈ s.log := by
  obtain ⟨b', heq, hb'⟩ := h.received_of_mem
    (List.mem_append_right _ (List.mem_map_of_mem (f := some) hb))
  rwa [Option.some.inj heq]

/-- A step that only takes the main thread further. -/
theorem goto (h : s.Lossless) {pc : RxPc} (hpc : PcOk { s with pc := pc }) :
    Lossless { s with pc := pc } :=
  ⟨h.inRing, h.numbered, h.dropped_mem, h.queue, h.overruns, h.full, h.causal,
    h.unarmed, hpc⟩

theorem arrive (h : s.Lossless) (val : UInt8) : (s.arrive val).Lossless := by
  have hr : rxReceived (s.arrive val).log =
      rxReceived s.log ++ [⟨val, (rxReceived s.log).length⟩] := rxReceived_append _ _
  have hd : rxDropped (s.arrive val).log = rxDropped s.log := by
    exact (rxDropped_append _ _).trans (List.append_nil _)
  have hg : rxGone (s.arrive val).log = rxGone s.log := by
    exact (rxGone_append _ _).trans (List.append_nil _)
  have hnew : (⟨val, (rxReceived s.log).length⟩ : RxByte) ∉ rxDropped s.log := by
    intro hmem
    exact Nat.lt_irrefl _ (h.no_lt (mem_rxReceived.mp (h.dropped_mem _ hmem)))
  refine ⟨h.inRing, ?_, ?_, ?_, ?_, ?_, ?_, h.unarmed, h.pcOk⟩
  · rw [hr, List.map_append, h.numbered, List.length_append, List.length_singleton,
      List.range_succ, List.map_singleton]
  · intro b hb
    rw [hd] at hb
    rw [hr]
    exact List.mem_append_left _ (h.dropped_mem b hb)
  · have hqueue := h.queue
    show rxGone (s.arrive val).log ++ s.unread ++ (s.fifo ++ [_]).map some =
      (rxKept (s.log ++ [.received _])).map some
    rw [hg, rxKept_received hnew, List.map_append, List.map_append, ← hqueue]
    simp only [List.append_assoc, List.map_singleton]
  · rw [hd]
    exact h.overruns
  · intro b k hmem
    rcases List.mem_append.mp hmem with hmem | hmem
    · exact h.full b k hmem
    · simp at hmem
  · intro before slot after heq
    obtain ⟨rest, -, hlog⟩ := split_append_old (by simp) heq
    exact h.causal before slot rest hlog

/-! ### The handler -/

theorem took {c : RxByte} {rest : List RxByte} {t : NetRx} (h : s.Lossless)
    (hfifo : s.fifo = c :: rest) (harm : s.irqInited = true) (htook : s.Took c t) :
    t.Lossless := by
  have hqueue := h.queue
  rw [hfifo, List.map_cons] at hqueue
  cases htook with
  | stored hunread hring htail hpc hlog hoverruns harmed hrest =>
    refine ⟨hring, ?_, ?_, ?_, ?_, ?_, ?_, ?_, ?_⟩
    · rw [hlog]
      exact h.numbered
    · rw [hlog]
      exact h.dropped_mem
    · rw [hlog, hunread, hrest, hfifo, List.tail_cons, ← hqueue]
      simp only [List.append_assoc, List.singleton_append]
    · rw [hlog, hoverruns]
      exact h.overruns
    · rw [hlog]
      exact h.full
    · rw [hlog]
      exact h.causal
    · rw [harmed, harm]
      exact fun hnot => nomatch hnot
    · refine h.pcOk.grow htail hpc harmed ?_
      rw [hunread]
      exact List.prefix_append _ _
  | dropped hfull =>
    have hd : rxDropped (s.log ++ [.dropped c (rxRingSize - 1)]) = rxDropped s.log ++ [c] :=
      rxDropped_append _ _
    have hr : rxReceived (s.log ++ [.dropped c (rxRingSize - 1)]) = rxReceived s.log :=
      (rxReceived_append _ _).trans (List.append_nil _)
    refine ⟨h.inRing, ?_, ?_, ?_, ?_, ?_, ?_, h.unarmed, h.pcOk⟩
    · rw [hr]
      exact h.numbered
    · intro b hb
      rw [hd] at hb
      rw [hr]
      rcases List.mem_append.mp hb with hb | hb
      · exact h.dropped_mem b hb
      · rw [List.mem_singleton.mp hb]
        exact mem_rxReceived.mpr (h.received_fifo (by simp [hfifo]))
    · obtain ⟨kept, fresh, hkept, hkept', hfresh⟩ := List.map_eq_append_iff.mp hqueue.symm
      obtain ⟨c', rest', rfl, hc', hrest'⟩ := List.map_eq_cons_iff.mp hfresh
      obtain rfl := Option.some.inj hc'
      have hnodup := h.nodup_kept
      rw [hkept] at hnodup
      show rxGone (s.log ++ [.dropped c' _]) ++ s.unread ++ s.fifo.tail.map some = _
      rw [rxKept_dropped, hkept, filter_ne_of_nodup hnodup, hfifo, List.map_append, hkept', hrest',
        show rxGone (s.log ++ [.dropped c' (rxRingSize - 1)]) = rxGone s.log from
          (rxGone_append _ _).trans (List.append_nil _)]
      rfl
    · rw [hd, List.length_append, List.length_singleton, UInt32.ofNat_add, ← h.overruns]
      rfl
    · intro b k hmem
      rcases List.mem_append.mp hmem with hmem | hmem
      · exact h.full b k hmem
      · rw [List.mem_singleton] at hmem
        exact (RxLog.dropped.inj hmem).2
    · intro before slot after heq
      obtain ⟨rest, -, hlog⟩ := split_append_old (by simp) heq
      exact h.causal before slot rest hlog

theorem netRxIrq (h : s.Lossless) (harm : s.irqInited = true) : s.netRxIrq.Lossless :=
  netRxIrq_induction (fun hs => hs.inRing) (fun hs => hs.took) h harm

/-! ### The main thread -/

theorem rxIrqEnable (h : s.Lossless) (hpc : s.pc = .idle) : s.rxIrqEnable.Lossless := by
  unfold NetRx.rxIrqEnable
  split
  · exact h
  · rename_i hnot
    have hold : s.unread = [] := h.unarmed (by simpa using hnot)
    have hqueue := h.queue
    rw [hold] at hqueue
    refine ⟨⟨Nat.zero_lt_succ 2047, Nat.zero_lt_succ 2047⟩, h.numbered, h.dropped_mem, ?_,
      h.overruns, h.full, h.causal, fun _ => unread_of_zero rfl rfl, ?_⟩
    · rw [unread_of_zero rfl rfl]
      exact hqueue
    · unfold PcOk
      rw [hpc]
      trivial

/-- An entry about what leaves the ring or the FIFO. -/
theorem leave {t : NetRx} {l : List RxLog} (h : s.Lossless) (hlog : t.log = s.log ++ l)
    (hr : rxReceived l = []) (hd : rxDropped l = []) (hring : t.InRing)
    (hqueue : rxGone l ++ t.unread ++ t.fifo.map some = s.unread ++ s.fifo.map some)
    (hoverruns : t.overruns = s.overruns) (hunarmed : t.irqInited = false → t.unread = [])
    (hpc : t.PcOk) : t.Lossless := by
  have hr' : rxReceived t.log = rxReceived s.log := by
    rw [hlog, rxReceived_append, hr, List.append_nil]
  have hd' : rxDropped t.log = rxDropped s.log := by
    rw [hlog, rxDropped_append, hd, List.append_nil]
  refine ⟨hring, ?_, ?_, ?_, ?_, ?_, ?_, hunarmed, hpc⟩
  · rw [hr']
    exact h.numbered
  · rw [hr', hd']
    exact h.dropped_mem
  · have hold := h.queue
    rw [List.append_assoc] at hold
    rw [hlog, rxKept_append_of_nil l hr hd, rxGone_append, ← hold, ← hqueue]
    simp only [List.append_assoc]
  · rw [hd', hoverruns]
    exact h.overruns
  · intro b k hmem
    rw [hlog] at hmem
    rcases List.mem_append.mp hmem with hmem | hmem
    · exact h.full b k hmem
    · have hb : b ∈ rxDropped l := List.mem_filterMap.mpr ⟨_, hmem, rfl⟩
      rw [hd] at hb
      exact nomatch hb
  · intro before slot after heq
    rw [hlog] at heq
    rcases split_append heq with ⟨rest, -, hold⟩ | ⟨rest, rfl, hnew⟩
    · exact h.causal before slot rest hold
    · -- It has been in the ring or the FIFO.
      have hslot : slot ∈ rxGone l ++ t.unread ++ t.fifo.map some := by
        rw [hnew]
        simp [rxGone]
      rw [hqueue] at hslot
      obtain ⟨b, rfl, hb⟩ := h.received_of_mem (by
        rw [List.append_assoc]
        exact List.mem_append_right _ hslot)
      exact ⟨b, rfl, List.mem_append_left _ hb⟩

/-- A byte straight from the FIFO. -/
theorem fifoOut {c : RxByte} {fifo : List RxByte} {pc : RxPc} (h : s.Lossless)
    (hnot : s.irqInited = false) (hfifo : s.fifo = c :: fifo) (e : RxLog)
    (hr : rxReceived [e] = []) (hd : rxDropped [e] = []) (hg : rxGone [e] = [some c])
    (hpc : PcOk { s with fifo := fifo, pc := pc, log := s.log ++ [e] }) :
    Lossless { s with fifo := fifo, pc := pc, log := s.log ++ [e] } := by
  refine h.leave rfl hr hd h.inRing ?_ rfl h.unarmed hpc
  show rxGone [e] ++ s.unread ++ fifo.map some = s.unread ++ s.fifo.map some
  rw [h.unarmed hnot, hg, hfifo]
  rfl

theorem accessed {t : NetRx} (h : s.Lossless) (hs : s.Accessed t) : t.Lossless := by
  cases hs with
  | goto hold hnew hok => exact h.goto hok
  | readStore hpc hring hunread =>
    refine h.leave rfl rfl rfl hring ?_ rfl ?_ trivial
    · rw [hunread]
      rfl
    · intro hnot
      have hnil := h.unarmed hnot
      rw [hunread] at hnil
      cases hnil
  | flushLoad hpc =>
    refine h.goto ⟨h.inRing.2, ?_⟩
    rw [NetRx.unread, RingBuffer.length_contents]
  | flushStore hpc hring hunread =>
    refine h.leave rfl (rxReceived_discarded _) (rxDropped_discarded _) hring ?_ rfl ?_ trivial
    · rw [rxGone_discarded, ← hunread]
      rfl
    · intro hnot
      rw [h.unarmed hnot] at hunread
      exact (List.append_eq_nil_iff.mp hunread).2
  | readFifo hpc hnot hfifo => exact h.fifoOut hnot hfifo (.returned (some _)) rfl rfl rfl hnot
  | flushFifo hpc hnot hfifo => exact h.fifoOut hnot hfifo (.discarded (some _)) rfl rfl rfl hnot
  | flushFifoDone hpc hnot hfifo =>
    exact h.leave rfl rfl rfl h.inRing rfl rfl h.unarmed trivial

theorem access {t : NetRx} (h : s.Lossless) (hs : s.access = some t) : t.Lossless :=
  h.accessed (access_cases h.inRing h.pcOk hs)

theorem step {e : NetEvent} {t : NetRx} (h : s.Lossless) (hs : RxStep s e t) : t.Lossless := by
  cases hs.did with
  | arrive val => exact h.arrive val
  | netRxIrq harm => exact h.netRxIrq harm
  | rxIrqEnable hpc => exact h.rxIrqEnable hpc
  | netRead max hpc =>
    refine h.goto ?_
    unfold PcOk
    dsimp only
    cases s.irqInited with
    | true => trivial
    | false => rfl
  | netRxFlush hpc =>
    refine h.leave rfl rfl rfl h.inRing rfl rfl h.unarmed ?_
    unfold PcOk
    dsimp only
    cases s.irqInited with
    | true => rfl
    | false => rfl
  | access haccess => exact h.access haccess
  | accessOther hpc hmore =>
    refine h.goto ⟨h.inRing.2, ?_⟩
    rw [NetRx.unread, RingBuffer.length_contents]

/-- The run lemma. -/
theorem run {l : List NetEvent} {t : NetRx} (h : s.Lossless) (r : Run RxStep s l t) : t.Lossless :=
  r.invariant (fun _ _ _ hs hstep => hs.step hstep) h

end Lossless

end NetRx

/-! ## The law -/

theorem rxReturned_sublist (log : List RxLog) : (rxReturned log).Sublist (rxGone log) := by
  induction log with
  | nil => exact .slnil
  | cons e log ih =>
    cases e with
    | returned slot => exact ih.cons_cons slot
    | discarded slot => exact ih.cons slot
    | received b => exact ih
    | dropped b k => exact ih
    | flushCalled => exact ih
    | flushReturned => exact ih

/-- **The ring loses nothing until it is full.** What has been returned or discarded, what is in the
ring and what is in the FIFO still is, in the order of arrival, what has been received and not
dropped; a byte is dropped only with all slots but one taken, and the drops are counted. -/
theorem rx_lossless {l : List NetEvent} {t : NetRx} (r : Run RxStep .boot l t) :
    (t.tail.toNat < rxRingSize ∧ t.head.toNat < rxRingSize) ∧
    (rxGone t.log ++ t.unread ++ t.fifo.map some = (rxKept t.log).map some ∧
      (rxReceived t.log).map RxByte.no = List.range (rxReceived t.log).length) ∧
    ((∀ b k, .dropped b k ∈ t.log → k = rxRingSize - 1) ∧
      t.overruns = UInt32.ofNat (rxDropped t.log).length) ∧
    (rxReturned t.log).Nodup ∧
    ∀ slot ∈ rxReturned t.log, ∃ b, slot = some b ∧ .received b ∈ t.log := by
  have h := NetRx.Lossless.boot.run r
  have hreturned := rxReturned_sublist t.log
  have hnodup : ((rxKept t.log).map some).Nodup :=
    h.nodup_kept.map fun _ _ heq => Option.some.inj heq
  rw [← h.queue, List.append_assoc] at hnodup
  refine ⟨h.inRing, ⟨h.queue, h.numbered⟩, ⟨h.full, h.overruns⟩, ?_, ?_⟩
  · exact hreturned.nodup (List.nodup_append.mp hnodup).1
  · intro slot hslot
    refine h.received_of_mem ?_
    rw [List.append_assoc]
    exact List.mem_append_left _ (hreturned.subset hslot)

/-- Three bytes, one read and one flush, with the second byte moved to the ring in the middle of the
read and the third in the middle of the flush. -/
def threeBytes : List NetEvent :=
  [.rxIrqEnable, .arrive 0x41, .netRxIrq, .netRead 1, .access, .arrive 0x42, .netRxIrq, .access,
    .access, .access, .access, .access, .access, .netRxFlush, .access, .arrive 0x43, .netRxIrq,
    .access]

theorem rx_lossless_threeBytes : ∃ t, Run RxStep .boot threeBytes t ∧
    t.log = [.received ⟨0x41, 0⟩, .received ⟨0x42, 1⟩, .returned (some ⟨0x41, 0⟩), .flushCalled,
      .received ⟨0x43, 2⟩, .discarded (some ⟨0x42, 1⟩), .flushReturned] ∧
    rxGone t.log ++ t.unread ++ t.fifo.map some =
      [some ⟨0x41, 0⟩, some ⟨0x42, 1⟩, some ⟨0x43, 2⟩] := by
  have hlog : (threeBytes.foldlM NetRx.next .boot).map NetRx.log =
      some [.received ⟨0x41, 0⟩, .received ⟨0x42, 1⟩, .returned (some ⟨0x41, 0⟩), .flushCalled,
        .received ⟨0x43, 2⟩, .discarded (some ⟨0x42, 1⟩), .flushReturned] := by
    decide +kernel
  obtain ⟨t, hrun, hlog⟩ := Option.map_eq_some_iff.mp hlog
  have r : Run RxStep .boot threeBytes t := .of_foldlM hrun
  refine ⟨t, r, hlog, (rx_lossless r).2.1.1.trans ?_⟩
  rw [hlog]
  decide +kernel

end EthPanel
