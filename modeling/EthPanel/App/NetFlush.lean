import EthPanel.App.Net

/-!
# `net/net.c`: what a flush leaves behind

`net_rx_flush` promises to discard what has come in, the UART FIFO included, so that nothing from
one client is read as the next one's. With the IRQ armed it moves `s_rx_tail` and no more: a byte in
the FIFO at that moment is moved to the ring by the next interrupt, and read (`flush_leaves_fifo`).
A flush that finds no such byte in the FIFO when it loads `s_rx_head` keeps the promise, whatever
comes in between its load and its store (`flush_discards`); one that does can be followed by a read
that breaks it (`flush_leaves_stale`).
-/

namespace EthPanel

open Lts

/-- The UART had received the byte before no call of `net_rx_flush` so far. -/
def RxByte.SinceFlush (log : List RxLog) (b : RxByte) : Prop :=
  ∀ before after, log = before ++ .flushCalled :: after → .received b ∉ before

/-- Nothing received before a call is returned after it. -/
def NothingStale (log : List RxLog) : Prop :=
  ∀ before after, log = before ++ .flushCalled :: after →
    ∀ b, .received b ∈ before → .returned (some b) ∉ after

/-- Nothing received after a flush has returned was discarded by it. -/
def NothingLost (log : List RxLog) : Prop :=
  ∀ before after, log = before ++ .flushReturned :: after →
    ∀ b, .received b ∈ after → .discarded (some b) ∉ before

/-- A flush that loads `s_rx_head` finds no byte in the FIFO that was received before its call. -/
def FlushFindsAll (s : NetRx) (e : NetEvent) : Prop :=
  s.pc = .flushLoad → e = .access → ∀ b ∈ s.fifo, b.SinceFlush s.log

/-! ## The log -/

section Log

variable {log l : List RxLog} {b : RxByte}

theorem RxByte.SinceFlush.append (h : b.SinceFlush log) (hl : .flushCalled ∉ l) :
    b.SinceFlush (log ++ l) := by
  intro before after heq
  obtain ⟨rest, -, hlog⟩ := split_append_old hl heq
  exact h before rest hlog

theorem RxByte.SinceFlush.of_new (hnew : .received b ∉ log) : b.SinceFlush log := by
  intro before after heq hmem
  rw [heq] at hnew
  exact hnew (List.mem_append_left _ hmem)

theorem NothingStale.append (h : NothingStale log) (hl : ∀ slot, .returned slot ∉ l) :
    NothingStale (log ++ l) := by
  intro before after heq b hb hmem
  rcases split_append heq with ⟨rest, rfl, hlog⟩ | ⟨rest, -, hnew⟩
  · rcases List.mem_append.mp hmem with hmem | hmem
    · exact h before rest hlog b hb hmem
    · exact hl _ hmem
  · refine hl (some b) ?_
    rw [hnew]
    exact List.mem_append_right _ (List.mem_cons_of_mem _ hmem)

theorem NothingStale.returned (h : NothingStale log) (hb : b.SinceFlush log) :
    NothingStale (log ++ [.returned (some b)]) := by
  intro before after heq b' hb' hmem
  obtain ⟨rest, rfl, hlog⟩ := split_append_old (by simp) heq
  rcases List.mem_append.mp hmem with hmem | hmem
  · exact h before rest hlog b' hb' hmem
  · obtain rfl : b' = b := by simpa using hmem
    exact hb before rest hlog hb'

end Log

namespace NetRx

/-- What is received is received once, and before it is discarded. -/
theorem Lossless.nothingLost {s : NetRx} (h : s.Lossless) : NothingLost s.log := by
  intro before after heq b hafter hbefore
  obtain ⟨front, rest, rfl⟩ := List.append_of_mem hbefore
  obtain ⟨b', hb', hfront⟩ := h.causal front (some b) (rest ++ .flushReturned :: after) (by
    rw [heq, List.append_assoc, List.cons_append])
  obtain rfl := Option.some.inj hb'
  have hnodup := h.nodup_received
  rw [heq, rxReceived_append, rxReceived_append, List.append_assoc] at hnodup
  refine (List.nodup_append.mp hnodup).2.2 b (mem_rxReceived.mpr hfront) b ?_ rfl
  refine List.mem_append_right _ (mem_rxReceived.mpr ?_)
  exact List.mem_cons_of_mem _ hafter

/-- How many bytes of the ring the flush under way discards; `none` if it may be all there are, and
the FIFO's too. -/
def skip (pc : RxPc) (tail : UInt32) : Option ℕ :=
  match pc with
  | .flushLoad | .flushFifo => none
  | .flushStore head => some (RingBuffer.unread rxRingSize tail.toNat head.toNat)
  | _ => some 0

theorem skip_of_outsideFlush {pc : RxPc} {tail : UInt32} (h : pc.outsideFlush = true) :
    skip pc tail = some 0 := by
  cases pc <;> first | rfl | cases h

/-- What is left then. -/
def left (s : NetRx) : List (Option RxByte) :=
  match skip s.pc s.tail with
  | none => []
  | some k => s.unread.drop k ++ s.fifo.map some

/-- What holds at every moment, if all flushes find all. -/
structure Flushed (s : NetRx) : Prop where
  lossless : s.Lossless
  since : ∀ b, some b ∈ s.left → b.SinceFlush s.log
  nothingStale : NothingStale s.log

theorem Flushed.boot : Flushed .boot where
  lossless := .boot
  since := fun _ h => nomatch h
  nothingStale := fun before _ heq => by simp [NetRx.boot] at heq

namespace Flushed

variable {s t : NetRx}

/-- A step that returns nothing, after which nothing else is left but what is new. -/
theorem keep {l : List RxLog} (h : s.Flushed) (ht : t.Lossless) (hlog : t.log = s.log ++ l)
    (hl : .flushCalled ∉ l) (hr : ∀ slot, .returned slot ∉ l)
    (hleft : ∀ b, some b ∈ t.left → some b ∈ s.left ∨ .received b ∉ s.log) : t.Flushed := by
  refine ⟨ht, fun b hb => ?_, ?_⟩
  · rw [hlog]
    rcases hleft b hb with hold | hnew
    · exact (h.since b hold).append hl
    · exact (RxByte.SinceFlush.of_new hnew).append hl
  · rw [hlog]
    exact h.nothingStale.append hr

/-- The same away from the main thread. -/
theorem keepAside {l : List RxLog} (h : s.Flushed) (ht : t.Lossless) (hlog : t.log = s.log ++ l)
    (hl : .flushCalled ∉ l) (hr : ∀ slot, .returned slot ∉ l) (hpc : t.pc = s.pc)
    (htail : t.tail = s.tail) (hqueue : ∀ k b, some b ∈ t.unread.drop k ++ t.fifo.map some →
      some b ∈ s.unread.drop k ++ s.fifo.map some ∨ .received b ∉ s.log) : t.Flushed := by
  refine h.keep ht hlog hl hr fun b hb => ?_
  unfold left at hb ⊢
  rw [hpc, htail] at hb
  cases hskip : skip s.pc s.tail with
  | none =>
    rw [hskip] at hb
    exact nomatch hb
  | some k =>
    rw [hskip] at hb
    exact hqueue k b hb

theorem arrive (h : s.Flushed) (val : UInt8) : (s.arrive val).Flushed := by
  refine h.keepAside (h.lossless.arrive val) rfl (by simp) (by simp) rfl rfl fun k b hb => ?_
  have hnew : .received ⟨val, (rxReceived s.log).length⟩ ∉ s.log := fun hmem =>
    Nat.lt_irrefl _ (h.lossless.no_lt hmem)
  rw [show (s.arrive val).fifo.map some = s.fifo.map some ++ [some _] from List.map_append,
    ← List.append_assoc] at hb
  rcases List.mem_append.mp hb with hold | hb
  · exact .inl hold
  · obtain rfl := Option.some.inj (List.mem_singleton.mp hb)
    exact .inr hnew

theorem took {c : RxByte} {rest : List RxByte} (h : s.Flushed) (hfifo : s.fifo = c :: rest)
    (harm : s.irqInited = true) (htook : s.Took c t) : t.Flushed := by
  have ht := h.lossless.took hfifo harm htook
  cases htook with
  | stored hunread hring htail hpc hlog hoverruns harmed hrest =>
    refine h.keepAside (l := []) ht (by rw [hlog, List.append_nil]) (by simp) (by simp) hpc htail
      fun k b hb => .inl ?_
    rw [hunread, hrest, hfifo, List.tail_cons, List.drop_append, List.append_assoc] at hb
    rw [hfifo, List.map_cons]
    rcases List.mem_append.mp hb with hold | hb
    · exact List.mem_append_left _ hold
    · refine List.mem_append_right _ ?_
      rcases List.mem_append.mp hb with hc | hb
      · rw [List.mem_singleton.mp (List.mem_of_mem_drop hc)]
        exact List.mem_cons_self
      · exact List.mem_cons_of_mem _ hb
  | dropped hfull =>
    refine h.keepAside ht rfl (by simp) (by simp) rfl rfl fun k b hb => .inl ?_
    rcases List.mem_append.mp hb with hold | hb
    · exact List.mem_append_left _ hold
    · refine List.mem_append_right _ ?_
      rw [hfifo] at hb ⊢
      exact List.mem_cons_of_mem _ hb

theorem netRxIrq (h : s.Flushed) (harm : s.irqInited = true) : s.netRxIrq.Flushed :=
  netRxIrq_induction (fun hs => hs.lossless.inRing) (fun hs => hs.took) h harm

theorem goto {pc : RxPc} (h : s.Flushed) (ht : Lossless { s with pc := pc })
    (hskip : skip pc s.tail = skip s.pc s.tail) : Flushed { s with pc := pc } := by
  refine h.keep (l := []) ht (List.append_nil _).symm (by simp) (by simp) fun b hb => .inl ?_
  unfold left at hb ⊢
  rwa [hskip] at hb

/-- A byte that was left is returned. -/
theorem returned {b : RxByte} (h : s.Flushed) (ht : t.Lossless)
    (hlog : t.log = s.log ++ [.returned (some b)]) (hb : some b ∈ s.left)
    (hleft : ∀ b', some b' ∈ t.left → some b' ∈ s.left) : t.Flushed := by
  refine ⟨ht, fun b' hb' => ?_, ?_⟩
  · rw [hlog]
    exact (h.since b' (hleft b' hb')).append (by simp)
  · rw [hlog]
    exact h.nothingStale.returned (h.since b hb)

theorem left_of_outsideFlush (hpc : s.pc.outsideFlush = true) :
    s.left = s.unread ++ s.fifo.map some := by
  unfold left
  rw [skip_of_outsideFlush hpc]
  rfl

theorem accessed {e : NetEvent} (h : s.Flushed) (he : e = .access) (hok : FlushFindsAll s e)
    (hs : s.Accessed t) : t.Flushed := by
  have ht := h.lossless.accessed hs
  cases hs with
  | goto hold hnew =>
    exact h.goto ht ((skip_of_outsideFlush hnew).trans (skip_of_outsideFlush hold).symm)
  | readStore hpc hring hunread =>
    have hleft : s.left = s.unread ++ s.fifo.map some := left_of_outsideFlush (by rw [hpc]; rfl)
    rw [hunread] at hleft
    obtain ⟨b, rfl, -⟩ := h.lossless.received_unread (by rw [hunread]; exact List.mem_cons_self)
    refine h.returned ht rfl (by rw [hleft]; exact List.mem_cons_self) fun b' hb' => ?_
    rw [hleft]
    exact List.mem_cons_of_mem _ hb'
  | flushLoad hpc =>
    -- The flush will discard the ring, and the FIFO has nothing stale.
    refine ⟨ht, fun b hb => ?_, h.nothingStale⟩
    have hleft : left { s with pc := .flushStore s.head } = s.fifo.map some := by
      show s.unread.drop (RingBuffer.unread rxRingSize s.tail.toNat s.head.toNat) ++ _ = _
      rw [List.drop_eq_nil_of_le (by rw [unread, RingBuffer.length_contents]), List.nil_append]
    rw [hleft] at hb
    obtain ⟨b', hb', heq⟩ := List.mem_map.mp hb
    rw [← Option.some.inj heq]
    exact hok hpc he b' hb'
  | flushStore hpc hring hunread =>
    refine h.keep ht rfl (by simp) (by simp) fun b hb => .inl ?_
    unfold left
    rw [hpc, skip, ← hunread]
    dsimp only
    rw [List.drop_left' RingBuffer.length_contents]
    exact hb
  | @readFifo max n c fifo hpc hnot hfifo =>
    have hleft : s.left = s.unread ++ s.fifo.map some := left_of_outsideFlush (by rw [hpc]; rfl)
    refine h.returned ht rfl (by simp [hleft, hfifo]) fun b' hb' => ?_
    rw [hleft, hfifo]
    rcases List.mem_append.mp hb' with hb' | hb'
    · exact List.mem_append_left _ hb'
    · exact List.mem_append_right _ (List.mem_cons_of_mem _ hb')
  | flushFifo hpc hnot hfifo => exact h.keep ht rfl (by simp) (by simp) fun b hb => by cases hb
  | flushFifoDone hpc hnot hfifo =>
    refine h.keep ht rfl (by simp) (by simp) fun b hb => ?_
    rw [left_of_outsideFlush rfl] at hb
    rw [show unread { s with pc := .idle, log := s.log ++ [.flushReturned] } = [] from
      h.lossless.unarmed hnot, show s.fifo = [] from hfifo] at hb
    cases hb

theorem rxIrqEnable (h : s.Flushed) (hpc : s.pc = .idle) : s.rxIrqEnable.Flushed := by
  have ht := h.lossless.rxIrqEnable hpc
  unfold NetRx.rxIrqEnable at ht ⊢
  split
  · exact h
  · rename_i hnot
    rw [if_neg hnot] at ht
    refine h.keep (l := []) ht (List.append_nil _).symm (by simp) (by simp) fun b hb => .inl ?_
    have hleft : s.left = s.unread ++ s.fifo.map some := left_of_outsideFlush (by rw [hpc]; rfl)
    have hnil : unread { s with head := 0, tail := 0, irqInited := true } = [] :=
      unread_of_zero rfl rfl
    rw [left_of_outsideFlush (by dsimp only; rw [hpc]; rfl), hnil] at hb
    rw [hleft]
    exact List.mem_append_right _ hb

theorem step {e : NetEvent} (h : s.Flushed) (hs : Guarded RxStep FlushFindsAll s e t) :
    t.Flushed := by
  obtain ⟨hs, hok⟩ := hs
  have ht := h.lossless.step hs
  cases hs.did with
  | arrive val => exact h.arrive val
  | netRxIrq harm => exact h.netRxIrq harm
  | rxIrqEnable hpc => exact h.rxIrqEnable hpc
  | netRead max hpc =>
    refine h.goto ht ?_
    rw [hpc]
    split <;> rfl
  | netRxFlush hpc =>
    refine ⟨ht, fun b hb => ?_, h.nothingStale.append (by simp)⟩
    unfold left at hb
    dsimp only at hb
    cases harm : s.irqInited with
    | true =>
      rw [harm] at hb
      exact nomatch hb
    | false =>
      rw [harm] at hb
      exact nomatch hb
  | access haccess =>
    exact h.accessed rfl hok (access_cases h.lossless.inRing h.lossless.pcOk haccess)
  | accessOther hpc hmore => exact h.goto ht (by rw [hpc]; rfl)

theorem run {l : List NetEvent} (h : s.Flushed) (r : Run (Guarded RxStep FlushFindsAll) s l t) :
    t.Flushed :=
  r.invariant (fun _ _ _ hs hstep => hs.step hstep) h

end Flushed

end NetRx

/-! ## The law -/

/-- One byte, which is in the FIFO when a flush runs. -/
def byteInFifo : List NetEvent :=
  [.rxIrqEnable, .arrive 0x41, .netRxFlush, .access, .access, .netRxIrq, .netRead 1, .access,
    .access, .access, .access, .access, .access]

/-- It is returned after the flush. -/
theorem flush_leaves_fifo : ¬ ∀ l t, Run RxStep .boot l t →
    NothingStale t.log ∧ NothingLost t.log := by
  intro hall
  have hlog : (byteInFifo.foldlM NetRx.next .boot).map NetRx.log =
      some ([.received ⟨0x41, 0⟩] ++ .flushCalled ::
        [.flushReturned, .returned (some ⟨0x41, 0⟩)]) := by
    decide +kernel
  obtain ⟨t, hrun, hlog⟩ := Option.map_eq_some_iff.mp hlog
  have hstale := (hall byteInFifo t (.of_foldlM hrun)).1
  exact hstale _ _ hlog ⟨0x41, 0⟩ (by simp) (by simp)

/-- **A flush discards what has come in**, in every run whose flushes find none of it in the FIFO
any more; and it never discards what comes later. -/
theorem flush_discards {l : List NetEvent} {t : NetRx}
    (r : Run (Guarded RxStep FlushFindsAll) .boot l t) :
    NothingStale t.log ∧ NothingLost t.log := by
  have h := NetRx.Flushed.boot.run r
  exact ⟨h.nothingStale, h.lossless.nothingLost⟩

/-- The same byte with the interrupt before the flush, and one more byte, which comes between the
load of the flush and its store. -/
def byteInRing : List NetEvent :=
  [.rxIrqEnable, .arrive 0x41, .netRxIrq, .netRxFlush, .access, .arrive 0x42, .netRxIrq, .access,
    .netRead 1, .access, .access, .access, .access, .access, .access]

theorem flush_discards_byteInRing : ∃ t, Run (Guarded RxStep FlushFindsAll) .boot byteInRing t ∧
    NothingStale t.log ∧ NothingLost t.log := by
  have r : Run (Guarded RxStep FlushFindsAll) .boot byteInRing _ :=
    .cons ⟨rfl, fun h => nomatch h⟩ (.cons ⟨rfl, fun h => nomatch h⟩
      (.cons ⟨rfl, fun h => nomatch h⟩
      (.cons ⟨rfl, fun h => nomatch h⟩ (.cons ⟨rfl, fun _ _ _ hb => nomatch hb⟩
        (.cons ⟨rfl, fun h => nomatch h⟩ (.cons ⟨rfl, fun h => nomatch h⟩
          (.cons ⟨rfl, fun h => nomatch h⟩ (.cons ⟨rfl, fun h => nomatch h⟩
            (.cons ⟨rfl, fun h => nomatch h⟩ (.cons ⟨rfl, fun h => nomatch h⟩
              (.cons ⟨rfl, fun h => nomatch h⟩ (.cons ⟨rfl, fun h => nomatch h⟩
                (.cons ⟨rfl, fun h => nomatch h⟩ (.cons ⟨rfl, fun h => nomatch h⟩
                  (.nil _)))))))))))))))
  exact ⟨_, r, flush_discards r⟩

/-! ## The condition is exact -/

namespace NetRx

namespace Lossless

variable {s : NetRx}

theorem pairwise_received (h : s.Lossless) :
    (rxReceived s.log).Pairwise fun b b' => b.no < b'.no := by
  rw [← List.pairwise_map, h.numbered]
  exact List.pairwise_lt_range

/-- The FIFO is in the order of arrival. -/
theorem pairwise_fifo (h : s.Lossless) : s.fifo.Pairwise fun b b' => b.no < b'.no := by
  obtain ⟨before, fresh, hkept, -, hfresh⟩ := List.map_eq_append_iff.mp h.queue.symm
  obtain rfl : fresh = s.fifo :=
    List.map_injective_iff.mpr (fun _ _ heq => Option.some.inj heq) hfresh
  have hpairwise : (rxKept s.log).Pairwise fun b b' => b.no < b'.no :=
    h.pairwise_received.filter _
  rw [hkept] at hpairwise
  exact (List.pairwise_append.mp hpairwise).2.1

/-- If any byte of the FIFO is stale, the first one is. -/
theorem stale_first {b c : RxByte} {rest : List RxByte} (h : s.Lossless)
    (hfifo : s.fifo = c :: rest) (hb : b ∈ s.fifo) {before after : List RxLog}
    (hlog : s.log = before ++ .flushCalled :: after) (hstale : .received b ∈ before) :
    .received c ∈ before := by
  have hpairwise := h.pairwise_fifo
  rw [hfifo] at hb hpairwise
  rcases List.mem_cons.mp hb with rfl | hb
  · exact hstale
  · have hlt := (List.pairwise_cons.mp hpairwise).1 b hb
    have hmem := h.received_fifo (b := c) (by simp [hfifo])
    rw [hlog] at hmem
    rcases List.mem_append.mp hmem with hmem | hmem
    · exact hmem
    · have horder := h.pairwise_received
      rw [hlog, rxReceived_append] at horder
      have hlt' := (List.pairwise_append.mp horder).2.2 b (mem_rxReceived.mpr hstale) c
        (mem_rxReceived.mpr hmem)
      omega

/-- The handler puts the first byte of the FIFO into an empty ring. -/
theorem netRxIrq_first {c : RxByte} {rest : List RxByte} (h : s.Lossless)
    (harm : s.irqInited = true) (hpc : s.pc = .idle) (hempty : s.unread = [])
    (hfifo : s.fifo = c :: rest) : s.netRxIrq.unread.head? = some (some c) ∧
      s.netRxIrq.pc = .idle ∧ s.netRxIrq.irqInited = true ∧ ∃ l, s.netRxIrq.log = s.log ++ l := by
  have htook := irqByte_took h.inRing c
  have hcons : s.netRxIrq = (s.irqByte c).netRxIrq := by
    unfold NetRx.netRxIrq
    rw [htook.fifo, hfifo]
    rfl
  have hfirst : (s.irqByte c).Lossless ∧ (s.irqByte c).unread.head? = some (some c) ∧
      (s.irqByte c).pc = .idle ∧ (s.irqByte c).irqInited = true ∧
      ∃ l, (s.irqByte c).log = s.log ++ l := by
    have ht := h.took hfifo harm htook
    generalize s.irqByte c = t at htook ht ⊢
    cases htook with
    | stored hunread hring htail hpc' hlog hoverruns harmed hrest =>
      refine ⟨ht, ?_, hpc'.trans hpc, harmed.trans harm, [], ?_⟩
      · rw [hunread, hempty]
        rfl
      · rw [hlog, List.append_nil]
    | dropped hfull =>
      rw [hempty] at hfull
      exact absurd hfull (by decide)
  rw [hcons]
  refine (netRxIrq_induction (P := fun t => t.Lossless ∧ t.unread.head? = some (some c) ∧
    t.pc = .idle ∧ t.irqInited = true ∧ ∃ l, t.log = s.log ++ l) (fun ht => ht.1.inRing) ?_ hfirst
    hfirst.2.2.2.1).2
  rintro t ⟨ht, hhead, hidle, harmed, l, hlog⟩ c' rest' u hfifo' _ htook'
  have hu := ht.took hfifo' harmed htook'
  cases htook' with
  | stored hunread hring htail hpc' hlog' hoverruns harmed' hrest =>
    refine ⟨hu, ?_, hpc'.trans hidle, harmed'.trans harmed, l, hlog'.trans hlog⟩
    rw [hunread, List.head?_append, hhead]
    rfl
  | dropped hfull =>
    refine ⟨hu, hhead, hidle, harmed, l ++ [.dropped c' (rxRingSize - 1)], ?_⟩
    rw [hlog, List.append_assoc]

/-- A flush that no interrupt comes into. -/
theorem flush_now (h : s.Lossless) (hpc : s.pc = .flushLoad) :
    ∃ t, Run RxStep s [.access, .access] t ∧ t.unread = [] ∧ t.fifo = s.fifo ∧ t.pc = .idle ∧
      t.irqInited = s.irqInited ∧ ∃ l, t.log = s.log ++ l := by
  have hload : RxStep s .access { s with pc := .flushStore s.head } := by
    simp [RxStep, next, NetRx.access, hpc]
  have r : Run RxStep s [.access, .access] _ := .cons hload (.cons rfl (.nil _))
  exact ⟨_, r, (h.run r).inRing.unread_eq_nil.mpr rfl, rfl, rfl, rfl, _, rfl⟩

/-- The loop of `net_read` for `m` more bytes, with no interrupt in it. -/
theorem netRead_loop {m : ℕ} {max : ℤ} {n : ℕ} (h : s.Lossless) (hpc : s.pc = .readTest max n)
    (hmax : max = n + m) : ∃ k t, Run RxStep s (List.replicate k .access) t ∧
      t.unread = s.unread.drop m ∧
      t.log = s.log ++ (s.unread.take m).map .returned ∧ t.pc = .idle ∧
      t.irqInited = s.irqInited ∧ t.fifo = s.fifo := by
  induction m generalizing s n with
  | zero =>
    have hstep : RxStep s .access { s with pc := .idle } := by
      simp [RxStep, next, NetRx.access, hpc, hmax]
    exact ⟨1, _, .single hstep, rfl, (List.append_nil _).symm, rfl, rfl, rfl⟩
  | succ m ih =>
    have hlt : (n : ℤ) < max := by omega
    have htest : RxStep s .access { s with pc := .readHead max n s.tail } := by
      simp [RxStep, next, NetRx.access, hpc, hlt]
    by_cases hempty : s.unread = []
    · have hnone : RxStep { s with pc := .readHead max n s.tail } .access
          { s with pc := .idle } := by
        simp [RxStep, next, NetRx.access, h.inRing.unread_eq_nil.mp hempty]
      refine ⟨2, _, .cons htest (.single hnone), ?_, ?_, rfl, rfl, rfl⟩
      · show s.unread = s.unread.drop (m + 1)
        rw [hempty, List.drop_nil]
      · rw [hempty, List.take_nil]
        exact (List.append_nil _).symm
    · have hne : s.tail ≠ s.head := fun heq => hempty (h.inRing.unread_eq_nil.mpr heq)
      have hsome : RxStep { s with pc := .readHead max n s.tail } .access
          { s with pc := .readIndex max n } := by
        simp [RxStep, next, NetRx.access, hne]
      have hread : Run RxStep s (List.replicate 6 .access) { s with
          tail := (s.tail + 1) &&& rxRingMask
          pc := .readTest max (n + 1)
          log := s.log ++ [.returned (s.ring s.tail.toNat)] } :=
        .cons htest (.cons hsome (.cons rfl (.cons rfl (.cons rfl (.cons rfl (.nil _))))))
      obtain ⟨k, t, r, hunread, hlog, hrest⟩ := ih (h.run hread) rfl (by omega)
      have hcons := h.inRing.unread_cons hempty
      have hall := hread.append r
      rw [List.replicate_append_replicate] at hall
      refine ⟨6 + k, t, hall, ?_, ?_, hrest⟩
      · rw [hunread, hcons, List.drop_succ_cons]
        rfl
      · rw [hlog, hcons, List.take_succ_cons, List.map_cons, List.append_assoc]
        rfl

/-- A call of `net_read` that no interrupt comes into. -/
theorem netRead_now (h : s.Lossless) (harm : s.irqInited = true) (hpc : s.pc = .idle) (m : ℕ) :
    ∃ k t, Run RxStep s (.netRead m :: List.replicate k .access) t ∧
      t.unread = s.unread.drop m ∧ t.log = s.log ++ (s.unread.take m).map .returned ∧
      t.pc = .idle ∧ t.irqInited = true ∧ t.fifo = s.fifo := by
  have hcall : RxStep s (.netRead m) { s with pc := .readTest m 0 } := by
    simp [RxStep, next, hpc, harm]
  obtain ⟨k, t, r, hunread, hlog, hidle, harmed, hfifo⟩ :=
    (h.step hcall).netRead_loop (m := m) rfl (by omega)
  exact ⟨k, t, .cons hcall r, hunread, hlog, hidle, harmed.trans harm, hfifo⟩

end Lossless

end NetRx

/-- **Where the condition fails the promise does**: a flush that has loaded `s_rx_head` with a byte
in the FIFO that was received before its call can be followed by an interrupt and a read that
returns such a byte. -/
theorem flush_leaves_stale {l : List NetEvent} {s : NetRx} (r : Run RxStep .boot l s)
    (hfails : ¬ FlushFindsAll s .access) :
    ∃ k t, Run RxStep s k t ∧ ¬ NothingStale t.log := by
  have h := NetRx.Lossless.boot.run r
  simp only [FlushFindsAll, RxByte.SinceFlush, not_forall, not_not] at hfails
  obtain ⟨hpc, -, b, hb, before, after, hlog, hstale⟩ := hfails
  have harm : s.irqInited = true := by
    have hpcOk := h.pcOk
    unfold NetRx.PcOk at hpcOk
    rwa [hpc] at hpcOk
  cases hfifo : s.fifo with
  | nil =>
    rw [hfifo] at hb
    exact nomatch hb
  | cons c rest =>
    have hc := h.stale_first hfifo hb hlog hstale
    obtain ⟨s₂, hflush, hempty, hfifo₂, hidle₂, harm₂, l₂, hlog₂⟩ := h.flush_now hpc
    have h₂ := h.run hflush
    have hirq : RxStep s₂ .netRxIrq s₂.netRxIrq := if_pos (harm₂.trans harm)
    obtain ⟨hfirst, hidle, harmed, l₃, hlog₃⟩ := h₂.netRxIrq_first (harm₂.trans harm) hidle₂ hempty
      (hfifo₂.trans hfifo)
    obtain ⟨_, t, hread, -, hlog₄, -⟩ := (h₂.step hirq).netRead_now harmed hidle 1
    obtain ⟨more, hunread⟩ := List.head?_eq_some_iff.mp hfirst
    refine ⟨_, t, hflush.append (.cons hirq hread), fun hnone => ?_⟩
    rw [hunread, hlog₃, hlog₂, hlog, List.append_assoc, List.append_assoc, List.append_assoc,
      List.cons_append] at hlog₄
    exact hnone before _ hlog₄ c hc (by simp)

end EthPanel
