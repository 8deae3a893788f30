import EthPanel.App.Lines
import EthPanel.Lib.Run

/-!
# `main.c`: the super-loop and its connections

One pass of the loop samples the TCPS pin, resets the line accumulator and the receive ring at a
connect edge, and later feeds what `net_read` brings to the accumulator; between any two of these
the receive interrupt can put bytes into the ring, and the client can go and another come. The
pin is sampled, not modelled: it may show any level at any pass, as it does on units whose pin
never asserts.

Every byte carries the number of the connection it came in on, which the program does not see.
`Isolated` is what keeping connections apart means. It fails without an edge between two
connections (`isolated_half_line`). In a run in which no half-line is carried into another
connection every line is one connection's (`Unmixed.run`), whatever is lost; and if no connect edge
is seen after bytes of its connection and the ring does not overrun, no first command is lost either
(`Apart.run`).

Buttons, rings and the status LED share the pass and none of this state; what `dispatch` does
with its line has no part here either. `App/LoopPair.lean` runs the whole pass beside this one.
-/

namespace EthPanel

open Lts

structure Tagged where
  conn : ℕ
  byte : UInt8
  deriving DecidableEq

inductive LoopOut (β : Type*)
  /-- `send_hello` at a connect edge. -/
  | hello
  | line (out : LineOut β)
  deriving DecidableEq

def LoopOut.map {β γ : Type*} (f : β → γ) : LoopOut β → LoopOut γ
  | .hello => .hello
  | .line out => .line (out.map f)

structure SuperLoop where
  peerWasConnected : Bool
  /-- The pass has sampled the pin and not yet read. -/
  polled : Bool
  /-- `s_rx_ring` from `s_rx_tail` to `s_rx_head`. -/
  ring : List Tagged
  line : LineState Tagged
  -- What the program does not see: the connection there is, what it has sent so far, the last
  -- byte read since the last reset, and what the program has done.
  conn : ℕ
  received : List UInt8
  last : Option Tagged
  done : List (LoopOut Tagged)

/-- The head of the loop, the first time. -/
def SuperLoop.start : SuperLoop := ⟨false, false, [], .fresh, 0, [], none, []⟩

/-- `RX_RING_SIZE`. -/
def rxRingSize : ℕ := 2048

/-- `sizeof(rxbuf)`. -/
def rxbufSize : ℕ := 128

inductive LoopEvent
  /-- The client goes, and another connects. -/
  | accept
  /-- `net_rx_irq` takes a byte. -/
  | rx (b : UInt8)
  /-- The pass samples the pin: is the peer connected? -/
  | poll (peer : Bool)
  /-- `net_read`, and the loop over its bytes. -/
  | read
  deriving DecidableEq

namespace SuperLoop

def accept (s : SuperLoop) : SuperLoop := { s with conn := s.conn + 1, received := [] }

/-- `net_rx_irq`: one slot of the ring stays free, and what does not fit is dropped. -/
def rx (s : SuperLoop) (b : UInt8) : SuperLoop :=
  { s with
    ring := if s.ring.length + 1 < rxRingSize then s.ring ++ [⟨s.conn, b⟩] else s.ring
    received := s.received ++ [b] }

/-- The connect edge: `net_rx_flush`, `send_hello`, and a fresh line. -/
def reset (s : SuperLoop) : SuperLoop :=
  { s with ring := [], line := .fresh, last := none, done := s.done ++ [.hello] }

def poll (s : SuperLoop) (peer : Bool) : SuperLoop :=
  { (if peer && !s.peerWasConnected then s.reset else s) with
    peerWasConnected := peer
    polled := true }

/-- The loop body, for the byte at the tail of the ring. -/
def eat (s : SuperLoop) (b : Tagged) : SuperLoop :=
  { s with
    ring := s.ring.tail
    line := (feed Tagged.byte s.line b).1
    last := some b
    done := s.done ++ (feed Tagged.byte s.line b).2.map .line }

def read (s : SuperLoop) : SuperLoop :=
  let rxbuf := s.ring.take rxbufSize
  { s with
    polled := false
    ring := s.ring.drop rxbufSize
    line := (feedAll Tagged.byte s.line rxbuf).1
    last := rxbuf.getLast?.or s.last
    done := s.done ++ (feedAll Tagged.byte s.line rxbuf).2.map .line }

/-- The passes alternate `poll` and `read`; the rest happens at any moment. -/
def next (s : SuperLoop) : LoopEvent → Option SuperLoop
  | .accept => some s.accept
  | .rx b => some (s.rx b)
  | .poll peer => if s.polled then none else some (s.poll peer)
  | .read => if s.polled then some s.read else none

end SuperLoop

def LoopStep (s : SuperLoop) (e : LoopEvent) (t : SuperLoop) : Prop := s.next e = some t

/-! ## The law -/

/-- Every line dispatched is one connection's. -/
def OneConnection (s : SuperLoop) : Prop :=
  ∀ line, .line (.dispatch line) ∈ s.done → ∀ b ∈ line, ∀ b' ∈ line, b.conn = b'.conn

/-- A complete command at the start of a connection, once it has been read, was dispatched as
itself. -/
def FirstDispatched (s : SuperLoop) : Prop :=
  ∀ line rest, s.received = line ++ newline :: rest → s.ring = [] →
    line ≠ [] → line.length ≤ 255 → (∀ b ∈ line, b ≠ newline ∧ b ≠ 0) →
    .line (.dispatch (line.map (Tagged.mk s.conn))) ∈ s.done

structure Isolated (s : SuperLoop) : Prop where
  single : OneConnection s
  first : FirstDispatched s

/-- **Connection isolation**: in every state that the loop reaches. -/
def ConnectionsIsolated : Prop :=
  ∀ (l : List LoopEvent) (t : SuperLoop), Run LoopStep .start l t → Isolated t

/-! ## A half-line without an edge -/

/-- A client sends `a` and goes; the next one sends `b` and a newline; the pin stays high. -/
def halfLineRun : List LoopEvent :=
  [.accept, .rx 0x61, .poll false, .read, .accept, .rx 0x62, .rx newline, .poll false, .read]

/-- **The law is false.** -/
theorem isolated_half_line : ¬ ConnectionsIsolated := by
  intro h
  have hrun : Run LoopStep .start halfLineRun _ :=
    .cons rfl (.cons rfl (.cons rfl (.cons rfl (.cons rfl (.cons rfl (.cons rfl (.cons rfl
      (.cons rfl (.nil _)))))))))
  have hmixed := (h _ _ hrun).single [⟨1, 0x61⟩, ⟨2, 0x62⟩] (by decide)
    ⟨1, 0x61⟩ (by simp) ⟨2, 0x62⟩ (by simp)
  exact absurd hmixed (by decide)

/-! ## The runs that isolate -/

/-- `b` is not joined to another connection's half-line. -/
def Follows (a b : Tagged) : Prop := a.byte = newline ∨ b.byte = newline ∨ a.conn = b.conn

instance (a b : Tagged) : Decidable (Follows a b) := inferInstanceAs (Decidable (_ ∨ _ ∨ _))

/-- No half-line is carried into another connection. -/
def Unjoined (s : SuperLoop) (e : LoopEvent) : Prop :=
  e = .read → (s.last.toList ++ s.ring.take rxbufSize).IsChain Follows

instance (s : SuperLoop) (e : LoopEvent) : Decidable (Unjoined s e) :=
  inferInstanceAs (Decidable (_ → _))

/-- Nor is anything lost. -/
def Clean (s : SuperLoop) : LoopEvent → Prop
  | .accept => True
  -- The ring has room.
  | .rx _ => s.ring.length + 1 < rxRingSize
  -- An edge drops nothing of the connection it announces.
  | .poll peer => peer = true → s.peerWasConnected = false →
      (∀ a ∈ s.last, a.byte = newline ∨ a.conn ≠ s.conn) ∧ ∀ b ∈ s.ring, b.conn ≠ s.conn
  | .read => (s.last.toList ++ s.ring.take rxbufSize).IsChain Follows

theorem Clean.unjoined {s : SuperLoop} {e : LoopEvent} (h : Clean s e) : Unjoined s e := by
  rintro rfl
  exact h

instance (s : SuperLoop) (e : LoopEvent) : Decidable (Clean s e) :=
  match e with
  | .accept => inferInstanceAs (Decidable True)
  | .rx _ => inferInstanceAs (Decidable (_ < _))
  | .poll _ => inferInstanceAs (Decidable (_ → _ → _ ∧ _))
  | .read => inferInstanceAs (Decidable (List.IsChain _ _))

/-- How far the current connection has been read: of what it has sent, `got` has been read and
`wait` is in the ring, behind what is left of earlier connections. -/
structure Reading (s : SuperLoop) (got wait : List UInt8) (old : List Tagged) : Prop where
  received : s.received = got ++ wait
  ring : s.ring = old ++ wait.map (Tagged.mk s.conn)
  stale : ∀ b ∈ old, b.conn ≠ s.conn
  before : got = [] → ∀ a ∈ s.last, a.conn ≠ s.conn
  since : got ≠ [] → old = [] ∧ (∀ a ∈ s.last, a.conn = s.conn) ∧
    s.line = (feedAll Tagged.byte .fresh (got.map (Tagged.mk s.conn))).1
  outs : ∀ out ∈ (feedAll Tagged.byte .fresh (got.map (Tagged.mk s.conn))).2,
    LoopOut.line out ∈ s.done

/-- The invariant of a run that carries no half-line into another connection. -/
structure Unmixed (s : SuperLoop) : Prop where
  /-- The half-line in the buffer is all of the connection of the last byte. -/
  held : ∀ b ∈ s.line.linebuf, ∃ a ∈ s.last, a.conn = b.conn
  /-- Between lines there is none. -/
  between : (∀ a ∈ s.last, a.byte = newline) → s.line = .fresh
  single : OneConnection s

/-- The invariant of a clean run. -/
structure Apart (s : SuperLoop) : Prop extends Unmixed s where
  ringConn : ∀ b ∈ s.ring, b.conn ≤ s.conn
  lastConn : ∀ a ∈ s.last, a.conn ≤ s.conn
  reading : ∃ got wait old, Reading s got wait old

theorem Unmixed.start : Unmixed .start :=
  ⟨fun _ hb => (nomatch hb), fun _ => rfl, fun _ hline => (nomatch hline)⟩

theorem Apart.start : Apart .start := by
  have hnone : ∀ a ∈ (none : Option Tagged), a.conn < 0 := by
    intro a ha
    cases ha
  have hreading : Reading .start [] [] [] := by
    refine ⟨rfl, rfl, ?_, ?_, ?_, ?_⟩
    · intro b hb
      cases hb
    · intro _ a ha
      exact absurd (hnone a ha) (Nat.not_lt_zero _)
    · intro hne
      exact absurd rfl hne
    · intro out hout
      cases hout
  refine ⟨.start, ?_, ?_, [], [], [], hreading⟩
  · intro b hb
    cases hb
  · intro a ha
    exact absurd (hnone a ha) (Nat.not_lt_zero _)

/-! ### One byte -/

/-- In the middle of a line the next byte is of the same connection, or ends it. -/
theorem Unmixed.same_conn {s : SuperLoop} (h : Unmixed s) {b c : Tagged}
    (hjoin : ∀ a ∈ s.last, Follows a b) (hnl : b.byte ≠ newline) (hc : c ∈ s.line.linebuf) :
    c.conn = b.conn := by
  obtain ⟨a, ha, hconn⟩ := h.held c hc
  rcases hjoin a ha with hend | hend | hsame
  · have hfresh := h.between fun a' ha' => by
      rw [Option.mem_unique ha' ha]
      exact hend
    rw [hfresh] at hc
    cases hc
  · exact absurd hend hnl
  · exact hconn.symm.trans hsame

/-- The first byte of a connection meets no half-line, unless it ends it. -/
theorem Unmixed.first_byte {s : SuperLoop} (h : Unmixed s) {b : Tagged}
    (hjoin : ∀ a ∈ s.last, Follows a b) (hnew : ∀ a ∈ s.last, a.conn ≠ b.conn) :
    s.line = .fresh ∨ b.byte = newline := by
  by_cases hnl : b.byte = newline
  · exact Or.inr hnl
  · refine Or.inl (h.between fun a ha => ?_)
    rcases hjoin a ha with hend | hend | hsame
    · exact hend
    · exact absurd hend hnl
    · exact absurd hsame (hnew a ha)

theorem SuperLoop.eat_last {s : SuperLoop} {a b : Tagged} (h : a ∈ (s.eat b).last) : a = b :=
  (Option.some.inj h).symm

theorem SuperLoop.eat_ring {s : SuperLoop} {b : Tagged} {ring : List Tagged}
    (hring : s.ring = b :: ring) : (s.eat b).ring = ring := by
  show s.ring.tail = ring
  rw [hring, List.tail_cons]

theorem Reading.eat_stale {s : SuperLoop} {got wait : List UInt8} {old : List Tagged} {b : Tagged}
    (hr : Reading s got wait (b :: old)) : Reading (s.eat b) got wait old := by
  have hgot : got = [] := by
    by_contra hne
    exact List.cons_ne_nil b old (hr.since hne).1
  refine ⟨hr.received, SuperLoop.eat_ring hr.ring, ?_, ?_, ?_, ?_⟩
  · intro c hc
    exact hr.stale c (List.mem_cons_of_mem b hc)
  · intro _ a ha
    rw [SuperLoop.eat_last ha]
    exact hr.stale b List.mem_cons_self
  · intro hne
    exact absurd hgot hne
  · intro out hout
    exact List.mem_append_left _ (hr.outs out hout)

/-- The line so far is that of the current connection alone. -/
theorem Reading.line_eat {s : SuperLoop} {got wait : List UInt8} {old : List Tagged} {b : Tagged}
    (h : Apart s) (hr : Reading s got wait old) (hconn : b.conn = s.conn)
    (hjoin : ∀ a ∈ s.last, Follows a b) :
    (s.eat b).line = (feedAll Tagged.byte .fresh (got.map (Tagged.mk s.conn) ++ [b])).1 ∧
      ∀ out ∈ (feedAll Tagged.byte .fresh (got.map (Tagged.mk s.conn) ++ [b])).2,
        LoopOut.line out ∈ (s.eat b).done := by
  have hlast : (feedAll Tagged.byte .fresh (got.map (Tagged.mk s.conn) ++ [b])).2
      = (feedAll Tagged.byte .fresh (got.map (Tagged.mk s.conn))).2 ++
        (feed Tagged.byte (feedAll Tagged.byte .fresh (got.map (Tagged.mk s.conn))).1 b).2 := by
    rw [feedAll_append]
    simp only [feedAll, List.append_nil]
  have hline : (feedAll Tagged.byte .fresh (got.map (Tagged.mk s.conn) ++ [b])).1
      = (feed Tagged.byte (feedAll Tagged.byte .fresh (got.map (Tagged.mk s.conn))).1 b).1 := by
    rw [feedAll_append]
    rfl
  rw [hlast, hline]
  -- Its earlier bytes have done their part; the new one does the same here as there.
  have hnew : (s.eat b).line
        = (feed Tagged.byte (feedAll Tagged.byte .fresh (got.map (Tagged.mk s.conn))).1 b).1 ∧
      ∀ out ∈ (feed Tagged.byte (feedAll Tagged.byte .fresh (got.map (Tagged.mk s.conn))).1 b).2,
        LoopOut.line out ∈ (s.eat b).done := by
    by_cases hgot : got = []
    · subst hgot
      have hother : ∀ a ∈ s.last, a.conn ≠ b.conn := by
        rw [hconn]
        exact hr.before rfl
      rcases h.first_byte hjoin hother with hfresh | hnl
      · refine ⟨congrArg (fun l => (feed Tagged.byte l b).1) hfresh, ?_⟩
        intro out hout
        refine List.mem_append_right _ (List.mem_map_of_mem ?_)
        rw [hfresh]
        exact hout
      · refine ⟨(feed_newline s.line hnl).1.trans (feed_newline _ hnl).1.symm, ?_⟩
        intro out hout
        rw [(feed_newline _ hnl).2] at hout
        cases hout
    · obtain ⟨_, _, hsame⟩ := hr.since hgot
      refine ⟨congrArg (fun l => (feed Tagged.byte l b).1) hsame, ?_⟩
      intro out hout
      refine List.mem_append_right _ (List.mem_map_of_mem ?_)
      rw [hsame]
      exact hout
  refine ⟨hnew.1, ?_⟩
  intro out hout
  rcases List.mem_append.mp hout with hout | hout
  · exact List.mem_append_left _ (hr.outs out hout)
  · exact hnew.2 out hout

theorem Reading.eat_own {s : SuperLoop} {got wait : List UInt8} {c : UInt8} (h : Apart s)
    (hr : Reading s got (c :: wait) []) (hjoin : ∀ a ∈ s.last, Follows a ⟨s.conn, c⟩) :
    Reading (s.eat ⟨s.conn, c⟩) (got ++ [c]) wait [] := by
  obtain ⟨hline, houts⟩ := hr.line_eat h rfl hjoin
  have hmap : got.map (Tagged.mk s.conn) ++ [⟨s.conn, c⟩]
      = (got ++ [c]).map (Tagged.mk s.conn) := by
    rw [List.map_append, List.map_singleton]
  rw [hmap] at hline houts
  refine ⟨?_, SuperLoop.eat_ring hr.ring, ?_, ?_, ?_, houts⟩
  · show s.received = _
    rw [hr.received, List.append_assoc, List.singleton_append]
  · intro b hb
    cases hb
  · intro hnil
    exact absurd hnil (by simp)
  · intro _
    refine ⟨rfl, ?_, hline⟩
    intro a ha
    rw [SuperLoop.eat_last ha]
    rfl

theorem Reading.eat {s : SuperLoop} {got wait : List UInt8} {old ring : List Tagged} {b : Tagged}
    (h : Apart s) (hr : Reading s got wait old) (hring : s.ring = b :: ring)
    (hjoin : ∀ a ∈ s.last, Follows a b) : ∃ got wait old, Reading (s.eat b) got wait old := by
  have hsplit := hring.symm.trans hr.ring
  cases old with
  | cons c old =>
    obtain ⟨rfl, _⟩ := List.cons.inj hsplit
    exact ⟨_, _, _, hr.eat_stale⟩
  | nil =>
    cases wait with
    | nil => cases hsplit
    | cons c wait =>
      obtain ⟨rfl, _⟩ := List.cons.inj hsplit
      exact ⟨_, _, _, hr.eat_own h hjoin⟩

/-- **Reading one byte** that follows what was read joins nothing. -/
theorem Unmixed.eat {s : SuperLoop} {b : Tagged} (h : Unmixed s)
    (hjoin : ∀ a ∈ s.last, Follows a b) : Unmixed (s.eat b) := by
  refine ⟨fun c hc => ⟨b, rfl, ?_⟩, fun hnl => ?_, fun line hline => ?_⟩
  · by_cases hnl : b.byte = newline
    · have hfresh : (s.eat b).line = .fresh := (feed_newline s.line hnl).1
      rw [hfresh] at hc
      cases hc
    · rcases mem_linebuf_feed hc with hold | rfl
      · exact (h.same_conn hjoin hnl hold).symm
      · rfl
  · exact (feed_newline s.line (hnl b rfl)).1
  · rcases List.mem_append.mp hline with hold | hnew
    · exact h.single line hold
    · obtain ⟨out, hout, heq⟩ := List.mem_map.mp hnew
      obtain rfl := LoopOut.line.inj heq
      intro c hc c' hc'
      obtain ⟨a, ha, hconn⟩ := h.held c (mem_dispatch_feed hout hc)
      obtain ⟨a', ha', hconn'⟩ := h.held c' (mem_dispatch_feed hout hc')
      rw [← hconn, ← hconn', Option.mem_unique ha ha']

/-- And it keeps the connections apart. -/
theorem Apart.eat {s : SuperLoop} {b : Tagged} {ring : List Tagged} (h : Apart s)
    (hring : s.ring = b :: ring) (hjoin : ∀ a ∈ s.last, Follows a b) : Apart (s.eat b) := by
  obtain ⟨got, wait, old, hr⟩ := h.reading
  refine ⟨h.toUnmixed.eat hjoin, fun c hc => ?_, fun a ha => ?_, hr.eat h hring hjoin⟩
  · rw [SuperLoop.eat_ring hring] at hc
    exact h.ringConn c (hring ▸ List.mem_cons_of_mem b hc)
  · obtain rfl := Option.some.inj ha
    exact h.ringConn b (hring ▸ List.mem_cons_self)

/-! ### One step -/

/-- `net_read` and its loop, byte by byte. -/
theorem SuperLoop.read_eq (s : SuperLoop) :
    s.read = { (s.ring.take rxbufSize).foldl SuperLoop.eat s with polled := false } := by
  have hfold : ∀ (rx : List Tagged) (s : SuperLoop), rx <+: s.ring →
      rx.foldl SuperLoop.eat s = { s with
        ring := s.ring.drop rx.length
        line := (feedAll Tagged.byte s.line rx).1
        last := rx.getLast?.or s.last
        done := s.done ++ (feedAll Tagged.byte s.line rx).2.map .line } := by
    intro rx
    induction rx with
    | nil =>
      intro s _
      simp [feedAll]
    | cons b rx ih =>
      rintro s ⟨rest, hrest⟩
      have hring : s.ring = b :: (rx ++ rest) := hrest.symm
      rw [List.foldl_cons, ih (s.eat b) ⟨rest, (SuperLoop.eat_ring hring).symm⟩]
      have hgetLast : rx.getLast?.or (some b) = (b :: rx).getLast?.or s.last := by
        rw [List.getLast?_cons]
        cases rx.getLast? <;> rfl
      simp only [SuperLoop.eat, feedAll, hgetLast, List.map_append, List.append_assoc,
        List.length_cons, hring, List.tail_cons, List.drop_succ_cons]
  rw [hfold _ s (List.take_prefix _ _)]
  have hdrop : s.ring.drop (s.ring.take rxbufSize).length = s.ring.drop rxbufSize := by
    rw [List.length_take]
    by_cases h : rxbufSize ≤ s.ring.length
    · rw [Nat.min_eq_left h]
    · rw [Nat.min_eq_right (Nat.le_of_not_le h), List.drop_length,
        List.drop_eq_nil_of_le (Nat.le_of_not_le h)]
  simp only [SuperLoop.read, hdrop]

/-- The first byte follows, and the others follow it. -/
theorem follows_cons {last : Option Tagged} {b : Tagged} {rx : List Tagged}
    (h : (last.toList ++ b :: rx).IsChain Follows) :
    (∀ a ∈ last, Follows a b) ∧ (b :: rx).IsChain Follows := by
  cases last with
  | none => exact ⟨fun a ha => (nomatch ha), h⟩
  | some a =>
    obtain ⟨hfirst, hrest⟩ := List.isChain_cons_cons.mp h
    refine ⟨fun a' ha' => ?_, hrest⟩
    obtain rfl := Option.some.inj ha'
    exact hfirst

theorem Unmixed.eat_all {s : SuperLoop} (h : Unmixed s) {rx : List Tagged}
    (hchain : (s.last.toList ++ rx).IsChain Follows) : Unmixed (rx.foldl SuperLoop.eat s) := by
  induction rx generalizing s with
  | nil => exact h
  | cons b rx ih =>
    obtain ⟨hjoin, hnext⟩ := follows_cons hchain
    exact ih (h.eat hjoin) hnext

theorem Apart.eat_all {s : SuperLoop} (h : Apart s) {rx : List Tagged} (hring : rx <+: s.ring)
    (hchain : (s.last.toList ++ rx).IsChain Follows) : Apart (rx.foldl SuperLoop.eat s) := by
  induction rx generalizing s with
  | nil => exact h
  | cons b rx ih =>
    obtain ⟨rest, hrest⟩ := hring
    have hhead : s.ring = b :: (rx ++ rest) := hrest.symm
    obtain ⟨hjoin, hnext⟩ := follows_cons hchain
    exact ih (h.eat hhead hjoin) ⟨rest, (SuperLoop.eat_ring hhead).symm⟩ hnext

theorem Unmixed.flags {s : SuperLoop} (h : Unmixed s) (was polled : Bool) :
    Unmixed { s with peerWasConnected := was, polled := polled } :=
  ⟨h.held, h.between, h.single⟩

theorem Apart.flags {s : SuperLoop} (h : Apart s) (was polled : Bool) :
    Apart { s with peerWasConnected := was, polled := polled } := by
  obtain ⟨got, wait, old, hr⟩ := h.reading
  exact ⟨h.toUnmixed.flags was polled, h.ringConn, h.lastConn, got, wait, old,
    ⟨hr.received, hr.ring, hr.stale, hr.before, hr.since, hr.outs⟩⟩

/-- **A connect edge** joins nothing. -/
theorem Unmixed.reset {s : SuperLoop} (h : Unmixed s) : Unmixed s.reset := by
  refine ⟨fun b hb => (nomatch hb), fun _ => rfl, fun line hline => ?_⟩
  rcases List.mem_append.mp hline with hline | hline
  · exact h.single line hline
  · rw [List.mem_singleton] at hline
    cases hline

/-- One that drops nothing of the connection it announces keeps the connections apart. -/
theorem Apart.reset {s : SuperLoop} (h : Apart s)
    (hlast : ∀ a ∈ s.last, a.byte = newline ∨ a.conn ≠ s.conn)
    (hring : ∀ b ∈ s.ring, b.conn ≠ s.conn) : Apart s.reset := by
  obtain ⟨got, wait, old, hr⟩ := h.reading
  have hnone : ∀ a ∈ s.reset.last, False := by
    intro a ha
    cases ha
  have hwait : wait = [] := by
    cases wait with
    | nil => rfl
    | cons c wait =>
      refine absurd rfl (hring ⟨s.conn, c⟩ ?_)
      rw [hr.ring]
      exact List.mem_append_right _ List.mem_cons_self
  have hfresh : got ≠ [] → s.line = .fresh := by
    intro hgot
    refine h.between fun a ha => ?_
    rcases hlast a ha with hnl | hconn
    · exact hnl
    · exact absurd ((hr.since hgot).2.1 a ha) hconn
  refine ⟨h.toUnmixed.reset, ?_, ?_, got, [], [], ⟨?_, rfl, ?_, ?_, ?_, ?_⟩⟩
  · intro b hb
    cases hb
  · intro a ha
    exact (hnone a ha).elim
  · rw [← hwait]
    exact hr.received
  · intro b hb
    cases hb
  · intro _ a ha
    exact (hnone a ha).elim
  · intro hgot
    exact ⟨rfl, fun a ha => (hnone a ha).elim, (hfresh hgot).symm.trans (hr.since hgot).2.2⟩
  · intro out hout
    exact List.mem_append_left _ (hr.outs out hout)

theorem Apart.accept {s : SuperLoop} (h : Apart s) : Apart s.accept := by
  refine ⟨⟨h.held, h.between, h.single⟩, ?_, ?_, [], [], s.ring, ⟨rfl, ?_, ?_, ?_, ?_, ?_⟩⟩
  · intro b hb
    exact Nat.le_succ_of_le (h.ringConn b hb)
  · intro a ha
    exact Nat.le_succ_of_le (h.lastConn a ha)
  · exact (List.append_nil _).symm
  · intro b hb
    exact Nat.ne_of_lt (Nat.lt_succ_of_le (h.ringConn b hb))
  · intro _ a ha
    exact Nat.ne_of_lt (Nat.lt_succ_of_le (h.lastConn a ha))
  · intro hne
    exact absurd rfl hne
  · intro out hout
    cases hout

theorem Apart.rx {s : SuperLoop} (h : Apart s) {b : UInt8}
    (hroom : s.ring.length + 1 < rxRingSize) : Apart (s.rx b) := by
  obtain ⟨got, wait, old, hr⟩ := h.reading
  have hring : (s.rx b).ring = s.ring ++ [⟨s.conn, b⟩] := if_pos hroom
  refine ⟨⟨h.held, h.between, h.single⟩, ?_, h.lastConn, got, wait ++ [b], old,
    ⟨?_, ?_, hr.stale, hr.before, hr.since, hr.outs⟩⟩
  · intro c hc
    rw [hring, List.mem_append, List.mem_singleton] at hc
    rcases hc with hc | rfl
    · exact h.ringConn c hc
    · exact Nat.le_refl _
  · show s.received ++ [b] = _
    rw [hr.received, List.append_assoc]
  · rw [hring, hr.ring, List.map_append, List.append_assoc]
    rfl

/-- What a step does. -/
inductive SuperLoop.Did (s : SuperLoop) : LoopEvent → SuperLoop → Prop
  | accept : Did s .accept s.accept
  | rx (b : UInt8) : Did s (.rx b) (s.rx b)
  | poll (peer : Bool) (hpolled : s.polled = false) : Did s (.poll peer) (s.poll peer)
  | read (hpolled : s.polled = true) : Did s .read s.read

theorem LoopStep.did {s t : SuperLoop} {e : LoopEvent} (hs : LoopStep s e t) : s.Did e t := by
  cases e with
  | accept =>
    obtain rfl : s.accept = t := Option.some.inj hs
    exact .accept
  | rx b =>
    obtain rfl : s.rx b = t := Option.some.inj hs
    exact .rx b
  | poll peer =>
    simp only [LoopStep, SuperLoop.next] at hs
    split at hs
    · cases hs
    · rename_i hpolled
      obtain rfl : s.poll peer = t := Option.some.inj hs
      exact .poll peer (Bool.eq_false_iff.mpr hpolled)
  | read =>
    simp only [LoopStep, SuperLoop.next] at hs
    split at hs
    · rename_i hpolled
      obtain rfl : s.read = t := Option.some.inj hs
      exact .read hpolled
    · cases hs

/-- **Every step that joins nothing** keeps the lines unmixed. -/
theorem Unmixed.step {s t : SuperLoop} {e : LoopEvent} (h : Unmixed s) (hs : LoopStep s e t)
    (hjoin : Unjoined s e) : Unmixed t := by
  cases hs.did with
  | accept => exact ⟨h.held, h.between, h.single⟩
  | rx b => exact ⟨h.held, h.between, h.single⟩
  | poll peer _ =>
    unfold SuperLoop.poll
    split
    · exact h.reset.flags _ _
    · exact h.flags _ _
  | read _ =>
    rw [SuperLoop.read_eq]
    exact (h.eat_all (hjoin rfl)).flags _ _

/-- **Every clean step keeps the connections apart.** -/
theorem Apart.step {s t : SuperLoop} {e : LoopEvent} (h : Apart s) (hs : LoopStep s e t)
    (hclean : Clean s e) : Apart t := by
  cases hs.did with
  | accept => exact h.accept
  | rx b => exact h.rx hclean
  | poll peer _ =>
    unfold SuperLoop.poll
    split
    · rename_i hedge
      simp only [Bool.and_eq_true, Bool.not_eq_true'] at hedge
      obtain ⟨hlast, hring⟩ := hclean hedge.1 hedge.2
      exact (h.reset hlast hring).flags _ _
    · exact h.flags _ _
  | read _ =>
    rw [SuperLoop.read_eq]
    exact (h.eat_all (List.take_prefix _ _) hclean).flags _ _

/-- The run lemmas. -/
theorem Unmixed.run {s t : SuperLoop} {l : List LoopEvent} (h : Unmixed s)
    (r : Run (Guarded LoopStep Unjoined) s l t) : Unmixed t :=
  r.invariant (fun _ _ _ hs hstep => hs.step hstep.1 hstep.2) h

theorem Apart.run {s t : SuperLoop} {l : List LoopEvent} (h : Apart s)
    (r : Run (Guarded LoopStep Clean) s l t) : Apart t :=
  r.invariant (fun _ _ _ hs hstep => hs.step hstep.1 hstep.2) h

theorem Apart.isolated {s : SuperLoop} (h : Apart s) : Isolated s := by
  refine ⟨h.single, ?_⟩
  intro line rest hrec hring hne hlen hline
  obtain ⟨got, wait, old, hr⟩ := h.reading
  have hwait : wait = [] := by
    have hmap := (List.append_eq_nil_iff.mp (hr.ring.symm.trans hring)).2
    exact List.map_eq_nil_iff.mp hmap
  have hgot : got = line ++ newline :: rest := by
    rw [← hrec, hr.received, hwait, List.append_nil]
  refine hr.outs _ ?_
  rw [hgot, List.map_append, List.map_cons]
  refine dispatch_first_line ?_ ?_ ?_ rfl
  · exact fun hnil => hne (List.map_eq_nil_iff.mp hnil)
  · rw [List.length_map]
    exact hlen
  · intro b hb
    obtain ⟨c, hc, rfl⟩ := List.mem_map.mp hb
    exact hline c hc

/-- **Connections are isolated**: every line is one connection's in every state of a run that
carries no half-line into another connection, and no first command is lost in one that loses
nothing. -/
theorem superLoop_isolates {l : List LoopEvent} {t : SuperLoop} :
    (Run (Guarded LoopStep Unjoined) .start l t → OneConnection t) ∧
      (Run (Guarded LoopStep Clean) .start l t → Isolated t) :=
  ⟨fun r => (Unmixed.start.run r).single, fun r => (Apart.start.run r).isolated⟩

/-- The clients of `halfLineRun`, with the second one's edge seen before its first byte. -/
def edgeRun : List LoopEvent :=
  [.accept, .rx 0x61, .poll false, .read, .accept, .poll true, .read, .rx 0x62, .rx newline,
    .poll true, .read]

/-- One client, whose edge is seen after its first byte: the byte is lost. -/
def lateEdgeRun : List LoopEvent :=
  [.accept, .rx 0x61, .poll false, .read, .poll true, .read, .rx 0x62, .rx newline, .poll true,
    .read]

theorem superLoop_isolates_edge :
    (∃ t, Run (Guarded LoopStep Unjoined) .start lateEdgeRun t ∧
      t.done = [.hello, .line (.dispatch [⟨1, 0x62⟩])] ∧ OneConnection t) ∧
    ∃ t, Run (Guarded LoopStep Clean) .start edgeRun t ∧
      t.done = [.hello, .line (.dispatch [⟨2, 0x62⟩])] ∧ Isolated t := by
  have hlate : Run (Guarded LoopStep Unjoined) .start lateEdgeRun _ :=
    .cons ⟨rfl, by decide⟩ (.cons ⟨rfl, by decide⟩ (.cons ⟨rfl, by decide⟩ (.cons ⟨rfl, by decide⟩
      (.cons ⟨rfl, by decide⟩ (.cons ⟨rfl, by decide⟩ (.cons ⟨rfl, by decide⟩
        (.cons ⟨rfl, by decide⟩ (.cons ⟨rfl, by decide⟩ (.cons ⟨rfl, by decide⟩ (.nil _))))))))))
  have hedge : Run (Guarded LoopStep Clean) .start edgeRun _ :=
    .cons ⟨rfl, by decide⟩ (.cons ⟨rfl, by decide⟩ (.cons ⟨rfl, by decide⟩ (.cons ⟨rfl, by decide⟩
      (.cons ⟨rfl, by decide⟩ (.cons ⟨rfl, by decide⟩ (.cons ⟨rfl, by decide⟩
        (.cons ⟨rfl, by decide⟩ (.cons ⟨rfl, by decide⟩ (.cons ⟨rfl, by decide⟩
          (.cons ⟨rfl, by decide⟩ (.nil _)))))))))))
  exact ⟨⟨_, hlate, by decide, superLoop_isolates.1 hlate⟩,
    ⟨_, hedge, by decide, superLoop_isolates.2 hedge⟩⟩

end EthPanel
