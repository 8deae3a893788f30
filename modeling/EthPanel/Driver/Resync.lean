import EthPanel.Driver.PanelProtocol
import EthPanel.Lib.Run
import Mathlib.Logic.Function.Basic

/-!
# `panel_node.py`: commands against resync

Two threads share the cache of last commands and the connection: the executor, in `_on_ring` and
`_on_lamp`, and the reader, in `_resync` on every hello. What is atomic is one store into the
cache, one load from it and one `_send` under the lock, so a `Driver` has a place between any
two of these in either thread, and a run of `DriverStep` is an interleaving. The connection
stays up: every `_send` puts its line on the wire.

The driver promises that the panel converges to the last commanded state
(`DesiredStateWins`). It does not (`desiredStateWins_stale_resync`): the reader can send what it
loaded before the executor stored and sent something newer. It does in every run in which the
resync sends nothing of that kind (`resync_converges`).
-/

namespace EthPanel

open Lts

/-- The last command for each output: `_ring_cmds` and `_lamp_cmd`. -/
abbrev Cache := (o : Output) → Option (CmdFor o)

/-- Where the reader is in `_resync`. -/
inductive Reader
  /-- Not in it. -/
  | idle
  /-- At the head of the loop over the rings still to do. -/
  | rings (todo : List RingId)
  /-- About to send what it loaded for a ring. -/
  | ring (id : RingId) (cmd : CmdFor (.ring id)) (todo : List RingId)
  /-- Past the check `self._lamp_cmd is not None`, before the load of the argument. -/
  | lampLoad
  | lamp (cmd : CmdFor .lamp)

structure Driver where
  cmds : Cache
  /-- What the executor has stored and not sent yet, if it is in a callback. -/
  callback : Option ((o : Output) × CmdFor o)
  reader : Reader
  /-- The lines sent on this connection. -/
  wire : List Line

inductive DriverEvent
  /-- `_on_ring` up to its store. -/
  | onRing (id : RingId) (r g b brightness : UInt8)
  /-- `_on_lamp` up to its store. -/
  | onLamp (on : Bool)
  /-- The `_send` of either. -/
  | callbackSend
  /-- The reader handles a hello line: it enters `_resync`. -/
  | hello
  /-- The next load of `_resync`. -/
  | load
  /-- The next `_send` of `_resync`. -/
  | resyncSend
  /-- The keepalive and the hello request of the reader's loop. -/
  | ping
  | helloRequest

namespace Driver

/-- The cache store of a callback. -/
def store (s : Driver) (o : Output) (cmd : CmdFor o) : Option Driver :=
  match s.callback with
  | none => some { s with
      cmds := Function.update s.cmds o (some cmd)
      callback := some ⟨o, cmd⟩ }
  | some _ => none

/-- `_send`. -/
def send (s : Driver) (line : Line) : Driver := { s with wire := s.wire ++ [line] }

def load (s : Driver) : Option Driver :=
  match s.reader with
  | .rings (id :: todo) =>
    match s.cmds (.ring id) with
    | some cmd => some { s with reader := .ring id cmd todo }
    | none => some { s with reader := .rings todo }
  | .rings [] =>
    match s.cmds .lamp with
    | some _ => some { s with reader := .lampLoad }
    | none => some { s with reader := .idle }
  | .lampLoad =>
    -- Nothing makes the attribute `None` again.
    match s.cmds .lamp with
    | some cmd => some { s with reader := .lamp cmd }
    | none => none
  | _ => none

def resyncSend (s : Driver) : Option Driver :=
  match s.reader with
  | .ring _ cmd todo => some { s.send cmd.line with reader := .rings todo }
  | .lamp cmd => some { s.send cmd.line with reader := .idle }
  | _ => none

/-- A send of the reader's own loop. -/
def readerSend (s : Driver) (line : Line) : Option Driver :=
  match s.reader with
  | .idle => some (s.send line)
  | _ => none

def next (s : Driver) : DriverEvent → Option Driver
  | .onRing id r g b brightness => s.store (.ring id) (ringCmd id r g b brightness)
  | .onLamp on => s.store .lamp (lampCmd on)
  | .callbackSend =>
    match s.callback with
    | some ⟨_, cmd⟩ => some { s.send cmd.line with callback := none }
    | none => none
  | .hello =>
    match s.reader with
    | .idle => some { s with reader := .rings ringIds.attach }
    | _ => none
  | .load => s.load
  | .resyncSend => s.resyncSend
  | .ping => s.readerSend fmtPingCmd
  | .helloRequest => s.readerSend fmtHelloCmd

end Driver

def DriverStep (s : Driver) (e : DriverEvent) (t : Driver) : Prop := s.next e = some t

/-- All calls have finished. -/
def Driver.Quiet (s : Driver) : Prop := s.callback = none ∧ s.reader = .idle

/-! ## The law -/

/-- The last line on the wire for an output. -/
def lastSent (o : Output) (wire : List Line) : Option Line :=
  (wire.filter fun line => o.head.isPrefixOf line).getLast?

/-- What the device shows on each output: the last line it executed for it. -/
abbrev Panel := Output → Option Line

def Panel.exec (p : Panel) (line : Line) : Panel :=
  fun o => if o.head.isPrefixOf line then some line else p o

/-- The command a callback was called with. -/
def DriverEvent.command : DriverEvent → Option ((o : Output) × CmdFor o)
  | .onRing id r g b brightness => some ⟨.ring id, ringCmd id r g b brightness⟩
  | .onLamp on => some ⟨.lamp, lampCmd on⟩
  | _ => none

def Cache.note (c : Cache) (e : DriverEvent) : Cache :=
  match e.command with
  | some ⟨o, cmd⟩ => Function.update c o (some cmd)
  | none => c

/-- The last command for each output in a run. -/
def commanded (l : List DriverEvent) : Cache := l.foldl Cache.note fun _ => none

/-- The last commanded state of every output is in the cache, was the last thing sent for it,
and is what the device shows, whatever it showed before. -/
structure Converged (c : Cache) (s : Driver) : Prop where
  cached : ∀ o cmd, c o = some cmd → s.cmds o = some cmd
  sent : ∀ o cmd, c o = some cmd → lastSent o s.wire = some cmd.line
  panel : ∀ o cmd, c o = some cmd → ∀ p : Panel, s.wire.foldl Panel.exec p o = some cmd.line

/-- **Desired state wins**: over every interleaving of calls that have all finished. -/
def DesiredStateWins : Prop :=
  ∀ (s t : Driver) (l : List DriverEvent), s.Quiet → Run DriverStep s l t → t.Quiet →
    Converged (commanded l) t

/-! ## A stale resync -/

/-- Red is commanded and sent; a hello comes and the reader loads red; blue is commanded and
sent; the reader sends red. -/
def staleResync : List DriverEvent :=
  [.onRing ⟨1, by decide⟩ 255 0 0 255, .callbackSend, .hello, .load,
    .onRing ⟨1, by decide⟩ 0 0 255 255, .callbackSend, .resyncSend, .load, .load]

/-- **The law is false.** -/
theorem desiredStateWins_stale_resync : ¬ DesiredStateWins := by
  intro h
  have hrun : Run DriverStep ⟨fun _ => none, none, .idle, []⟩ staleResync _ :=
    .cons rfl (.cons rfl (.cons rfl (.cons rfl (.cons rfl (.cons rfl (.cons rfl (.cons rfl
      (.cons rfl (.nil _)))))))))
  have hsent := (h _ _ _ ⟨rfl, rfl⟩ hrun ⟨rfl, rfl⟩).sent (.ring ⟨1, by decide⟩)
    (ringCmd ⟨1, by decide⟩ 0 0 255 255) rfl
  exact absurd hsent (by decide)

/-! ## The wire -/

theorem lastSent_other {o : Output} {line : Line} (h : ¬ o.head <+: line) (wire : List Line) :
    lastSent o (wire ++ [line]) = lastSent o wire := by
  have hfor : ¬ o.head.isPrefixOf line = true := by
    rw [List.isPrefixOf_iff_prefix]
    exact h
  unfold lastSent
  rw [List.filter_append, List.filter_cons_of_neg hfor, List.filter_nil, List.append_nil]

/-- A command sent is the last for its output, and changes nothing for the others. -/
theorem lastSent_send {o o' : Output} (cmd : CmdFor o) (wire : List Line) :
    lastSent o' (wire ++ [cmd.line]) = if o' = o then some cmd.line else lastSent o' wire := by
  by_cases h : o' = o
  · have hfor : o'.head.isPrefixOf cmd.line = true :=
      List.isPrefixOf_iff_prefix.mpr (cmd.head_iff.mpr h)
    unfold lastSent
    rw [if_pos h, List.filter_append, List.filter_cons_of_pos hfor, List.filter_nil,
      List.getLast?_concat]
  · have hfor : ¬ o'.head <+: cmd.line := by
      rw [cmd.head_iff]
      exact h
    rw [if_neg h, lastSent_other hfor]

theorem exec_eq_lastSent {o : Output} (wire : List Line) (p : Panel) :
    wire.foldl Panel.exec p o = (lastSent o wire).or (p o) := by
  induction wire generalizing p with
  | nil => rfl
  | cons line wire ih =>
    rw [List.foldl_cons, ih]
    by_cases hfor : o.head.isPrefixOf line = true
    · simp only [Panel.exec, lastSent, List.filter_cons, hfor, if_true, List.getLast?_cons]
      cases (wire.filter fun line => o.head.isPrefixOf line).getLast? <;> rfl
    · simp only [Panel.exec, lastSent, List.filter_cons, hfor, Bool.false_eq_true, if_false]

/-! ## What a step can do -/

/-- What the resync is about to send. -/
def Reader.loaded : Reader → Option ((o : Output) × CmdFor o)
  | .ring id cmd _ => some ⟨.ring id, cmd⟩
  | .lamp cmd => some ⟨.lamp, cmd⟩
  | _ => none

theorem Driver.store_some {s t : Driver} {o : Output} {cmd : CmdFor o}
    (h : s.store o cmd = some t) : s.callback = none ∧
      t.cmds = Function.update s.cmds o (some cmd) ∧ t.callback = some ⟨o, cmd⟩ ∧
      t.wire = s.wire := by
  unfold Driver.store at h
  split at h
  · rename_i hc
    obtain rfl := Option.some.inj h
    exact ⟨hc, rfl, rfl, rfl⟩
  · cases h

theorem Driver.load_some {s t : Driver} (h : s.load = some t) :
    t.cmds = s.cmds ∧ t.callback = s.callback ∧ t.wire = s.wire := by
  unfold Driver.load at h
  repeat' split at h
  all_goals first
    | (obtain rfl := Option.some.inj h; exact ⟨rfl, rfl, rfl⟩)
    | cases h

theorem Driver.resyncSend_some {s t : Driver} (h : s.resyncSend = some t) :
    ∃ o cmd, s.reader.loaded = some ⟨o, cmd⟩ ∧ t.cmds = s.cmds ∧ t.callback = s.callback ∧
      t.wire = s.wire ++ [cmd.line] := by
  unfold Driver.resyncSend at h
  split at h
  · rename_i hr
    obtain rfl := Option.some.inj h
    exact ⟨_, _, by rw [hr, Reader.loaded], rfl, rfl, rfl⟩
  · rename_i hr
    obtain rfl := Option.some.inj h
    exact ⟨_, _, by rw [hr, Reader.loaded], rfl, rfl, rfl⟩
  · cases h

theorem Driver.readerSend_some {s t : Driver} {line : Line} (h : s.readerSend line = some t) :
    t.cmds = s.cmds ∧ t.callback = s.callback ∧ t.wire = s.wire ++ [line] := by
  unfold Driver.readerSend at h
  split at h
  · obtain rfl := Option.some.inj h
    exact ⟨rfl, rfl, rfl⟩
  · cases h

/-- **What a step can do**: a callback stores a command, a callback sends its own, the resync
sends what it loaded, or nothing is stored or sent for any output. -/
theorem DriverStep.cases {s t : Driver} {e : DriverEvent} (h : DriverStep s e t) :
    (∃ o cmd, e.command = some ⟨o, cmd⟩ ∧ s.callback = none ∧
      t.cmds = Function.update s.cmds o (some cmd) ∧ t.callback = some ⟨o, cmd⟩ ∧
      t.wire = s.wire) ∨
    (∃ o cmd, e.command = none ∧ s.callback = some ⟨o, cmd⟩ ∧ t.cmds = s.cmds ∧
      t.callback = none ∧ t.wire = s.wire ++ [cmd.line]) ∨
    (∃ o cmd, e = .resyncSend ∧ s.reader.loaded = some ⟨o, cmd⟩ ∧ t.cmds = s.cmds ∧
      t.callback = s.callback ∧ t.wire = s.wire ++ [cmd.line]) ∨
    e.command = none ∧ t.cmds = s.cmds ∧ t.callback = s.callback ∧
      ∀ o, lastSent o t.wire = lastSent o s.wire := by
  cases e with
  | onRing id r g b brightness =>
    obtain ⟨hc, h₁, h₂, h₃⟩ := Driver.store_some h
    exact Or.inl ⟨_, _, rfl, hc, h₁, h₂, h₃⟩
  | onLamp on =>
    obtain ⟨hc, h₁, h₂, h₃⟩ := Driver.store_some h
    exact Or.inl ⟨_, _, rfl, hc, h₁, h₂, h₃⟩
  | callbackSend =>
    simp only [DriverStep, Driver.next] at h
    split at h
    · rename_i o cmd hc
      obtain rfl := Option.some.inj h
      exact Or.inr (Or.inl ⟨o, cmd, rfl, hc, rfl, rfl, rfl⟩)
    · cases h
  | hello =>
    simp only [DriverStep, Driver.next] at h
    split at h
    · obtain rfl := Option.some.inj h
      exact Or.inr (Or.inr (Or.inr ⟨rfl, rfl, rfl, fun _ => rfl⟩))
    · cases h
  | load =>
    obtain ⟨h₁, h₂, h₃⟩ := Driver.load_some h
    exact Or.inr (Or.inr (Or.inr ⟨rfl, h₁, h₂, fun o => by rw [h₃]⟩))
  | resyncSend =>
    obtain ⟨o, cmd, hload, h₁, h₂, h₃⟩ := Driver.resyncSend_some h
    exact Or.inr (Or.inr (Or.inl ⟨o, cmd, rfl, hload, h₁, h₂, h₃⟩))
  | ping =>
    obtain ⟨h₁, h₂, h₃⟩ := Driver.readerSend_some h
    refine Or.inr (Or.inr (Or.inr ⟨rfl, h₁, h₂, fun o => ?_⟩))
    rw [h₃, lastSent_other (requests_for_none o).1]
  | helloRequest =>
    obtain ⟨h₁, h₂, h₃⟩ := Driver.readerSend_some h
    refine Or.inr (Or.inr (Or.inr ⟨rfl, h₁, h₂, fun o => ?_⟩))
    rw [h₃, lastSent_other (requests_for_none o).2]

/-! ## The runs that converge -/

/-- The resync sends only what is still the last command for its output, or what a callback
is about to overtake. -/
def SendsFresh (s : Driver) (e : DriverEvent) : Prop :=
  e = .resyncSend → ∀ o cmd, s.reader.loaded = some ⟨o, cmd⟩ →
    s.cmds o = some cmd ∨ ∃ cmd', s.callback = some ⟨o, cmd'⟩

/-- Mid-run: the last command for an output is cached, and was the last thing sent for it, unless
its callback has yet to send it. -/
structure Winning (c : Cache) (s : Driver) : Prop where
  cached : ∀ o cmd, c o = some cmd → s.cmds o = some cmd
  pending : ∀ o cmd, s.callback = some ⟨o, cmd⟩ → s.cmds o = some cmd
  sent : ∀ o cmd, c o = some cmd → s.callback = some ⟨o, cmd⟩ ∨ lastSent o s.wire = some cmd.line

/-- What touches neither the cache nor a callback has only the wire to answer for. -/
theorem Winning.frame {c : Cache} {s t : Driver} (h : Winning c s) (hcmds : t.cmds = s.cmds)
    (hcallback : t.callback = s.callback)
    (hsent : ∀ o cmd, c o = some cmd →
      s.callback = some ⟨o, cmd⟩ ∨ lastSent o t.wire = some cmd.line) : Winning c t := by
  refine ⟨?_, ?_, ?_⟩
  · rw [hcmds]
    exact h.cached
  · rw [hcmds, hcallback]
    exact h.pending
  · rw [hcallback]
    exact hsent

/-- A command: nothing else was pending, and now it is. -/
theorem Winning.commanded {c : Cache} {s t : Driver} {o : Output} {cmd : CmdFor o}
    (h : Winning c s) (hidle : s.callback = none)
    (hcmds : t.cmds = Function.update s.cmds o (some cmd)) (hcallback : t.callback = some ⟨o, cmd⟩)
    (hwire : t.wire = s.wire) : Winning (Function.update c o (some cmd)) t := by
  refine ⟨?_, ?_, ?_⟩
  · intro o' cmd' ho'
    rw [hcmds]
    by_cases heq : o' = o
    · subst heq
      rw [Function.update_self] at ho' ⊢
      exact ho'
    · rw [Function.update_of_ne heq] at ho' ⊢
      exact h.cached o' cmd' ho'
  · intro o' cmd' ho'
    rw [hcallback] at ho'
    obtain ⟨rfl, hcmd⟩ := Sigma.mk.inj (Option.some.inj ho')
    rw [hcmds, Function.update_self, eq_of_heq hcmd]
  · intro o' cmd' ho'
    rw [hcallback, hwire]
    by_cases heq : o' = o
    · subst heq
      rw [Function.update_self] at ho'
      exact Or.inl (by rw [Option.some.inj ho'])
    · rw [Function.update_of_ne heq] at ho'
      rcases h.sent o' cmd' ho' with hp | hl
      · rw [hidle] at hp
        cases hp
      · exact Or.inr hl

/-- A callback sends the command it stored. -/
theorem Winning.callbackSend {c : Cache} {s t : Driver} {o : Output} {cmd : CmdFor o}
    (h : Winning c s) (hpending : s.callback = some ⟨o, cmd⟩) (hcmds : t.cmds = s.cmds)
    (hcallback : t.callback = none) (hwire : t.wire = s.wire ++ [cmd.line]) : Winning c t := by
  refine ⟨?_, ?_, ?_⟩
  · rw [hcmds]
    exact h.cached
  · intro o' cmd' ho'
    rw [hcallback] at ho'
    cases ho'
  · intro o' cmd' ho'
    refine Or.inr ?_
    rw [hwire, lastSent_send]
    by_cases heq : o' = o
    · subst heq
      have hcmd := (h.pending o' cmd hpending).symm.trans (h.cached o' cmd' ho')
      rw [if_pos rfl, Option.some.inj hcmd]
    · rw [if_neg heq]
      rcases h.sent o' cmd' ho' with hp | hl
      · rw [hpending] at hp
        exact absurd (Sigma.mk.inj (Option.some.inj hp)).1.symm heq
      · exact hl

/-- The resync sends what it loaded, if that is fresh. -/
theorem Winning.resyncSend {c : Cache} {s t : Driver} {o : Output} {cmd : CmdFor o}
    (h : Winning c s) (hfresh : s.cmds o = some cmd ∨ ∃ cmd', s.callback = some ⟨o, cmd'⟩)
    (hcmds : t.cmds = s.cmds) (hcallback : t.callback = s.callback)
    (hwire : t.wire = s.wire ++ [cmd.line]) : Winning c t := by
  refine h.frame hcmds hcallback ?_
  intro o' cmd' ho'
  rw [hwire, lastSent_send]
  by_cases heq : o' = o
  · subst heq
    rw [if_pos rfl]
    have hcached := h.cached o' cmd' ho'
    rcases hfresh with hf | ⟨cmd'', hp⟩
    · rw [hf] at hcached
      exact Or.inr (by rw [Option.some.inj hcached])
    · rw [h.pending o' cmd'' hp] at hcached
      exact Or.inl (by rw [hp, Option.some.inj hcached])
  · rw [if_neg heq]
    exact h.sent o' cmd' ho'

/-- **The step lemma.** -/
theorem Winning.step {c : Cache} {s t : Driver} {e : DriverEvent} (h : Winning c s)
    (hs : DriverStep s e t) (hfresh : SendsFresh s e) : Winning (c.note e) t := by
  have hquiet : e.command = none → c.note e = c := by
    intro he
    rw [Cache.note, he]
  rcases hs.cases with ⟨o, cmd, he, hidle, h₁, h₂, h₃⟩ | ⟨o, cmd, he, hpending, h₁, h₂, h₃⟩ |
    ⟨o, cmd, rfl, hload, h₁, h₂, h₃⟩ | ⟨he, h₁, h₂, h₃⟩
  · have hnote : c.note e = Function.update c o (some cmd) := by
      rw [Cache.note, he]
    rw [hnote]
    exact h.commanded hidle h₁ h₂ h₃
  · rw [hquiet he]
    exact h.callbackSend hpending h₁ h₂ h₃
  · exact h.resyncSend (hfresh rfl o cmd hload) h₁ h₂ h₃
  · rw [hquiet he]
    refine h.frame h₁ h₂ ?_
    intro o cmd ho
    rw [h₃]
    exact h.sent o cmd ho

theorem Winning.run {c : Cache} {s t : Driver} {l : List DriverEvent}
    (r : Run (Guarded DriverStep SendsFresh) s l t) (h : Winning c s) :
    Winning (l.foldl Cache.note c) t := by
  induction r generalizing c with
  | nil _ => exact h
  | cons hs _ ih => exact ih (h.step hs.1 hs.2)

/-- **The panel converges** in every run whose resyncs send nothing stale. -/
theorem resync_converges {s t : Driver} {l : List DriverEvent} (hs : s.Quiet)
    (r : Run (Guarded DriverStep SendsFresh) s l t) (ht : t.Quiet) :
    Converged (commanded l) t := by
  have hstart : Winning (fun _ => none) s := by
    refine ⟨?_, ?_, ?_⟩
    · intro o cmd ho
      cases ho
    · intro o cmd ho
      rw [hs.1] at ho
      cases ho
    · intro o cmd ho
      cases ho
  have hend : Winning (commanded l) t := hstart.run r
  have hsent : ∀ o cmd, commanded l o = some cmd → lastSent o t.wire = some cmd.line := by
    intro o cmd ho
    rcases hend.sent o cmd ho with hp | hl
    · rw [ht.1] at hp
      cases hp
    · exact hl
  refine ⟨hend.cached, hsent, fun o cmd ho p => ?_⟩
  rw [exec_eq_lastSent, hsent o cmd ho, Option.some_or]

/-- The events of `staleResync`, but the callback sends blue after the resync has sent red. -/
def overtakenResync : List DriverEvent :=
  [.onRing ⟨1, by decide⟩ 255 0 0 255, .callbackSend, .hello, .load,
    .onRing ⟨1, by decide⟩ 0 0 255 255, .resyncSend, .callbackSend, .load, .load]

theorem resync_converges_overtaken : ∃ t, Run (Guarded DriverStep SendsFresh)
    ⟨fun _ => none, none, .idle, []⟩ overtakenResync t ∧ t.Quiet ∧
      Converged (commanded overtakenResync) t := by
  have hother : ∀ {s : Driver} {e : DriverEvent}, e ≠ .resyncSend → SendsFresh s e :=
    fun he h => absurd h he
  have hrun : Run (Guarded DriverStep SendsFresh) ⟨fun _ => none, none, .idle, []⟩
      overtakenResync _ :=
    .cons ⟨rfl, hother (by simp)⟩ (.cons ⟨rfl, hother (by simp)⟩ (.cons ⟨rfl, hother (by simp)⟩
      (.cons ⟨rfl, hother (by simp)⟩ (.cons ⟨rfl, hother (by simp)⟩
        (.cons ⟨rfl, fun _ o cmd hload => by
          obtain ⟨rfl, _⟩ := Sigma.mk.inj (Option.some.inj hload)
          exact Or.inr ⟨_, rfl⟩⟩
          (.cons ⟨rfl, hother (by simp)⟩ (.cons ⟨rfl, hother (by simp)⟩
            (.cons ⟨rfl, hother (by simp)⟩ (.nil _)))))))))
  exact ⟨_, hrun, ⟨rfl, rfl⟩, resync_converges ⟨rfl, rfl⟩ hrun ⟨rfl, rfl⟩⟩

end EthPanel
