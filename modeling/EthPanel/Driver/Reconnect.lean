import EthPanel.Driver.Resync

/-!
# `panel_node.py`: from connection to connection

A `Driver` with the handle `_sock`: the reader opens a connection, has it until a `recv` or a
`_send` fails, and opens the next; the executor's callbacks go on all the time. What is sent with no
connection, or after one has failed, is on no wire: the cache has it, and the next hello sends it.

Whatever the driver was told, on whatever connections or on none, once it has greeted the panel on
a connection that stays up the last line there for each output is its last command
(`reconnect_converges`), unless the resync on that connection sends something stale.
-/

namespace EthPanel

open Lts

/-- `_sock`. -/
inductive Sock
  | none
  | up
  /-- A `sendall` has failed: the socket is shut down, and nothing more goes out. -/
  | broken
  deriving DecidableEq

/-- The driver with its connection; `wire` has the lines that this one has sent whole. -/
structure Node where
  driver : Driver
  sock : Sock
  /-- `_hello_seen`. -/
  helloSeen : Bool

inductive NodeEvent
  /-- `create_connection` returns. -/
  | connect
  /-- The reader leaves its loop. -/
  | drop
  /-- A step of either thread; `fails` if the `sendall` in it does. -/
  | step (e : DriverEvent) (fails : Bool)

/-- A step that the reader does only with a connection. -/
def DriverEvent.ofReader : DriverEvent → Bool
  | .hello | .load | .resyncSend | .ping | .helloRequest => true
  | .onRing .. | .onLamp _ | .callbackSend => false

def DriverEvent.isHello : DriverEvent → Bool
  | .hello => true
  | .onRing .. | .onLamp _ | .callbackSend | .load | .resyncSend | .ping | .helloRequest => false

namespace Node

/-- After a step of the driver's, of which the lines go out or do not. -/
def after (s : Node) (e : DriverEvent) (d : Driver) (fails : Bool) : Node where
  driver := { d with wire := if s.sock = .up ∧ fails = false then d.wire else s.driver.wire }
  sock := if s.sock = .up ∧ fails = true ∧ d.wire ≠ s.driver.wire then .broken else s.sock
  helloSeen := s.helloSeen || e.isHello

def next (s : Node) : NodeEvent → Option Node
  | .connect =>
    match s.sock with
    | .none => some ⟨{ s.driver with wire := [] }, .up, false⟩
    | .up | .broken => none
  | .drop =>
    match s.sock, s.driver.reader with
    | .up, .idle | .broken, .idle => some { s with sock := .none }
    | _, _ => none
  | .step e fails =>
    if s.sock = .none ∧ e.ofReader = true then none
    else (s.driver.next e).map fun d => s.after e d fails

end Node

def NodeStep (s : Node) (e : NodeEvent) (t : Node) : Prop := s.next e = some t

/-- Before the reader's first connection. -/
def Node.boot : Node := ⟨⟨fun _ => none, none, .idle, []⟩, .none, false⟩

/-! ## The law -/

/-- The steps of the driver's in a run. -/
def NodeEvent.driver? : NodeEvent → Option DriverEvent
  | .step e _ => some e
  | .connect | .drop => none

/-- What the resync sends on a connection is fresh. -/
def ResendsFresh (s : Node) : NodeEvent → Prop
  | .step e _ => s.sock = .up → SendsFresh s.driver e
  | .connect | .drop => True

/-! ## The resync -/

/-- The outputs that the resync has not come to yet. -/
def Reader.todo : Reader → List Output
  | .idle | .lamp _ => []
  | .rings todo | .ring _ _ todo => todo.map .ring ++ [.lamp]
  | .lampLoad => [.lamp]

theorem mem_todo_all (o : Output) : o ∈ (Reader.rings ringIds.attach).todo := by
  cases o with
  | ring id => exact List.mem_append_left _ (List.mem_map.mpr ⟨id, List.mem_attach _ _, rfl⟩)
  | lamp => exact List.mem_append_right _ (List.mem_singleton.mpr rfl)

theorem Driver.store_reader {s t : Driver} {o : Output} {cmd : CmdFor o}
    (h : s.store o cmd = some t) : t.reader = s.reader := by
  unfold Driver.store at h
  split at h
  · obtain rfl := Option.some.inj h
    rfl
  · cases h

theorem Driver.readerSend_reader {s t : Driver} {line : Line} (h : s.readerSend line = some t) :
    t.reader = s.reader := by
  unfold Driver.readerSend at h
  split at h
  · obtain rfl := Option.some.inj h
    rfl
  · cases h

/-- A load takes what is cached. -/
theorem Driver.load_todo {s t : Driver} (h : s.load = some t) : s.reader.loaded = none ∧
    ∀ o cmd, s.cmds o = some cmd → o ∈ s.reader.todo →
      o ∈ t.reader.todo ∨ t.reader.loaded = some ⟨o, cmd⟩ := by
  unfold Driver.load at h
  split at h
  · rename_i id todo hreader
    rw [hreader]
    refine ⟨rfl, fun o cmd ho hmem => ?_⟩
    rw [Reader.todo, List.map_cons, List.cons_append, List.mem_cons] at hmem
    split at h
    · rename_i cmd' hcmd
      obtain rfl := Option.some.inj h
      rcases hmem with rfl | hmem
      · rw [ho] at hcmd
        exact Or.inr (by rw [Reader.loaded, Option.some.inj hcmd])
      · exact Or.inl hmem
    · rename_i hcmd
      obtain rfl := Option.some.inj h
      rcases hmem with rfl | hmem
      · rw [ho] at hcmd
        cases hcmd
      · exact Or.inl hmem
  · rename_i hreader
    rw [hreader]
    refine ⟨rfl, fun o cmd ho hmem => ?_⟩
    obtain rfl : o = .lamp := List.mem_singleton.mp hmem
    split at h
    · obtain rfl := Option.some.inj h
      exact Or.inl (List.mem_singleton.mpr rfl)
    · rename_i hcmd
      rw [ho] at hcmd
      cases hcmd
  · rename_i hreader
    rw [hreader]
    refine ⟨rfl, fun o cmd ho hmem => ?_⟩
    obtain rfl : o = .lamp := List.mem_singleton.mp hmem
    split at h
    · rename_i cmd' hcmd
      obtain rfl := Option.some.inj h
      rw [ho] at hcmd
      exact Or.inr (by rw [Reader.loaded, Option.some.inj hcmd])
    · cases h
  · cases h

/-- A send of the resync's is of what it has loaded. -/
theorem Driver.resyncSend_todo {s t : Driver} (h : s.resyncSend = some t) :
    t.reader.todo = s.reader.todo := by
  unfold Driver.resyncSend at h
  split at h
  · rename_i hreader
    obtain rfl := Option.some.inj h
    rw [hreader]
    rfl
  · rename_i hreader
    obtain rfl := Option.some.inj h
    rw [hreader]
    rfl
  · cases h

/-! ## The invariant -/

/-- The last commands are in the cache. -/
structure Cached (c : Cache) (d : Driver) : Prop where
  cached : ∀ o cmd, c o = some cmd → d.cmds o = some cmd
  pending : ∀ o cmd, d.callback = some ⟨o, cmd⟩ → d.cmds o = some cmd

/-- On a connection that has seen its hello, what is cached for an output was the last thing sent
for it, or its callback or the resync has yet to send it. -/
def Caught (d : Driver) : Prop :=
  ∀ o cmd, d.cmds o = some cmd → d.callback = some ⟨o, cmd⟩ ∨
    lastSent o d.wire = some cmd.line ∨ o ∈ d.reader.todo ∨ d.reader.loaded = some ⟨o, cmd⟩

theorem Cached.step {c : Cache} {d d' : Driver} {e : DriverEvent} (h : Cached c d)
    (hs : DriverStep d e d') : Cached (c.note e) d' := by
  have hquiet : e.command = none → c.note e = c := by
    intro he
    rw [Cache.note, he]
  rcases hs.cases with ⟨o, cmd, he, -, hcmds, hcallback, -⟩ | ⟨o, cmd, he, -, hcmds, hcallback, -⟩ |
    ⟨o, cmd, rfl, -, hcmds, hcallback, -⟩ | ⟨he, hcmds, hcallback, -⟩
  · have hnote : c.note e = Function.update c o (some cmd) := by
      rw [Cache.note, he]
    refine ⟨fun o' cmd' ho' => ?_, fun o' cmd' ho' => ?_⟩
    · rw [hnote] at ho'
      rw [hcmds]
      by_cases heq : o' = o
      · subst heq
        rwa [Function.update_self] at ho' ⊢
      · rw [Function.update_of_ne heq] at ho' ⊢
        exact h.cached o' cmd' ho'
    · rw [hcallback] at ho'
      obtain ⟨rfl, hcmd⟩ := Sigma.mk.inj (Option.some.inj ho')
      rw [hcmds, Function.update_self, eq_of_heq hcmd]
  · rw [hquiet he]
    refine ⟨by rw [hcmds]; exact h.cached, fun o' cmd' ho' => ?_⟩
    rw [hcallback] at ho'
    cases ho'
  · exact ⟨by rw [hcmds]; exact h.cached, by rw [hcmds, hcallback]; exact h.pending⟩
  · rw [hquiet he]
    exact ⟨by rw [hcmds]; exact h.cached, by rw [hcmds, hcallback]; exact h.pending⟩

section Step

variable {c : Cache} {d d' : Driver}

theorem Caught.store (h : Caught d) {o : Output} {cmd : CmdFor o} (hs : d.store o cmd = some d') :
    Caught d' := by
  have hreader := Driver.store_reader hs
  obtain ⟨hidle, hcmds, hcallback, hwire⟩ := Driver.store_some hs
  intro o' cmd' ho'
  rw [hcallback, hwire, hreader]
  rw [hcmds] at ho'
  by_cases heq : o' = o
  · subst heq
    rw [Function.update_self] at ho'
    exact Or.inl (by rw [Option.some.inj ho'])
  · rw [Function.update_of_ne heq] at ho'
    rcases h o' cmd' ho' with hp | hrest
    · rw [hidle] at hp
      cases hp
    · exact Or.inr hrest

theorem Caught.callbackSend (hcached : Cached c d) (h : Caught d) {o : Output} {cmd : CmdFor o}
    (hpending : d.callback = some ⟨o, cmd⟩) :
    Caught { d.send cmd.line with callback := none } := by
  intro o' cmd' ho'
  have hcmd' : d.cmds o' = some cmd' := ho'
  show _ ∨ lastSent o' (d.wire ++ [cmd.line]) = some cmd'.line ∨ o' ∈ d.reader.todo ∨
    d.reader.loaded = some ⟨o', cmd'⟩
  refine Or.inr ?_
  rw [lastSent_send]
  by_cases heq : o' = o
  · subst heq
    have hcmd := hcached.pending o' cmd hpending
    rw [hcmd'] at hcmd
    exact Or.inl (by rw [if_pos rfl, Option.some.inj hcmd])
  · rw [if_neg heq]
    rcases h o' cmd' hcmd' with hp | hrest
    · rw [hpending] at hp
      exact absurd (Sigma.mk.inj (Option.some.inj hp)).1.symm heq
    · exact hrest

theorem Caught.hello (hs : DriverStep d .hello d') : Caught d' := by
  have hreader : d'.reader = .rings ringIds.attach := by
    simp only [DriverStep, Driver.next] at hs
    split at hs
    · obtain rfl := Option.some.inj hs
      rfl
    · cases hs
  intro o cmd _
  rw [hreader]
  exact Or.inr (Or.inr (Or.inl (mem_todo_all o)))

theorem Caught.load (h : Caught d) (hs : d.load = some d') : Caught d' := by
  obtain ⟨hcmds, hcallback, hwire⟩ := Driver.load_some hs
  obtain ⟨hnone, htodo⟩ := Driver.load_todo hs
  intro o cmd ho
  rw [hcmds] at ho
  rw [hcallback, hwire]
  rcases h o cmd ho with hp | hl | hmem | hload
  · exact Or.inl hp
  · exact Or.inr (Or.inl hl)
  · exact Or.inr (Or.inr (htodo o cmd ho hmem))
  · rw [hnone] at hload
    cases hload

theorem Caught.resyncSend (hcached : Cached c d) (h : Caught d) (hs : d.resyncSend = some d')
    (hfresh : SendsFresh d .resyncSend) : Caught d' := by
  obtain ⟨o, cmd, hload, hcmds, hcallback, hwire⟩ := Driver.resyncSend_some hs
  intro o' cmd' ho'
  rw [hcmds] at ho'
  rw [hcallback, hwire, lastSent_send, Driver.resyncSend_todo hs]
  by_cases heq : o' = o
  · subst heq
    rw [if_pos rfl]
    rcases hfresh rfl o' cmd hload with hf | ⟨cmd'', hp⟩
    · rw [hf] at ho'
      exact Or.inr (Or.inl (by rw [Option.some.inj ho']))
    · have hcmd := hcached.pending o' cmd'' hp
      rw [ho'] at hcmd
      exact Or.inl (by rw [hp, Option.some.inj hcmd])
  · rw [if_neg heq]
    rcases h o' cmd' ho' with hp | hl | hmem | hload'
    · exact Or.inl hp
    · exact Or.inr (Or.inl hl)
    · exact Or.inr (Or.inr (Or.inl hmem))
    · rw [hload] at hload'
      exact absurd (Sigma.mk.inj (Option.some.inj hload')).1.symm heq

theorem Caught.readerSend (h : Caught d) {line : Line} (hs : d.readerSend line = some d')
    (hnone : ∀ o : Output, ¬ o.head <+: line) : Caught d' := by
  have hreader := Driver.readerSend_reader hs
  obtain ⟨hcmds, hcallback, hwire⟩ := Driver.readerSend_some hs
  intro o cmd ho
  rw [hcmds] at ho
  rw [hcallback, hwire, hreader, lastSent_other (hnone o)]
  exact h o cmd ho

/-- A step of the driver's on a connection. -/
theorem Caught.step {e : DriverEvent} (hcached : Cached c d) (h : Caught d)
    (hs : DriverStep d e d') (hfresh : SendsFresh d e) : Caught d' := by
  cases e with
  | onRing id r g b brightness => exact h.store hs
  | onLamp on => exact h.store hs
  | callbackSend =>
    simp only [DriverStep, Driver.next] at hs
    split at hs
    · rename_i o cmd hpending
      obtain rfl := Option.some.inj hs
      exact h.callbackSend hcached hpending
    · cases hs
  | hello => exact .hello hs
  | load => exact h.load hs
  | resyncSend => exact h.resyncSend hcached hs hfresh
  | ping => exact h.readerSend hs fun o => (requests_for_none o).1
  | helloRequest => exact h.readerSend hs fun o => (requests_for_none o).2

end Step

/-! ## Runs -/

/-- What a step can do. -/
theorem NodeStep.cases {s t : Node} {e : NodeEvent} (hs : NodeStep s e t) :
    (e = .connect ∧ t = ⟨{ s.driver with wire := [] }, .up, false⟩) ∨
    (e = .drop ∧ t = { s with sock := .none }) ∨
    ∃ e' fails d, e = .step e' fails ∧ DriverStep s.driver e' d ∧ t = s.after e' d fails := by
  cases e with
  | connect =>
    simp only [NodeStep, Node.next] at hs
    split at hs
    · exact Or.inl ⟨rfl, (Option.some.inj hs).symm⟩
    · cases hs
    · cases hs
  | drop =>
    simp only [NodeStep, Node.next] at hs
    split at hs
    · exact Or.inr (Or.inl ⟨rfl, (Option.some.inj hs).symm⟩)
    · exact Or.inr (Or.inl ⟨rfl, (Option.some.inj hs).symm⟩)
    · cases hs
  | step e' fails =>
    simp only [NodeStep, Node.next] at hs
    split at hs
    · cases hs
    · obtain ⟨d, hd, rfl⟩ := Option.map_eq_some_iff.mp hs
      exact Or.inr (Or.inr ⟨e', fails, d, rfl, hd, rfl⟩)

def Cache.noteNode (c : Cache) (e : NodeEvent) : Cache := e.driver?.elim c c.note

/-- What holds at every moment. -/
structure Catching (c : Cache) (s : Node) : Prop where
  cached : Cached c s.driver
  caught : s.sock = .up → s.helloSeen = true → Caught s.driver

/-- On a connection that is still up the lines of the step have gone out. -/
theorem Node.after_up {s : Node} {e : DriverEvent} {d : Driver} {fails : Bool}
    (hup : (s.after e d fails).sock = .up) : s.sock = .up ∧ (s.after e d fails).driver = d := by
  unfold Node.after at hup ⊢
  dsimp only at hup ⊢
  split at hup
  · cases hup
  · rename_i hsent
    refine ⟨hup, ?_⟩
    cases fails with
    | false => rw [if_pos ⟨hup, rfl⟩]
    | true =>
      have hwire : d.wire = s.driver.wire := by
        by_contra hne
        exact hsent ⟨hup, rfl, hne⟩
      rw [if_neg (by simp), ← hwire]

theorem Cached.node {c : Cache} {s t : Node} {e : NodeEvent} (h : Cached c s.driver)
    (hs : NodeStep s e t) : Cached (c.noteNode e) t.driver := by
  rcases hs.cases with ⟨rfl, rfl⟩ | ⟨rfl, rfl⟩ | ⟨e', fails, d, rfl, hd, rfl⟩
  · exact ⟨h.cached, h.pending⟩
  · exact h
  · obtain ⟨hcached, hpending⟩ := h.step hd
    exact ⟨hcached, hpending⟩

/-- The step lemma. -/
theorem Catching.step {c : Cache} {s t : Node} {e : NodeEvent} (h : Catching c s)
    (hs : NodeStep s e t) (hfresh : ResendsFresh s e) : Catching (c.noteNode e) t := by
  refine ⟨h.cached.node hs, fun hup hseen => ?_⟩
  rcases hs.cases with ⟨rfl, rfl⟩ | ⟨rfl, rfl⟩ | ⟨e', fails, d, rfl, hd, rfl⟩
  · cases hseen
  · cases hup
  · obtain ⟨hwas, hdriver⟩ := Node.after_up hup
    rw [hdriver]
    rcases Bool.or_eq_true_iff.mp hseen with hold | hhello
    · exact (h.caught hwas hold).step h.cached hd (hfresh hwas)
    · cases e' with
      | hello => exact .hello hd
      | _ => cases hhello

/-- The run lemma. -/
theorem Catching.run {c : Cache} {s t : Node} {l : List NodeEvent} (h : Catching c s)
    (r : Run (Guarded NodeStep ResendsFresh) s l t) : Catching (l.foldl Cache.noteNode c) t := by
  induction r generalizing c with
  | nil _ => exact h
  | cons hs _ ih => exact ih (h.step hs.1 hs.2)

/-- The cache, on any connections. -/
theorem Cached.run {c : Cache} {s t : Node} {l : List NodeEvent} (h : Cached c s.driver)
    (r : Run NodeStep s l t) : Cached (l.foldl Cache.noteNode c) t.driver := by
  induction r generalizing c with
  | nil _ => exact h
  | cons hs _ ih => exact ih (h.node hs)

theorem noteNode_commanded (l : List NodeEvent) :
    l.foldl Cache.noteNode (fun _ => none) = commanded (l.filterMap NodeEvent.driver?) := by
  rw [commanded, List.foldl_filterMap]
  refine congrArg (fun f => List.foldl f (fun _ => none) l) (funext fun c => funext fun e => ?_)
  unfold Cache.noteNode
  cases e.driver? <;> rfl

/-- From the last time that there was no connection. -/
theorem Catching.of_boot {l₀ l : List NodeEvent} {s t : Node} (r₀ : Run NodeStep .boot l₀ s)
    (hdown : s.sock = .none) (r : Run (Guarded NodeStep ResendsFresh) s l t) :
    Catching (commanded ((l₀ ++ l).filterMap NodeEvent.driver?)) t := by
  have hboot : Cached (fun _ => none) Node.boot.driver := by
    refine ⟨fun o cmd ho => ?_, fun o cmd ho => ?_⟩
    · cases ho
    · cases ho
  have hstart : Catching _ s := ⟨hboot.run r₀, fun hs _ => by rw [hdown] at hs; cases hs⟩
  have hend := hstart.run r
  rwa [← List.foldl_append, noteNode_commanded] at hend

/-- When all calls have finished there is nothing left to send. -/
theorem Catching.sent {c : Cache} {t : Node} (h : Catching c t) (hup : t.sock = .up)
    (hseen : t.helloSeen = true) (hquiet : t.driver.Quiet) {o : Output} {cmd : CmdFor o}
    (ho : c o = some cmd) : lastSent o t.driver.wire = some cmd.line := by
  obtain ⟨hnone, hidle⟩ := hquiet
  rcases h.caught hup hseen o cmd (h.cached.cached o cmd ho) with hp | hl | hmem | hload
  · rw [hnone] at hp
    cases hp
  · exact hl
  · rw [hidle] at hmem
    cases hmem
  · rw [hidle] at hload
    cases hload

/-- **The driver converges on every connection** that stays up: from the last time that it had none,
its resyncs have sent nothing stale. -/
theorem reconnect_converges {l₀ l : List NodeEvent} {s t : Node} (r₀ : Run NodeStep .boot l₀ s)
    (hdown : s.sock = .none) (r : Run (Guarded NodeStep ResendsFresh) s l t) (hup : t.sock = .up)
    (hseen : t.helloSeen = true) (hquiet : t.driver.Quiet) :
    Converged (commanded ((l₀ ++ l).filterMap NodeEvent.driver?)) t.driver := by
  have h := Catching.of_boot r₀ hdown r
  refine ⟨h.cached.cached, fun o cmd ho => h.sent hup hseen hquiet ho, fun o cmd ho p => ?_⟩
  rw [exec_eq_lastSent, h.sent hup hseen hquiet ho, Option.some_or]

/-- The lamp is switched on with no connection; the first one breaks in the resync. -/
def beforeConnect : List NodeEvent := [.step (.onLamp true) false, .step .callbackSend false]

def brokenResync : List NodeEvent :=
  [.connect, .step .hello false, .step .load false, .step .load false, .step .load false,
    .step .load false, .step .resyncSend true, .drop,
    .connect, .step .hello false, .step .load false, .step .load false, .step .load false,
    .step .load false, .step .resyncSend false]

theorem brokenResync_run : ∃ s t, Run NodeStep .boot beforeConnect s ∧ s.sock = .none ∧
    Run (Guarded NodeStep ResendsFresh) s brokenResync t ∧ t.sock = .up ∧ t.helloSeen = true ∧
      t.driver.Quiet ∧ t.driver.wire = [fmtLampCmd true] := by
  have hother : ∀ {s : Node} {e : DriverEvent} {fails : Bool}, e ≠ .resyncSend →
      ResendsFresh s (.step e fails) := fun he _ h => absurd h he
  refine ⟨_, _, .cons rfl (.cons rfl (.nil _)), rfl,
    .cons ⟨rfl, trivial⟩ (.cons ⟨rfl, hother (by simp)⟩ (.cons ⟨rfl, hother (by simp)⟩
      (.cons ⟨rfl, hother (by simp)⟩ (.cons ⟨rfl, hother (by simp)⟩ (.cons ⟨rfl, hother (by simp)⟩
      (.cons ⟨rfl, ?_⟩ (.cons ⟨rfl, trivial⟩
    (.cons ⟨rfl, trivial⟩ (.cons ⟨rfl, hother (by simp)⟩ (.cons ⟨rfl, hother (by simp)⟩
      (.cons ⟨rfl, hother (by simp)⟩ (.cons ⟨rfl, hother (by simp)⟩ (.cons ⟨rfl, hother (by simp)⟩
      (.cons ⟨rfl, ?_⟩ (.nil _))))))))))))))), rfl, rfl, ⟨rfl, rfl⟩, rfl⟩
  all_goals
    intro _ _ o cmd hload
    cases hload
    exact Or.inl rfl

theorem reconnect_converges_lamp : ∃ t : Node, t.sock = .up ∧
    Converged (commanded ((beforeConnect ++ brokenResync).filterMap NodeEvent.driver?))
      t.driver := by
  obtain ⟨s, t, r₀, hdown, r, hup, hseen, hquiet, -⟩ := brokenResync_run
  exact ⟨t, hup, reconnect_converges r₀ hdown r hup hseen hquiet⟩

end EthPanel
