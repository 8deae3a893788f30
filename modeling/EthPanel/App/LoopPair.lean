import EthPanel.App.Main
import EthPanel.App.SuperLoop

/-!
# `main.c`: the pass and its connections

`MainLoop` has all of the pass and takes the bytes of a `net_read` as they come; `SuperLoop` has the
ring and the connections, and of the pass only what reads them. Here the two run side by side: they
sample the same pin, and a `net_read` brings the one what it takes from the ring of the other.

They agree at every moment (`LoopPair.Agrees`): the lines that the pass dispatches are those of the
super-loop without their connections. Every run of `MainLoop` is one side of such a run
(`MainLoop.paired`), and what is known of the lines of the super-loop is known of the pass
(`pass_oneConnection`).
-/

namespace EthPanel

open Lts

/-- What a step does with what comes in. -/
def MainLoop.handled (s : MainLoop) : MainEvent → List (LoopOut UInt8)
  | .poll peer => if peer && !s.peerWasConnected then [.hello] else []
  | .byte =>
    match s.phase with
    | .reading (ch :: _) => (feed id s.line ch).2.map .line
    | _ => []
  | _ => []

structure LoopPair where
  main : MainLoop
  loop : SuperLoop
  /-- What `main` has done with what came in. -/
  done : List (LoopOut UInt8)

def LoopPair.boot (ip : Fin 4 → UInt8) (raw0 : Levels) (nowMs : UInt32) : LoopPair :=
  ⟨.boot ip raw0 nowMs, .start, []⟩

inductive PairEvent
  | accept
  | rx (b : UInt8)
  | main (e : MainEvent)

def PairEvent.mainEvent : PairEvent → Option MainEvent
  | .main e => some e
  | _ => none

/-- The super-loop's part in it. -/
def PairEvent.loopEvent : PairEvent → Option LoopEvent
  | .accept => some .accept
  | .rx b => some (.rx b)
  | .main (.poll peer) => some (.poll peer)
  | .main (.read _) => some .read
  | .main _ => none

/-- Each goes on if it has a part in the event. -/
structure PairStep (s : LoopPair) (e : PairEvent) (t : LoopPair) : Prop where
  main : Run MainStep s.main e.mainEvent.toList t.main
  loop : Run LoopStep s.loop e.loopEvent.toList t.loop
  read : ∀ rx, e = .main (.read rx) → rx = (s.loop.ring.take rxbufSize).map Tagged.byte
  done : t.done = s.done ++ e.mainEvent.elim [] s.main.handled

/-- What the super-loop sees of a run. -/
def loopEvents (l : List PairEvent) : List LoopEvent := l.flatMap fun e => e.loopEvent.toList

/-! ## They agree -/

def Phase.beforeRead : Phase → Bool
  | .buttons | .sending _ _ => true
  | .top | .reading _ => false

theorem MainStep.bytes_length {s t : MainLoop} {e : MainEvent} (hs : MainStep s e t) :
    e.bytes.length ≤ mainRxbufSize := by
  cases hs.did.2 with
  | read rx hphase hsize => exact hsize
  | poll peer hphase => exact Nat.zero_le _
  | sample raw nowMs hphase => exact Nat.zero_le _
  | sendBtn hphase => exact Nat.zero_le _
  | byte hphase => exact Nat.zero_le _
  | flush hphase => exact Nat.zero_le _

namespace LoopPair

/-- The super-loop does what a `net_read` brings at once, the pass byte after byte. -/
structure Agrees (s : LoopPair) : Prop where
  peer : s.loop.peerWasConnected = s.main.peerWasConnected
  polled : s.loop.polled = s.main.phase.beforeRead
  line : s.loop.line.map Tagged.byte = (feedAll id s.main.line s.main.phase.unread).1
  done : s.loop.done.map (.map Tagged.byte) =
    s.done ++ (feedAll id s.main.line s.main.phase.unread).2.map .line

theorem Agrees.boot (ip : Fin 4 → UInt8) (raw0 : Levels) (nowMs : UInt32) :
    (boot ip raw0 nowMs).Agrees := ⟨rfl, rfl, rfl, rfl⟩

section Step

variable {s t : LoopPair}

/-- Outside the loop over `rxbuf` nothing is unread. -/
theorem Agrees.settled (h : s.Agrees) (hunread : s.main.phase.unread = []) :
    s.loop.line.map Tagged.byte = s.main.line ∧ s.loop.done.map (.map Tagged.byte) = s.done := by
  have hline := h.line
  have hdone := h.done
  rw [hunread] at hline hdone
  exact ⟨hline, hdone.trans (List.append_nil _)⟩

/-- A step that leaves all of it as it is. -/
theorem Agrees.keep (h : s.Agrees) (hpeer : t.main.peerWasConnected = s.main.peerWasConnected)
    (hphase : t.main.phase.beforeRead = s.main.phase.beforeRead)
    (hunread : t.main.phase.unread = s.main.phase.unread) (hline : t.main.line = s.main.line)
    (hpeer' : t.loop.peerWasConnected = s.loop.peerWasConnected)
    (hpolled : t.loop.polled = s.loop.polled) (hline' : t.loop.line = s.loop.line)
    (hdone' : t.loop.done = s.loop.done) (hdone : t.done = s.done) : t.Agrees := by
  refine ⟨?_, ?_, ?_, ?_⟩
  · rw [hpeer, hpeer', h.peer]
  · rw [hphase, hpolled, h.polled]
  · rw [hunread, hline, hline', h.line]
  · rw [hunread, hline, hdone', hdone, h.done]

/-- A connect edge, or none. -/
theorem Agrees.poll {peer : Bool} (h : s.Agrees) (hphase : s.main.phase = .top) :
    Agrees ⟨s.main.poll peer, s.loop.poll peer, s.done ++ s.main.handled (.poll peer)⟩ := by
  obtain ⟨hline, hdone⟩ := h.settled (by rw [hphase]; rfl)
  have hwas := h.peer
  refine ⟨rfl, rfl, ?_, ?_⟩
  · show LineState.map _ (SuperLoop.poll _ _).line = (MainLoop.poll _ _).line
    unfold SuperLoop.poll MainLoop.poll
    rw [hwas]
    dsimp only
    split
    · rfl
    · exact hline
  · show List.map _ (SuperLoop.poll _ _).done = s.done ++ MainLoop.handled _ _ ++ []
    unfold SuperLoop.poll MainLoop.handled
    rw [hwas, List.append_nil, ← hdone]
    dsimp only
    split
    · exact List.map_append
    · exact (List.append_nil _).symm

/-- What `net_read` brings, the super-loop has done at once. -/
theorem Agrees.read {rx : List UInt8} {nowMs : UInt32} (h : s.Agrees)
    (hphase : s.main.phase = .sending [] nowMs)
    (hrx : rx = (s.loop.ring.take rxbufSize).map Tagged.byte) :
    Agrees ⟨{ s.main with phase := .reading rx }, s.loop.read, s.done⟩ := by
  obtain ⟨hline, hdone⟩ := h.settled (by rw [hphase]; rfl)
  have hfeed := feedAll_map Tagged.byte id s.loop.line (s.loop.ring.take rxbufSize)
  rw [hline, ← hrx] at hfeed
  refine ⟨h.peer, rfl, ?_, ?_⟩
  · exact (congrArg Prod.fst hfeed).symm
  · show List.map _ (s.loop.done ++ _) = s.done ++ List.map _ (feedAll id s.main.line rx).2
    rw [List.map_append, hdone, hfeed, List.map_map, List.map_map]
    rfl

/-- The pass catches up by a byte. -/
theorem Agrees.byte {ch : UInt8} {rx : List UInt8} (h : s.Agrees)
    (hphase : s.main.phase = .reading (ch :: rx)) :
    Agrees ⟨s.main.byte ch rx, s.loop, s.done ++ s.main.handled .byte⟩ := by
  have hpolled := h.polled
  have hline := h.line
  have hdone := h.done
  rw [hphase] at hpolled hline hdone
  refine ⟨h.peer, hpolled, hline, hdone.trans ?_⟩
  show s.done ++ ((feed id s.main.line ch).2 ++ _).map _ = s.done ++ s.main.handled .byte ++ _
  rw [MainLoop.handled, hphase, List.map_append, List.append_assoc]
  rfl

theorem Agrees.step {e : PairEvent} (h : s.Agrees) (hs : PairStep s e t) : t.Agrees := by
  obtain ⟨main, loop, done⟩ := t
  obtain ⟨hmain, hloop, hread, hdone⟩ := hs
  dsimp only at hmain hloop hdone
  cases e with
  | accept =>
    obtain rfl := hmain.eq_of_nil
    cases hloop.of_single.did
    exact h.keep rfl rfl rfl rfl rfl rfl rfl rfl (hdone.trans (List.append_nil _))
  | rx b =>
    obtain rfl := hmain.eq_of_nil
    cases hloop.of_single.did
    exact h.keep rfl rfl rfl rfl rfl rfl rfl rfl (hdone.trans (List.append_nil _))
  | main e =>
    subst hdone
    cases hmain.of_single.did.2 with
    | poll peer hphase =>
      cases hloop.of_single.did
      exact h.poll hphase
    | sample raw nowMs hphase =>
      obtain rfl := hloop.eq_of_nil
      refine h.keep rfl ?_ ?_ rfl rfl rfl rfl rfl (List.append_nil _) <;> rw [hphase] <;> rfl
    | sendBtn hphase =>
      obtain rfl := hloop.eq_of_nil
      refine h.keep rfl ?_ ?_ rfl rfl rfl rfl rfl (List.append_nil _) <;> rw [hphase] <;> rfl
    | read rx hphase hsize =>
      cases hloop.of_single.did
      have hpair := h.read hphase (hread rx rfl)
      exact hpair.keep rfl rfl rfl rfl rfl rfl rfl rfl (List.append_nil _)
    | byte hphase =>
      obtain rfl := hloop.eq_of_nil
      exact h.byte hphase
    | flush hphase =>
      obtain rfl := hloop.eq_of_nil
      refine h.keep rfl ?_ ?_ rfl rfl rfl rfl rfl (List.append_nil _) <;> rw [hphase] <;> rfl

/-- The run lemma. -/
theorem Agrees.run {l : List PairEvent} (h : s.Agrees) (r : Run PairStep s l t) : t.Agrees :=
  r.invariant (fun _ _ _ hs hstep => hs.step hstep) h

end Step

/-! ## Each can follow -/

/-- **The super-loop can follow the pass**, if its ring has what the pass reads and no more. -/
theorem Agrees.follow {s : LoopPair} {m : MainLoop} {e : MainEvent} (h : s.Agrees)
    (hm : MainStep s.main e m) (hring : s.loop.ring.map Tagged.byte = e.bytes) :
    ∃ t, PairStep s (.main e) t ∧ t.main = m ∧ t.loop.ring = [] := by
  have hpolled := h.polled
  have haside (hpart : PairEvent.loopEvent (.main e) = none) (hnone : e.bytes = []) :
      ∃ t, PairStep s (.main e) t ∧ t.main = m ∧ t.loop.ring = [] := by
    refine ⟨⟨m, s.loop, s.done ++ s.main.handled e⟩, ⟨.single hm, ?_, ?_, rfl⟩, rfl, ?_⟩
    · rw [hpart]
      exact .nil s.loop
    · rintro rx heq
      obtain rfl := PairEvent.main.inj heq
      cases hpart
    · exact List.map_eq_nil_iff.mp (hring.trans hnone)
  cases hm.did.2 with
  | poll peer hphase =>
    rw [hphase] at hpolled
    have hstep : LoopStep s.loop (.poll peer) (s.loop.poll peer) := by
      unfold LoopStep SuperLoop.next
      rw [hpolled]
      rfl
    refine ⟨⟨_, s.loop.poll peer, _⟩, ⟨.single hm, .single hstep, (fun _ heq => nomatch heq), rfl⟩,
      rfl, ?_⟩
    show (SuperLoop.poll s.loop peer).ring = []
    unfold SuperLoop.poll
    split
    · rfl
    · exact List.map_eq_nil_iff.mp hring
  | read rx hphase hsize =>
    rw [hphase] at hpolled
    have hstep : LoopStep s.loop .read s.loop.read := by
      unfold LoopStep SuperLoop.next
      rw [hpolled]
      rfl
    have hlength : s.loop.ring.length ≤ rxbufSize := by
      rw [← List.length_map (f := Tagged.byte), hring]
      exact hsize
    refine ⟨⟨_, s.loop.read, _⟩, ⟨.single hm, .single hstep, ?_, rfl⟩, rfl,
      List.drop_eq_nil_of_le hlength⟩
    intro rx' heq
    obtain rfl := MainEvent.read.inj (PairEvent.main.inj heq)
    rw [List.take_of_length_le hlength]
    exact hring.symm
  | sample raw nowMs hphase => exact haside rfl rfl
  | sendBtn hphase => exact haside rfl rfl
  | byte hphase => exact haside rfl rfl
  | flush hphase => exact haside rfl rfl

/-- What the pass is to read can come in before it does. -/
theorem exists_arrive (s : LoopPair) (bytes : List UInt8)
    (hroom : s.loop.ring.length + bytes.length < rxRingSize) :
    ∃ t, Run PairStep s (bytes.map .rx) t ∧ t.main = s.main ∧
      t.loop.ring.map Tagged.byte = s.loop.ring.map Tagged.byte ++ bytes := by
  induction bytes generalizing s with
  | nil => exact ⟨s, .nil s, rfl, (List.append_nil _).symm⟩
  | cons b bytes ih =>
    rw [List.length_cons] at hroom
    have hring : (s.loop.rx b).ring = s.loop.ring ++ [⟨s.loop.conn, b⟩] := if_pos (by omega)
    have hstep : PairStep s (.rx b) { s with loop := s.loop.rx b } :=
      ⟨.nil s.main, .single rfl, (fun _ heq => nomatch heq), (List.append_nil _).symm⟩
    obtain ⟨t, r, hmain, hbytes⟩ := ih { s with loop := s.loop.rx b } (by
      dsimp only
      rw [hring, List.length_append, List.length_singleton]
      omega)
    refine ⟨t, .cons hstep r, hmain, hbytes.trans ?_⟩
    dsimp only
    rw [hring, List.map_append, List.append_assoc]
    rfl

end LoopPair

/-! ## The runs -/

/-- What the super-loop has of a run is a run. -/
theorem LoopPair.loop_run {s t : LoopPair} {l : List PairEvent} (r : Run PairStep s l t) :
    Run LoopStep s.loop (loopEvents l) t.loop := by
  induction r with
  | nil s => exact .nil s.loop
  | cons hs _ ih => exact hs.loop.append ih

/-- **Every run of the pass** is one side of a run of the two: what it reads has come in just
before. -/
theorem MainLoop.paired {ip : Fin 4 → UInt8} {raw0 : Levels} {nowMs : UInt32} {l : List MainEvent}
    {t : MainLoop} (r : Run MainStep (.boot ip raw0 nowMs) l t) :
    ∃ k u, Run PairStep (.boot ip raw0 nowMs) k u ∧
      k.flatMap (fun e => e.mainEvent.toList) = l ∧ u.main = t ∧
      Run LoopStep .start (loopEvents k) u.loop ∧ u.Agrees := by
  have hfollow : ∀ (m : MainLoop) (e : MainEvent) (m' : MainLoop) (u : LoopPair),
      (u.main = m ∧ u.Agrees ∧ u.loop.ring = []) → MainStep m e m' →
        ∃ k v, Run PairStep u k v ∧ k.flatMap (fun e => e.mainEvent.toList) = [e] ∧
          v.main = m' ∧ v.Agrees ∧ v.loop.ring = [] := by
    rintro _ e m' u ⟨rfl, hagrees, hring⟩ hm
    have hlength := hm.bytes_length
    have hbuf : mainRxbufSize < rxRingSize := by decide
    obtain ⟨v, arrive, hmain, hbytes⟩ := u.exists_arrive e.bytes (by
      rw [hring, List.length_nil]
      omega)
    rw [hring, List.map_nil, List.nil_append] at hbytes
    rw [← hmain] at hm
    obtain ⟨w, hstep, hw, hdrained⟩ := (hagrees.run arrive).follow hm hbytes
    have r := arrive.snoc hstep
    refine ⟨_, w, r, ?_, hw, hagrees.run r, hdrained⟩
    rw [List.flatMap_append, List.flatMap_map]
    simp [PairEvent.mainEvent]
  obtain ⟨k, u, r', hsame, hmain, hagrees, _⟩ :=
    r.simulate hfollow (u := .boot ip raw0 nowMs) ⟨rfl, .boot ip raw0 nowMs, rfl⟩
  exact ⟨k, u, r', hsame.trans (List.flatMap_singleton' l), hmain, LoopPair.loop_run r', hagrees⟩

/-- **A line that the pass dispatches is one connection's**, in every run whose super-loop carries
no half-line into another connection. -/
theorem pass_oneConnection {ip : Fin 4 → UInt8} {raw0 : Levels} {nowMs : UInt32}
    {l : List PairEvent} {t : LoopPair} (r : Run PairStep (.boot ip raw0 nowMs) l t)
    (joins : Run (Guarded LoopStep Unjoined) .start (loopEvents l) t.loop) {line : List UInt8}
    (hline : .line (.dispatch line) ∈ t.done) :
    ∃ tagged : List Tagged, line = tagged.map Tagged.byte ∧
      ∀ b ∈ tagged, ∀ b' ∈ tagged, b.conn = b'.conn := by
  have hagrees := (LoopPair.Agrees.boot ip raw0 nowMs).run r
  have hmem : .line (.dispatch line) ∈ t.loop.done.map (LoopOut.map Tagged.byte) := by
    rw [hagrees.done]
    exact List.mem_append_left _ hline
  obtain ⟨out, hout, heq⟩ := List.mem_map.mp hmem
  cases out with
  | hello => cases heq
  | line out =>
    cases out with
    | lineTooLong => cases heq
    | dispatch tagged =>
      obtain rfl := LineOut.dispatch.inj (LoopOut.line.inj heq)
      exact ⟨tagged, rfl, (Unmixed.start.run joins).single tagged hout⟩

end EthPanel
