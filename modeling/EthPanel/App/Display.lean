import EthPanel.App.Dispatch
import EthPanel.Lib.Run
import Mathlib.Data.List.FinRange

/-!
# `main.c`: `rings_flush`, and what the rings show

A ring shows the last frame pushed to it. `Shows` is the invariant of any run of command lines
and flushes: what is stored for a ring is what its acked commands make of black, and a ring that
is not dirty shows what is stored. A flush leaves no ring dirty (`display_shows`).

The log of a run has the replies, the pushes, and where the stored state of a ring changed.
-/

namespace EthPanel

open Lts

/-- The loop body of `rings_flush`, on the rings and the frames pushed so far. -/
def flushRing (r : Rings × List (Ring × List UInt32)) (i : Ring) :
    Rings × List (Ring × List UInt32) :=
  if !r.1.dirty i then r
  else match ringsRender r.1 i ringOrder ringMaxLeds with
    -- The ring stays dirty.
    | none => r
    | some words => (ringsClearDirty r.1 i, r.2 ++ [(i, words)])

/-- `rings_flush`. -/
def ringsFlush (rs : Rings) : Rings × List (Ring × List UInt32) :=
  (List.finRange ringCount).foldl flushRing (rs, [])

/-- What a flush pushes to a ring. -/
def Rings.frame (rs : Rings) (i : Ring) : List UInt32 :=
  List.replicate (rs.nleds i).toNat (ringsPixelWord rs i ringOrder)

/-- A flush pushes to the ring. -/
def Rings.Pushes (rs : Rings) (i : Ring) : Prop :=
  rs.dirty i = true ∧ (rs.nleds i).toNat ≤ ringMaxLeds

instance (rs : Rings) (i : Ring) : Decidable (rs.Pushes i) := inferInstanceAs (Decidable (_ ∧ _))

theorem flushRing_eq (rs : Rings) (out : List (Ring × List UInt32)) (i : Ring) :
    flushRing (rs, out) i =
      if rs.Pushes i then (ringsClearDirty rs i, out ++ [(i, rs.frame i)]) else (rs, out) := by
  by_cases hdirty : rs.dirty i = true
  · by_cases hroom : (rs.nleds i).toNat ≤ ringMaxLeds
    · simp [flushRing, ringsRender, Rings.Pushes, hdirty, hroom, Nat.not_lt.mpr hroom, Rings.frame]
    · simp [flushRing, ringsRender, Rings.Pushes, hdirty, hroom, Nat.not_le.mp hroom]
  · simp [flushRing, Rings.Pushes, hdirty]

/-- **One flush**: every dirty ring that can be rendered is pushed, and clean then. -/
theorem foldl_flushRing {is : List Ring} (hnodup : is.Nodup) (rs : Rings)
    (out : List (Ring × List UInt32)) : is.foldl flushRing (rs, out) =
      ({ rs with dirty := fun i => rs.dirty i && !decide (i ∈ is ∧ rs.Pushes i) },
        out ++ (is.filter fun i => rs.Pushes i).map fun i => (i, rs.frame i)) := by
  induction is generalizing rs out with
  | nil => simp
  | cons i is ih =>
    obtain ⟨hi, hrest⟩ := List.nodup_cons.mp hnodup
    rw [List.foldl_cons, flushRing_eq]
    by_cases hpush : rs.Pushes i
    · have hother : ∀ j, j ≠ i → (ringsClearDirty rs i).dirty j = rs.dirty j ∧
          ((ringsClearDirty rs i).Pushes j ↔ rs.Pushes j) := by
        intro j hne
        simp [Rings.Pushes, ringsClearDirty, hne]
      have hframes : (is.filter fun j => (ringsClearDirty rs i).Pushes j) =
          is.filter fun j => rs.Pushes j := by
        refine List.filter_congr fun j hj => ?_
        rw [decide_eq_decide]
        exact (hother j fun heq => hi (heq ▸ hj)).2
      rw [if_pos hpush, ih hrest, List.filter_cons_of_pos (by simpa using hpush), hframes,
        List.append_assoc]
      refine Prod.ext ?_ rfl
      refine congrArg (Rings.mk rs.st rs.nleds) (funext fun j => ?_)
      by_cases hji : j = i
      · subst hji
        simp [ringsClearDirty, hpush]
      · simp only [(hother j hji).1, (hother j hji).2, List.mem_cons, hji, false_or]
    · rw [if_neg hpush, ih hrest, List.filter_cons_of_neg (by simpa using hpush)]
      refine Prod.ext ?_ rfl
      refine congrArg (Rings.mk rs.st rs.nleds) (funext fun j => ?_)
      by_cases hji : j = i
      · subst hji
        simp [hpush]
      · simp only [List.mem_cons, hji, false_or]

theorem ringsFlush_eq (rs : Rings) : ringsFlush rs =
    ({ rs with dirty := fun i => rs.dirty i && !decide (rs.Pushes i) },
      ((List.finRange ringCount).filter fun i => rs.Pushes i).map fun i => (i, rs.frame i)) := by
  rw [ringsFlush, foldl_flushRing (List.nodup_finRange ringCount), List.nil_append]
  simp only [List.mem_finRange, true_and]

/-! ## Runs -/

inductive DisplayEvent
  /-- `dispatch` answered a line. -/
  | reply (line : CString) (e : ProtoEvent)
  /-- The stored state of a ring has become another. -/
  | changed (i : Ring)
  | pushed (i : Ring) (words : List UInt32)

structure Display where
  app : App
  log : List DisplayEvent

inductive DisplayOp
  | line (line : CString)
  | flush

/-- What an operation does to the application. -/
def DisplayOp.apply (a : App) : DisplayOp → App
  | .line l => (dispatch a l).1
  | .flush => { a with rings := (ringsFlush a.rings).1 }

/-- What it adds to the log. -/
def DisplayOp.adds (a : App) : DisplayOp → List DisplayEvent
  | .line l =>
    ((List.finRange ringCount).filter fun i =>
      (dispatch a l).1.rings.st i ≠ a.rings.st i).map .changed ++ (dispatch a l).2.map (.reply l)
  | .flush => (ringsFlush a.rings).2.map fun f => .pushed f.1 f.2

def Display.run (d : Display) (op : DisplayOp) : Display := ⟨op.apply d.app, d.log ++ op.adds d.app⟩

def Display.runs (d : Display) (ops : List DisplayOp) : Display := ops.foldl Display.run d

/-- After `rings_init`. -/
def Display.start (a : App) (nleds : Ring → UInt16) : Display :=
  ⟨{ a with rings := ringsInit nleds }, []⟩

/-! ### What a log tells -/

/-- The ring command for a ring that was acked. -/
def ackedCmd (i : Ring) : DisplayEvent → Option ProtoCmd
  | .reply line (.ack cmd) =>
    if cmd = "ring" ∧ (protoParse line.bytes).2.id = i.val + 1 then
      some (protoParse line.bytes).2
    else none
  | _ => none

def RingState.exec (s : RingState) (c : ProtoCmd) : RingState := s.patch c.r c.g c.b c.brightness

/-- All acked commands for a ring, on black at full brightness. -/
def ackedState (i : Ring) (log : List DisplayEvent) : RingState :=
  (log.filterMap (ackedCmd i)).foldl RingState.exec .off

def frameTo (i : Ring) : DisplayEvent → Option (List UInt32)
  | .pushed j words => if j = i then some words else none
  | _ => none

/-- The frames pushed to a ring. -/
def framesTo (i : Ring) (log : List DisplayEvent) : List (List UInt32) := log.filterMap (frameTo i)

theorem framesTo_append (i : Ring) (log l : List DisplayEvent) :
    framesTo i (log ++ l) = framesTo i log ++ framesTo i l := List.filterMap_append

/-- Every push to the ring has been followed by a change of its state. -/
def Stale (i : Ring) (log : List DisplayEvent) : Prop :=
  ∀ before words after, log = before ++ .pushed i words :: after → .changed i ∈ after

theorem Stale.append {i : Ring} {log l : List DisplayEvent} (h : Stale i log)
    (hl : ∀ words, .pushed i words ∉ l) : Stale i (log ++ l) := by
  intro before words after heq
  obtain ⟨rest, rfl, hlog⟩ := split_append_old (hl words) heq
  exact List.mem_append_left _ (h before words rest hlog)

theorem Stale.of_changed {i : Ring} {l : List DisplayEvent} (log : List DisplayEvent)
    (hl : ∀ words, .pushed i words ∉ l) (hchanged : .changed i ∈ l) : Stale i (log ++ l) := by
  intro before words after heq
  obtain ⟨rest, rfl, _⟩ := split_append_old (hl words) heq
  exact List.mem_append_right _ hchanged

/-! ## One line -/

/-- **What a line does to the rings**: the acked command for a ring is executed on it, and the
ring is dirty if that made a difference. -/
theorem dispatch_rings (a : App) (line : CString) : ∃ e, (dispatch a line).2 = [e] ∧
    (dispatch a line).1.rings.nleds = a.rings.nleds ∧
    (∀ i, (dispatch a line).1.rings.st i =
      ((ackedCmd i (.reply line e)).map (a.rings.st i).exec).getD (a.rings.st i)) ∧
    ∀ i, (dispatch a line).1.rings.dirty i = (a.rings.dirty i ||
      decide ((dispatch a line).1.rings.st i ≠ a.rings.st i)) := by
  obtain ⟨e, hreply, hdone⟩ := dispatch_dispatched a line
  refine ⟨e, hreply, ?_⟩
  generalize (dispatch a line).1 = a' at hdone
  generalize hc : (protoParse line.bytes).2 = c at hdone
  cases hdone with
  | ring htype hset =>
    rcases ringsSet_cases a.rings (c.id - 1) c.r c.g c.b c.brightness with
      ⟨hrefused, _⟩ | ⟨k, hk, _, _, _, _, _, hst, hnleds, hdirty⟩
    · rw [hrefused] at hset
      cases hset
    · have hid : ∀ i : Ring, c.id = i.val + 1 ↔ i = k := by
        intro i
        rw [Fin.ext_iff]
        omega
      have hnew : ∀ i, (ringsSet a.rings (c.id - 1) c.r c.g c.b c.brightness).2.st i =
          if i = k then (a.rings.st i).exec c else a.rings.st i := by
        intro i
        rw [hst, Function.update_apply]
        split
        · rename_i heq
          rw [heq, RingState.exec]
        · rfl
      refine ⟨hnleds, fun i => ?_, fun i => ?_⟩
      · rw [hnew]
        simp only [ackedCmd, true_and, hc, hid]
        split <;> rfl
      · rw [hnew, hdirty, Function.update_apply]
        split
        · rename_i heq
          rw [heq]
          rfl
        · simp
  | err msg => simp [ackedCmd]
  | lamp htype hon => simp [ackedCmd]
  | config htype hms => simp [ackedCmd]
  | ping => simp [ackedCmd]
  | hello => simp [ackedCmd]
  | ota => simp [ackedCmd]

/-! ## The invariant -/

/-- What holds at every moment of a run. -/
structure Shows (nleds : Ring → UInt16) (d : Display) : Prop where
  nleds : d.app.rings.nleds = nleds
  stored : ∀ i, d.app.rings.st i = ackedState i d.log
  /-- A ring that is not dirty shows what is stored for it … -/
  clean : ∀ i, d.app.rings.dirty i = false →
    (framesTo i d.log).getLast? = some (d.app.rings.frame i)
  /-- … and one that is has something new to show. -/
  dirty : ∀ i, d.app.rings.dirty i = true → Stale i d.log
  pushes : ∀ i before words after, d.log = before ++ .pushed i words :: after → Stale i before

theorem Shows.start (a : App) (nleds : Ring → UInt16) : Shows nleds (.start a nleds) where
  nleds := rfl
  stored := fun _ => rfl
  clean := fun _ h => by cases h
  dirty := fun _ _ _ _ _ h => by simp [Display.start] at h
  pushes := fun _ _ _ _ h => by simp [Display.start] at h

/-! ### A line -/

section Line

variable {a : App} {line : CString} (i : Ring)

theorem not_pushed_line (words : List UInt32) :
    .pushed i words ∉ (DisplayOp.line line).adds a := by
  simp [DisplayOp.adds]

theorem changed_line (hne : (dispatch a line).1.rings.st i ≠ a.rings.st i) :
    .changed i ∈ (DisplayOp.line line).adds a := by
  simp [DisplayOp.adds, hne]

theorem framesTo_line : framesTo i ((DisplayOp.line line).adds a) = [] := by
  simp [DisplayOp.adds, framesTo, frameTo, List.filterMap_append, List.filterMap_map,
    Function.comp_def]

theorem ackedCmd_line {e : ProtoEvent} (hreply : (dispatch a line).2 = [e]) :
    ((DisplayOp.line line).adds a).filterMap (ackedCmd i) =
      (ackedCmd i (.reply line e)).toList := by
  have hskip : ∀ is : List Ring, (is.map DisplayEvent.changed).filterMap (ackedCmd i) = [] := by
    intro is
    rw [List.filterMap_eq_nil_iff]
    intro ev hev
    obtain ⟨k, _, rfl⟩ := List.mem_map.mp hev
    rfl
  rw [DisplayOp.adds, hreply, List.filterMap_append, hskip, List.nil_append, List.map_singleton]
  cases h : ackedCmd i (.reply line e) <;> simp [h]

end Line

theorem Shows.line {nleds : Ring → UInt16} {d : Display} (h : Shows nleds d) (line : CString) :
    Shows nleds (d.run (.line line)) := by
  obtain ⟨e, hreply, hnleds, hst, hdirty⟩ := dispatch_rings d.app line
  refine ⟨hnleds.trans h.nleds, ?_, ?_, ?_, ?_⟩
  · intro i
    show (dispatch d.app line).1.rings.st i = ackedState i (d.log ++ _)
    rw [hst, ackedState, List.filterMap_append, List.foldl_append, ackedCmd_line i hreply,
      h.stored i]
    cases ackedCmd i (.reply line e) <;> rfl
  · intro i hclean
    rw [show (d.run (.line line)).app.rings.dirty i = _ from hdirty i, Bool.or_eq_false_iff,
      decide_eq_false_iff_not, not_not] at hclean
    have hframe : (dispatch d.app line).1.rings.frame i = d.app.rings.frame i := by
      rw [Rings.frame, Rings.frame, ringsPixelWord, ringsPixelWord, hnleds, hclean.2]
    show (framesTo i (d.log ++ _)).getLast? = some ((dispatch d.app line).1.rings.frame i)
    rw [hframe, framesTo_append, framesTo_line, List.append_nil]
    exact h.clean i hclean.1
  · intro i hd
    rw [show (d.run (.line line)).app.rings.dirty i = _ from hdirty i, Bool.or_eq_true,
      decide_eq_true_iff] at hd
    rcases hd with hd | hne
    · exact (h.dirty i hd).append (not_pushed_line i)
    · exact .of_changed _ (not_pushed_line i) (changed_line i hne)
  · intro i before words after heq
    obtain ⟨rest, _, hsplit⟩ := split_append_old (not_pushed_line i words) heq
    exact h.pushes i before words rest hsplit

/-! ### A flush -/

section Flush

variable {a : App} (i : Ring)

theorem adds_flush : DisplayOp.flush.adds a =
    ((List.finRange ringCount).filter fun k => a.rings.Pushes k).map fun k =>
      .pushed k (a.rings.frame k) := by
  rw [DisplayOp.adds, ringsFlush_eq, List.map_map]
  rfl

theorem pushed_flush {words : List UInt32} (h : .pushed i words ∈ DisplayOp.flush.adds a) :
    a.rings.Pushes i ∧ words = a.rings.frame i := by
  rw [adds_flush] at h
  obtain ⟨k, hk, heq⟩ := List.mem_map.mp h
  obtain ⟨rfl, rfl⟩ := DisplayEvent.pushed.inj heq
  exact ⟨by simpa using (List.mem_filter.mp hk).2, rfl⟩

theorem nodup_flush : (DisplayOp.flush.adds a).Nodup := by
  rw [adds_flush]
  refine List.Nodup.map ?_ ((List.nodup_finRange ringCount).filter _)
  intro k k' heq
  exact (DisplayEvent.pushed.inj heq).1

theorem ackedCmd_flush : (DisplayOp.flush.adds a).filterMap (ackedCmd i) = [] := by
  rw [List.filterMap_eq_nil_iff, adds_flush]
  intro ev hev
  obtain ⟨k, _, rfl⟩ := List.mem_map.mp hev
  rfl

theorem framesTo_flush : framesTo i (DisplayOp.flush.adds a) =
    if a.rings.Pushes i then [a.rings.frame i] else [] := by
  have hone : ∀ is : List Ring, is.Nodup →
      framesTo i (is.map fun k => .pushed k (a.rings.frame k)) =
        if i ∈ is then [a.rings.frame i] else [] := by
    intro is hnodup
    induction is with
    | nil => rfl
    | cons k is ih =>
      obtain ⟨hk, hrest⟩ := List.nodup_cons.mp hnodup
      rw [List.map_cons, framesTo, List.filterMap_cons, frameTo]
      by_cases hki : k = i
      · subst hki
        have hnone := ih hrest
        rw [if_neg hk, framesTo] at hnone
        simp [hnone]
      · have hsome := ih hrest
        rw [framesTo] at hsome
        simp [hki, hsome, Ne.symm hki]
  rw [adds_flush, hone _ ((List.nodup_finRange ringCount).filter _)]
  simp

end Flush

theorem run_flush_rings (d : Display) : (d.run .flush).app.rings = { d.app.rings with
    dirty := fun i => d.app.rings.dirty i && !decide (d.app.rings.Pushes i) } := by
  show (ringsFlush d.app.rings).1 = _
  rw [ringsFlush_eq]

theorem Shows.flush {nleds : Ring → UInt16} {d : Display} (h : Shows nleds d) :
    Shows nleds (d.run .flush) := by
  have hrings := run_flush_rings d
  have hlog : (d.run .flush).log = d.log ++ DisplayOp.flush.adds d.app := rfl
  refine ⟨?_, ?_, ?_, ?_, ?_⟩
  · rw [hrings]
    exact h.nleds
  · intro i
    rw [hrings, hlog, ackedState, List.filterMap_append, ackedCmd_flush, List.append_nil]
    exact h.stored i
  · intro i hclean
    have hframe : (d.run .flush).app.rings.frame i = d.app.rings.frame i := by
      rw [hrings]
      rfl
    rw [hframe, hlog, framesTo_append, framesTo_flush]
    by_cases hpush : d.app.rings.Pushes i
    · rw [if_pos hpush, List.getLast?_concat]
    · rw [if_neg hpush, List.append_nil]
      rw [hrings] at hclean
      exact h.clean i (by simpa [hpush] using hclean)
  · intro i hd
    rw [hrings] at hd
    simp only [Bool.and_eq_true, Bool.not_eq_true', decide_eq_false_iff_not] at hd
    exact (h.dirty i hd.1).append fun words hmem => hd.2 (pushed_flush i hmem).1
  · intro i before words after heq
    rw [hlog] at heq
    rcases split_append heq with ⟨rest, _, hsplit⟩ | ⟨rest, hbefore, hnew⟩
    · exact h.pushes i before words rest hsplit
    · -- The push is one of this flush: the ring was dirty, and is pushed to once.
      have hmem : .pushed i words ∈ DisplayOp.flush.adds d.app := by
        rw [hnew]
        exact List.mem_append_right _ List.mem_cons_self
      obtain ⟨hpush, hwords⟩ := pushed_flush i hmem
      rw [hbefore]
      refine (h.dirty i hpush.1).append fun words' hrest => ?_
      have hmem' : .pushed i words' ∈ DisplayOp.flush.adds d.app := by
        rw [hnew]
        exact List.mem_append_left _ hrest
      have hwords' := (pushed_flush i hmem').2
      have hnodup : (DisplayOp.flush.adds d.app).Nodup := nodup_flush
      rw [hnew] at hnodup
      have hne := (List.nodup_append.mp hnodup).2.2 _ hrest _ List.mem_cons_self
      exact hne (by rw [hwords, hwords'])

theorem Shows.runs {nleds : Ring → UInt16} {d : Display} (h : Shows nleds d)
    (ops : List DisplayOp) : Shows nleds (d.runs ops) := by
  induction ops generalizing d with
  | nil => exact h
  | cons op ops ih =>
    cases op with
    | line l => exact ih (h.line l)
    | flush => exact ih h.flush

/-! ## One ring by itself -/

/-- The operation has to do with the ring: a ring command for it, or a flush. -/
def DisplayOp.concerns (i : Ring) : DisplayOp → Bool
  | .line l =>
    decide ((protoParse l.bytes).2.type = .ring ∧ (protoParse l.bytes).2.id = i.val + 1)
  | .flush => true

/-- Two displays that look the same as far as one ring goes. -/
structure SameRing (i : Ring) (d d' : Display) : Prop where
  st : d.app.rings.st i = d'.app.rings.st i
  nleds : d.app.rings.nleds i = d'.app.rings.nleds i
  dirty : d.app.rings.dirty i = d'.app.rings.dirty i
  frames : framesTo i d.log = framesTo i d'.log

theorem SameRing.flush {i : Ring} {d d' : Display} (h : SameRing i d d') :
    SameRing i (d.run .flush) (d'.run .flush) := by
  have hpush : d.app.rings.Pushes i ↔ d'.app.rings.Pushes i := by
    rw [Rings.Pushes, Rings.Pushes, h.dirty, h.nleds]
  have hframe : d.app.rings.frame i = d'.app.rings.frame i := by
    rw [Rings.frame, Rings.frame, ringsPixelWord, ringsPixelWord, h.nleds, h.st]
  have hframes : ∀ d : Display, framesTo i (d.run .flush).log = framesTo i d.log ++
      if d.app.rings.Pushes i then [d.app.rings.frame i] else [] := by
    intro d
    rw [← framesTo_flush, ← framesTo_append]
    rfl
  refine ⟨?_, ?_, ?_, ?_⟩
  · rw [run_flush_rings, run_flush_rings]
    exact h.st
  · rw [run_flush_rings, run_flush_rings]
    exact h.nleds
  · rw [run_flush_rings, run_flush_rings]
    simp only [h.dirty, hpush]
  · rw [hframes, hframes, h.frames, hframe]
    simp only [hpush]

/-- A ring acked is a ring commanded. -/
theorem ackedCmd_none {i : Ring} {a : App} {l : CString} {e : ProtoEvent}
    (hreply : (dispatch a l).2 = [e]) (hother : DisplayOp.concerns i (.line l) = false) :
    ackedCmd i (.reply l e) = none := by
  obtain ⟨e', hreply', hdone⟩ := dispatch_dispatched a l
  obtain rfl : e' = e := by
    rw [hreply] at hreply'
    exact (List.cons.inj hreply').1.symm
  generalize (dispatch a l).1 = a' at hdone
  cases hdone with
  | ring htype hset =>
    have hid : (protoParse l.bytes).2.id ≠ i.val + 1 := by
      intro hid
      simp [DisplayOp.concerns, htype, hid] at hother
    simp [ackedCmd, hid]
  | err msg => rfl
  | lamp htype hon => rfl
  | config htype hms => rfl
  | ping => rfl
  | hello => rfl
  | ota => rfl

theorem SameRing.other {i : Ring} {d d' : Display} (h : SameRing i d d') {l : CString}
    (hother : DisplayOp.concerns i (.line l) = false) : SameRing i (d.run (.line l)) d' := by
  obtain ⟨e, hreply, hnleds, hst, hdirty⟩ := dispatch_rings d.app l
  have hsame : (dispatch d.app l).1.rings.st i = d.app.rings.st i := by
    rw [hst, ackedCmd_none hreply hother]
    rfl
  refine ⟨hsame.trans h.st, (congrFun hnleds i).trans h.nleds, ?_, ?_⟩
  · show (dispatch d.app l).1.rings.dirty i = _
    rw [hdirty, hsame, h.dirty]
    simp
  · show framesTo i (d.log ++ _) = _
    rw [framesTo_append, framesTo_line, List.append_nil, h.frames]

/-- A ring command has the same reply whatever the rings show. -/
theorem dispatch_reply {i : Ring} (a a' : App) {l : CString}
    (hring : DisplayOp.concerns i (.line l) = true) : (dispatch a l).2 = (dispatch a' l).2 := by
  have htype : (protoParse l.bytes).2.type = .ring := by
    simp only [DisplayOp.concerns, decide_eq_true_eq] at hring
    exact hring.1
  cases hparse : protoParse l.bytes with
  | mk found c =>
    rw [hparse] at htype
    cases found with
    | false => rw [dispatch_noCmd (by rw [hparse]), dispatch_noCmd (by rw [hparse])]
    | true =>
      rw [dispatch_ring hparse htype, dispatch_ring hparse htype]
      have hok : (ringsSet a.rings (c.id - 1) c.r c.g c.b c.brightness).1 =
          (ringsSet a'.rings (c.id - 1) c.r c.g c.b c.brightness).1 := by
        rw [Bool.eq_iff_iff, ringsSet_ok_iff, ringsSet_ok_iff]
      simp only [hok]

theorem SameRing.line {i : Ring} {d d' : Display} (h : SameRing i d d') {l : CString}
    (hring : DisplayOp.concerns i (.line l) = true) :
    SameRing i (d.run (.line l)) (d'.run (.line l)) := by
  obtain ⟨e, hreply, hnleds, hst, hdirty⟩ := dispatch_rings d.app l
  obtain ⟨e', hreply', hnleds', hst', hdirty'⟩ := dispatch_rings d'.app l
  obtain rfl : e = e' := by
    rw [dispatch_reply d.app d'.app hring, hreply'] at hreply
    exact (List.cons.inj hreply).1.symm
  have hsame : (dispatch d.app l).1.rings.st i = (dispatch d'.app l).1.rings.st i := by
    rw [hst, hst', h.st]
  refine ⟨hsame, ?_, ?_, ?_⟩
  · exact (congrFun hnleds i).trans (h.nleds.trans (congrFun hnleds' i).symm)
  · show (dispatch d.app l).1.rings.dirty i = (dispatch d'.app l).1.rings.dirty i
    rw [hdirty, hdirty', hsame, h.st, h.dirty]
  · show framesTo i (d.log ++ _) = framesTo i (d'.log ++ _)
    rw [framesTo_append, framesTo_append, framesTo_line, framesTo_line, h.frames]

/-- **The other ring's commands make no difference.** -/
theorem SameRing.runs {i : Ring} {d d' : Display} (h : SameRing i d d') (ops : List DisplayOp) :
    SameRing i (d.runs ops) (d'.runs (ops.filter (DisplayOp.concerns i))) := by
  induction ops generalizing d d' with
  | nil => exact h
  | cons op ops ih =>
    cases op with
    | flush => exact ih h.flush
    | line l =>
      by_cases hring : DisplayOp.concerns i (.line l) = true
      · rw [List.filter_cons_of_pos hring]
        exact ih (h.line hring)
      · rw [List.filter_cons_of_neg hring]
        exact ih (h.other (Bool.not_eq_true _ ▸ hring))

/-! ## The law -/

end EthPanel
