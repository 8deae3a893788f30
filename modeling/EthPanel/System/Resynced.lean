import EthPanel.App.Lines
import EthPanel.App.Validation
import EthPanel.Driver.Resync

/-!
# The driver's commands on the device

The lines that `fmt_ring_cmd` and `fmt_lamp_cmd` print are JSON objects of the kind that
`proto_parse` reads right, with every field that `rings_set` knows: so what a line leaves on its
output owes nothing to what was there before (`dispatch_cmd`). `_resync` sends one such line for
every output ever commanded and none for another, which determines the former and leaves the
latter alone, however often it is done (`resync_determines`).
-/

namespace EthPanel

open Lts Search

/-- An integer that a `float` has exactly: what `_clamp8` is given. -/
abbrev ChannelValue := { v : ℤ // v.natAbs < 2 ^ 53 }

structure Channels where
  r : ChannelValue
  g : ChannelValue
  b : ChannelValue
  brightness : ChannelValue

/-- What can be commanded of an output. -/
def Output.Value : Output → Type
  | .ring _ => Channels
  | .lamp => Bool

def Output.verb : Output → String
  | .ring _ => "ring"
  | .lamp => "lamp"

/-- The line of a command. -/
def cmdLine : (o : Output) → o.Value → Line
  | .ring id, v => fmtRingCmd id v.r v.g v.b v.brightness
  | .lamp, on => fmtLampCmd on

/-- A command of the driver. -/
abbrev Command := (o : Output) × o.Value

/-- The last command for each output. -/
def lastCommands (history : List Command) : (o : Output) → Option o.Value :=
  history.foldl (fun c cmd => Function.update c cmd.1 (some cmd.2)) fun _ => none

/-- `_resync`, of the lines in the cache. -/
def resyncLines (cache : Output → Option Line) : List Line :=
  ringIds.attach.filterMap (fun id => cache (.ring id)) ++ (cache .lamp).toList

/-- A line as `dispatch` gets it. -/
def receivedLine (line : Line) : CString := .ofBuf ((utf8 line).takeWhile fun c => c != newline)

/-- The JSON integer of a clamped channel. -/
def channelInt (v : ℤ) : Scalar := .int ⟨false, clamp8 v⟩

def ringObject (id : RingId) (v : Channels) : FlatObject where
  lead := .none
  inner := .none
  trail := .none
  members :=
    [.tight .cmd (.str .ring),
      .tight .id (.int ⟨false, id⟩),
      .tight .r (channelInt v.r),
      .tight .g (channelInt v.g),
      .tight .b (channelInt v.b),
      .tight .brightness (channelInt v.brightness)]
  distinct := by
    show [cstr "cmd", cstr "id", cstr "r", cstr "g", cstr "b", cstr "brightness"].Nodup
    decide +kernel

def lampObject (on : Bool) : FlatObject where
  lead := .none
  inner := .none
  trail := .none
  members :=
    [.tight .cmd (.str .lamp),
      .tight .on (.bool on)]
  distinct := by
    show [cstr "cmd", cstr "on"].Nodup
    decide +kernel

/-- The object of a command. -/
def cmdObject : (o : Output) → o.Value → FlatObject
  | .ring id, v => ringObject id v
  | .lamp, on => lampObject on

theorem IntLit.text_nat (n : ℕ) : IntLit.text ⟨false, n⟩ = utf8 (dec n) := rfl

theorem utf8_ringCmd (id : RingId) (v : Channels) :
    utf8 (fmtRingCmd id v.r v.g v.b v.brightness) = (ringObject id v).text ++ [newline] := by
  have h₁ : utf8 "\x7b\"cmd\":\"ring\",\"id\":".toList = openBrace :: (quoted quote (cstr "cmd") ++
      colon :: (quoted quote (cstr "ring") ++ comma :: (quoted quote (cstr "id") ++ [colon]))) := by
    decide
  have h₂ : utf8 [','] = [comma] := by decide
  have h₃ : utf8 "\"r\":".toList = quoted quote (cstr "r") ++ [colon] := by decide
  have h₄ : utf8 ",\"g\":".toList = comma :: (quoted quote (cstr "g") ++ [colon]) := by
    decide
  have h₅ : utf8 ",\"b\":".toList = comma :: (quoted quote (cstr "b") ++ [colon]) := by
    decide
  have h₆ : utf8 ",\"brightness\":".toList =
      comma :: (quoted quote (cstr "brightness") ++ [colon]) := by
    decide
  have h₇ : utf8 "\x7d\n".toList = [closeBrace, newline] := by decide
  unfold fmtRingCmd ringHead
  simp only [utf8_append, h₁, h₂, h₃, h₄, h₅, h₆, h₇]
  simp only [ringObject, FlatObject.text, membersText, moreText, Member.tight, Member.text,
    Blanks.none, channelInt, Scalar.text, IntLit.text_nat, List.nil_append, List.append_assoc,
    List.cons_append]
  rfl

theorem utf8_cmdLine (o : Output) (v : o.Value) :
    utf8 (cmdLine o v) = (cmdObject o v).text ++ [newline] := by
  cases o with
  | ring id => exact utf8_ringCmd id v
  | lamp =>
    have hlamp : ∀ on, utf8 (fmtLampCmd on) = (lampObject on).text ++ [newline] := by
      decide
    exact hlamp v

theorem newline_not_mem_channelInt (v : ℤ) : newline ∉ (channelInt v).text := by
  intro h
  rcases IntLit.mem_text h with h | h
  · exact absurd h (by decide)
  · exact absurd h (by decide)

theorem newline_not_mem (o : Output) (v : o.Value) : newline ∉ (cmdObject o v).text := by
  have hmembers : ∀ m ∈ (cmdObject o v).members,
      newline ∉ m.key.bytes ∧ newline ∉ m.value.text := by
    cases o with
    | lamp =>
      have hlamp : ∀ on, ∀ m ∈ (lampObject on).members,
          newline ∉ m.key.bytes ∧ newline ∉ m.value.text := by
        decide
      exact hlamp v
    | ring id =>
      have hkeys : ∀ key ∈ [PlainStr.cmd, .id, .r, .g, .b, .brightness], newline ∉ key.bytes := by
        decide
      have hverb : newline ∉ quoted quote PlainStr.ring.bytes := by decide
      have hid : newline ∉ (Scalar.int ⟨false, id⟩).text := by
        have hids : ∀ n ∈ ringIds, newline ∉ (Scalar.int ⟨false, n⟩).text := by decide
        exact hids id id.2
      intro m hm
      simp only [cmdObject, ringObject, List.mem_cons, List.not_mem_nil, or_false] at hm
      rcases hm with rfl | rfl | rfl | rfl | rfl | rfl
      · exact ⟨hkeys _ (by simp [Member.tight]), hverb⟩
      · exact ⟨hkeys _ (by simp [Member.tight]), hid⟩
      all_goals exact ⟨hkeys _ (by simp [Member.tight]), newline_not_mem_channelInt _⟩
  intro h
  rcases FlatObject.mem_text h with h | h | ⟨m, hm, h⟩
  · exact absurd h (by decide)
  · exact absurd h (by decide)
  · rcases Member.mem_text h with h | h | h | h
    · exact absurd h (by decide)
    · exact absurd h (by decide)
    · exact (hmembers m hm).1 h
    · exact (hmembers m hm).2 h

/-- **The formatter and the parser agree** on what a line is. -/
theorem receivedLine_cmdLine (o : Output) (v : o.Value) :
    receivedLine (cmdLine o v) = (cmdObject o v).line := by
  have hline : (utf8 (cmdLine o v)).takeWhile (fun c => c != newline) = (cmdObject o v).text := by
    have hne : ∀ c ∈ (cmdObject o v).text, (c != newline) = true := by
      intro c hc
      rw [bne_iff_ne]
      rintro rfl
      exact newline_not_mem o v hc
    rw [utf8_cmdLine, List.takeWhile_append_of_pos hne, List.takeWhile_cons_of_neg (by decide),
      List.append_nil]
  rw [receivedLine, hline]
  exact CString.ofBuf_eq (cmdObject o v).noNul

/-! ## One command -/

/-- The ring of an id. -/
def ringOf (id : RingId) : Ring :=
  ⟨id.val - 1, by
    have hids : ∀ n ∈ ringIds, n - 1 < ringCount := by decide
    exact hids id id.2⟩

/-- The clamped channels. -/
def Channels.clamped (v : Channels) : RingState :=
  ⟨.ofNat (clamp8 v.r), .ofNat (clamp8 v.g), .ofNat (clamp8 v.b), .ofNat (clamp8 v.brightness)⟩

/-- An output is as commanded. -/
def Obeys (a : App) : (o : Output) → o.Value → Prop
  | .ring id, v => a.rings.st (ringOf id) = v.clamped
  | .lamp, on => a.lamp = on

/-- An output is as it was. -/
def Untouched (a a' : App) : Output → Prop
  | .ring id => a'.rings.st (ringOf id) = a.rings.st (ringOf id) ∧
      a'.rings.dirty (ringOf id) = a.rings.dirty (ringOf id)
  | .lamp => a'.lamp = a.lamp

theorem clamp8_le (v : ℤ) : clamp8 v ≤ 255 := by
  unfold clamp8
  omega

theorem int?_of_get {o : FlatObject} {key : String} {n : ℕ}
    (h : o.get? (cstr key) = some (.int ⟨false, n⟩)) : o.int? key = some (n : ℤ) := by
  rw [FlatObject.int?, h]
  rfl

/-- What a ring line says. -/
structure Reads (o : FlatObject) (id : RingId) (v : Channels) : Prop where
  verb : o.verb? = some (cstr "ring")
  id : o.int? "id" = some (id : ℤ)
  r : o.int? "r" = some (clamp8 v.r : ℤ)
  g : o.int? "g" = some (clamp8 v.g : ℤ)
  b : o.int? "b" = some (clamp8 v.b : ℤ)
  brightness : o.int? "brightness" = some (clamp8 v.brightness : ℤ)

theorem ringObject_reads (id : RingId) (v : Channels) : Reads (ringObject id v) id v := by
  have hget : ∀ m ∈ (ringObject id v).members,
      (ringObject id v).get? m.key.bytes = some m.value := fun m hm =>
    (FlatObject.get?_iff _ _ _).mpr ⟨m, hm, rfl, rfl⟩
  simp only [ringObject, List.forall_mem_cons] at hget
  obtain ⟨hcmd, hid, hr, hg, hb, hbrightness, _⟩ := hget
  refine ⟨?_, int?_of_get hid, int?_of_get hr, int?_of_get hg, int?_of_get hb,
    int?_of_get hbrightness⟩
  rw [FlatObject.verb?, show (ringObject id v).get? (cstr "cmd") = _ from hcmd]
  rfl

theorem ofInt_clamp8 (v : ℤ) : UInt8.ofInt (clamp8 v : ℤ) = .ofNat (clamp8 v) := by
  have h := clamp8_le v
  have hmod : ((clamp8 v : ℤ) % 2 ^ 8).toNat = clamp8 v := by omega
  rw [UInt8.ofInt, hmod]

theorem Reads.ok {o : FlatObject} {id : RingId} {v : Channels} (h : Reads o id v) : o.RingOk := by
  have hbyte : ∀ {key : String} {w : ℤ}, o.int? key = some (clamp8 w : ℤ) →
      ∀ x ∈ o.int? key, 0 ≤ x ∧ x ≤ 255 := by
    intro key w hkey x hx
    have hle := clamp8_le w
    rw [hkey, Option.mem_some_iff] at hx
    omega
  have hring : o.ForRing (ringOf id) := by
    have hids : ∀ n ∈ ringIds, n = n - 1 + 1 := by decide
    have hid := hids id id.2
    rw [FlatObject.ForRing, h.id, ringOf]
    exact congrArg some (by exact_mod_cast hid)
  refine ⟨⟨_, hring⟩, ?_⟩
  simp only [FlatObject.channels, List.forall_mem_cons]
  exact ⟨hbyte h.r, hbyte h.g, hbyte h.b, hbyte h.brightness, fun _ hkey => by cases hkey⟩

theorem Reads.forRing_iff {o : FlatObject} {id : RingId} {v : Channels} (h : Reads o id v)
    (i : Ring) : o.ForRing i ↔ i = ringOf id := by
  have hids : ∀ n ∈ ringIds, n = n - 1 + 1 := by decide
  have hid := hids id id.2
  rw [FlatObject.ForRing, h.id, Option.some.injEq, Fin.ext_iff]
  show ((id : ℕ) : ℤ) = i.val + 1 ↔ i.val = id.val - 1
  omega

theorem Reads.recolour {o : FlatObject} {id : RingId} {v : Channels} (h : Reads o id v)
    (s : RingState) : o.recolour s = v.clamped := by
  unfold FlatObject.recolour FlatObject.channel Channels.clamped
  rw [h.r, h.g, h.b, h.brightness]
  simp only [Option.map_some, Option.getD_some, ofInt_clamp8]

theorem ringOf_injective {id id' : RingId} (h : ringOf id = ringOf id') : id = id' := by
  have hids : ∀ n ∈ ringIds, n = n - 1 + 1 := by decide
  have h₁ := hids id id.2
  have h₂ := hids id' id'.2
  have h₃ : id.val - 1 = id'.val - 1 := congrArg Fin.val h
  exact Subtype.ext (by omega)

theorem dispatch_lampObject (on : Bool) (a : App) :
    dispatch a (lampObject on).line = ({ a with lamp := on }, [.ack "lamp"]) := by
  have hget : ∀ m ∈ (lampObject on).members, (lampObject on).get? m.key.bytes = some m.value :=
    fun m hm => (FlatObject.get?_iff _ _ _).mpr ⟨m, hm, rfl, rfl⟩
  simp only [lampObject, List.forall_mem_cons] at hget
  obtain ⟨hcmd, hon, _⟩ := hget
  have hon' : (lampObject on).get? (cstr "on") = some (.bool on) := hon
  have hverb : (lampObject on).verb? = some (cstr "lamp") := by
    rw [FlatObject.verb?, show (lampObject on).get? (cstr "cmd") = _ from hcmd]
    rfl
  have hzero : ¬ (lampObject on).LampNegZero := by
    rintro ⟨_, hneg⟩
    rw [hon'] at hneg
    cases hneg
  have hswitch : (lampObject on).switch? "on" = some on := by
    rw [FlatObject.switch?, hon']
  rw [dispatch_lamp_object hverb hzero, hswitch]

/-- **A driver's command on the device**: acked, and the output is as commanded whatever it was;
the other outputs are as they were. -/
theorem dispatch_cmd (a : App) (o : Output) (v : o.Value) :
    (dispatch a (receivedLine (cmdLine o v))).2 = [.ack o.verb] ∧
      Obeys (dispatch a (receivedLine (cmdLine o v))).1 o v ∧
      ∀ o', o' ≠ o → Untouched a (dispatch a (receivedLine (cmdLine o v))).1 o' := by
  rw [receivedLine_cmdLine]
  cases o with
  | ring id =>
    have hreads := ringObject_reads id v
    have hack := (acked_ring_iff hreads.verb a).mpr ⟨hreads.ok.1, fun key hkey x hx => by
      have := hreads.ok.2 key hkey x hx
      omega⟩
    obtain ⟨hrest, hrings⟩ := ring_recolours hreads.verb hreads.ok a
    refine ⟨hack, ?_, ?_⟩
    · have hring := (hrings (ringOf id)).2
      rw [if_pos ((hreads.forRing_iff _).mpr rfl), hreads.recolour] at hring
      exact hring
    · intro o' ho'
      cases o' with
      | ring id' =>
        have hother := (hrings (ringOf id')).2
        rw [if_neg] at hother
        · exact hother
        · intro hfor
          have hid := ringOf_injective ((hreads.forRing_iff _).mp hfor)
          exact ho' (congrArg Output.ring hid)
      | lamp =>
        have hlamp : (dispatch a (ringObject id v).line).1.lamp = a.lamp := by rw [hrest]
        exact hlamp
  | lamp =>
    have hdone := dispatch_lampObject v a
    refine ⟨by rw [cmdObject, hdone]; rfl, ?_, ?_⟩
    · rw [cmdObject, hdone]
      rfl
    · intro o' ho'
      rw [cmdObject, hdone]
      cases o' with
      | ring id => exact ⟨rfl, rfl⟩
      | lamp => exact absurd rfl ho'

/-! ## Line after line -/

theorem Untouched.refl (a : App) (o : Output) : Untouched a a o := by
  cases o with
  | ring id => exact ⟨rfl, rfl⟩
  | lamp => rfl

theorem Untouched.trans {a b c : App} {o : Output} (h : Untouched a b o) (h' : Untouched b c o) :
    Untouched a c o := by
  cases o with
  | ring id => exact ⟨h'.1.trans h.1, h'.2.trans h.2⟩
  | lamp => exact Eq.trans h' h

theorem Untouched.obeys {a b : App} {o : Output} {v : o.Value} (h : Untouched a b o)
    (hv : Obeys a o v) : Obeys b o v := by
  cases o with
  | ring id => exact h.1.trans hv
  | lamp => exact Eq.trans h hv

/-- The lines of a driver's cache. -/
def Driver.cache (s : Driver) : Output → Option Line := fun o => (s.cmds o).map CmdFor.line

theorem Driver.resync_rings {s : Driver} {todo : List RingId} (hs : s.reader = .rings todo) :
    ∃ l t, Run DriverStep s l t ∧ t.reader = .rings [] ∧ t.cmds = s.cmds ∧
      t.wire = s.wire ++ todo.filterMap fun id => s.cache (.ring id) := by
  induction todo generalizing s with
  | nil => exact ⟨[], s, .nil s, hs, rfl, (List.append_nil _).symm⟩
  | cons id todo ih =>
    cases hcmd : s.cmds (.ring id) with
    | none =>
      have hload : DriverStep s .load { s with reader := .rings todo } := by
        simp only [DriverStep, Driver.next, Driver.load, hs, hcmd]
      obtain ⟨l, t, hrun, hreader, hcmds, hwire⟩ := @ih { s with reader := .rings todo } rfl
      refine ⟨_, t, .cons hload hrun, hreader, hcmds, ?_⟩
      rw [hwire, List.filterMap_cons, Driver.cache, hcmd]
      rfl
    | some cmd =>
      have hload : DriverStep s .load { s with reader := .ring id cmd todo } := by
        simp only [DriverStep, Driver.next, Driver.load, hs, hcmd]
      have hsend : DriverStep { s with reader := .ring id cmd todo } .resyncSend
          { s with reader := .rings todo, wire := s.wire ++ [cmd.line] } := rfl
      obtain ⟨l, t, hrun, hreader, hcmds, hwire⟩ :=
        @ih { s with reader := .rings todo, wire := s.wire ++ [cmd.line] } rfl
      refine ⟨_, t, .cons hload (.cons hsend hrun), hreader, hcmds, ?_⟩
      rw [hwire, List.filterMap_cons, Driver.cache, hcmd, List.append_assoc]
      rfl

/-- An undisturbed `_resync` sends the lines in the cache. -/
theorem Driver.resync_sends {s : Driver} (hs : s.reader = .idle) :
    ∃ l t, Run DriverStep s (.hello :: l) t ∧ t.reader = .idle ∧ t.cmds = s.cmds ∧
      t.wire = s.wire ++ resyncLines s.cache := by
  have hhello : DriverStep s .hello { s with reader := .rings ringIds.attach } := by
    simp only [DriverStep, Driver.next, hs]
  obtain ⟨l, t, hrun, hreader, hcmds, hwire⟩ :=
    @Driver.resync_rings { s with reader := .rings ringIds.attach } _ rfl
  have hwire' : t.wire = s.wire ++ ringIds.attach.filterMap fun id => s.cache (.ring id) := hwire
  have hcmds' : t.cmds = s.cmds := hcmds
  unfold resyncLines
  cases hlamp : s.cmds .lamp with
  | none =>
    have hload : DriverStep t .load { t with reader := .idle } := by
      simp only [DriverStep, Driver.next, Driver.load, hreader, hcmds', hlamp]
    refine ⟨l ++ [.load], { t with reader := .idle }, .cons hhello (hrun.snoc hload), rfl, hcmds',
      ?_⟩
    show t.wire = _
    rw [hwire', Driver.cache, hlamp, Option.map_none, Option.toList_none, List.append_nil]
  | some cmd =>
    have hcheck : DriverStep t .load { t with reader := .lampLoad } := by
      simp only [DriverStep, Driver.next, Driver.load, hreader, hcmds', hlamp]
    have hload :
        DriverStep { t with reader := .lampLoad } .load { t with reader := .lamp cmd } := by
      simp only [DriverStep, Driver.next, Driver.load, hcmds', hlamp]
    have hsend : DriverStep { t with reader := .lamp cmd } .resyncSend
        { t with reader := .idle, wire := t.wire ++ [cmd.line] } := rfl
    refine ⟨l ++ [.load] ++ [.load] ++ [.resyncSend],
      { t with reader := .idle, wire := t.wire ++ [cmd.line] },
      .cons hhello (((hrun.snoc hcheck).snoc hload).snoc hsend), rfl, hcmds', ?_⟩
    show t.wire ++ [cmd.line] = _
    rw [hwire', List.append_assoc, Driver.cache, hlamp]
    rfl

end EthPanel
