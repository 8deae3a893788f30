import EthPanel.App.Commands
import EthPanel.App.Dispatch

/-!
# What `dispatch` makes of a JSON object

`Validates` is what the protocol promises of a command: it is acked if and only if its fields are
in range, and then just these take effect. `dispatch` keeps it except where the parser's `-1` for
a field that is absent meets a field that is there and is `-1` (`RingSentinel`), and for the
lamp's `-0` (`dispatch_validates`).
-/

namespace EthPanel

open Search

/-! ## The law -/

namespace FlatObject

/-- The four channels of a ring command. -/
def channels : List String := ["r", "g", "b", "brightness"]

/-- The command is for ring `i`. -/
def ForRing (o : FlatObject) (i : Ring) : Prop := o.int? "id" = some (i.val + 1 : ℤ)

instance (o : FlatObject) (i : Ring) : Decidable (o.ForRing i) :=
  inferInstanceAs (Decidable (_ = _))

/-- There is such a ring, and every channel that is present is a byte. -/
def RingOk (o : FlatObject) : Prop :=
  (∃ i, o.ForRing i) ∧ ∀ key ∈ channels, ∀ v ∈ o.int? key, 0 ≤ v ∧ v ≤ 255

/-- There is such a ring, and every channel that is present is a byte or `-1`; one is `-1`. -/
def RingSentinel (o : FlatObject) : Prop :=
  o.verb? = some (cstr "ring") ∧ (∃ i, o.ForRing i) ∧
    (∀ key ∈ channels, ∀ v ∈ o.int? key, -1 ≤ v ∧ v ≤ 255) ∧
    ∃ key ∈ channels, o.int? key = some (-1)

/-- A channel that is present takes its value. -/
def channel (o : FlatObject) (key : String) (c : UInt8) : UInt8 := ((o.int? key).map .ofInt).getD c

/-- The ring with just the channels that are present. -/
def recolour (o : FlatObject) (s : RingState) : RingState :=
  ⟨o.channel "r" s.r, o.channel "g" s.g, o.channel "b" s.b, o.channel "brightness" s.brightness⟩

/-- What a switch says: `true` or 1, `false` or 0. -/
def switch? (o : FlatObject) (key : String) : Option Bool :=
  match o.get? (cstr key) with
  | some (.bool b) => some b
  | some (.int n) => if n.value = 1 then some true else if n.value = 0 then some false else none
  | _ => none

end FlatObject

/-- **A command is executed if and only if it is valid**, and only it is. -/
structure Validates (a : App) (o : FlatObject) : Prop where
  ring : o.verb? = some (cstr "ring") →
    ((dispatch a o.line).2 = [.ack "ring"] ↔ o.RingOk) ∧
    (o.RingOk → (dispatch a o.line).1 = { a with rings := (dispatch a o.line).1.rings } ∧
      ∀ i, (dispatch a o.line).1.rings.nleds i = a.rings.nleds i ∧
        if o.ForRing i then (dispatch a o.line).1.rings.st i = o.recolour (a.rings.st i)
        else (dispatch a o.line).1.rings.st i = a.rings.st i ∧
          (dispatch a o.line).1.rings.dirty i = a.rings.dirty i)
  lamp : o.verb? = some (cstr "lamp") →
    ((dispatch a o.line).2 = [.ack "lamp"] ↔ ∃ on, o.switch? "on" = some on) ∧
    ∀ on, o.switch? "on" = some on → (dispatch a o.line).1 = { a with lamp := on }
  config : o.verb? = some (cstr "config") →
    ((dispatch a o.line).2 = [.ack "config"] ↔
      ∃ ms, o.int? "debounce_ms" = some ms ∧ 1 ≤ ms ∧ ms ≤ 1000) ∧
    ∀ ms, o.int? "debounce_ms" = some ms → 1 ≤ ms ∧ ms ≤ 1000 →
      (dispatch a o.line).1 = { a with
        debounceMs := .ofInt ms
        buttons := buttonsSetDebounce a.buttons (.ofInt ms) }

/-! ## Fields -/

section Fields

variable {o : FlatObject} {key : String}

theorem intField_cases (o : FlatObject) (key : String) :
    (o.int? key = none ∧ o.intField key = -1) ∨
      ∃ v, o.int? key = some v ∧ o.intField key = saturate v := by
  unfold FlatObject.intField
  cases o.int? key with
  | none => exact Or.inl ⟨rfl, rfl⟩
  | some v => exact Or.inr ⟨v, rfl, rfl⟩

theorem intField_id_iff (i : Ring) : o.intField "id" = i.val + 1 ↔ o.ForRing i := by
  have hi : i.val < 2 := i.2
  unfold FlatObject.ForRing
  rcases intField_cases o "id" with ⟨hnone, hfield⟩ | ⟨v, hsome, hfield⟩
  · rw [hnone, hfield]
    constructor
    · intro h
      omega
    · intro h
      cases h
  · rw [hsome, hfield, Option.some.injEq, saturate]
    omega

/-- `rings_set` lets pass what is absent, what is a byte, and what is `-1`. -/
theorem fits_intField_iff : Fits (o.intField key) ↔ ∀ v ∈ o.int? key, -1 ≤ v ∧ v ≤ 255 := by
  rcases intField_cases o key with ⟨hnone, hfield⟩ | ⟨v, hsome, hfield⟩
  · rw [hnone, hfield]
    refine ⟨fun _ v hv => ?_, fun _ => Or.inl rfl⟩
    cases hv
  · have hfits : Fits (saturate v) ↔ -1 ≤ v ∧ v ≤ 255 := by
      unfold Fits saturate
      omega
    rw [hsome, hfield, hfits]
    exact ⟨fun h v' hv' => Option.some.inj hv' ▸ h, fun h => h v rfl⟩

theorem keepOr_intField (h : ∀ v ∈ o.int? key, 0 ≤ v ∧ v ≤ 255) (c : UInt8) :
    keepOr c (o.intField key) = o.channel key c := by
  unfold FlatObject.channel
  rcases intField_cases o key with ⟨hnone, hfield⟩ | ⟨v, hsome, hfield⟩
  · rw [hnone, hfield]
    rfl
  · have hv := h v hsome
    have hsat : saturate v = v := by
      unfold saturate
      omega
    rw [hsome, hfield, hsat, keepOr, if_neg (by omega)]
    rfl

end Fields

/-! ## A ring command -/

/-- The command, from the object. -/
theorem dispatch_ring_object {o : FlatObject} (hverb : o.verb? = some (cstr "ring")) (a : App) :
    dispatch a o.line =
      ({ a with rings := (ringsSet a.rings (o.intField "id" - 1) (o.intField "r") (o.intField "g")
        (o.intField "b") (o.intField "brightness")).2 },
      if (ringsSet a.rings (o.intField "id" - 1) (o.intField "r") (o.intField "g")
        (o.intField "b") (o.intField "brightness")).1
      then [.ack "ring"] else [.err "bad ring cmd"]) := by
  have hzero : ¬ o.LampNegZero := by
    rintro ⟨hlamp, _⟩
    rw [hverb] at hlamp
    exact absurd (Option.some.inj hlamp) (by decide)
  have hparse : protoParse o.line.bytes = (true, o.fields .ring) := by
    rw [← show CmdType.named (cstr "ring") = .ring by decide]
    exact protoParse_verb hverb hzero
  exact dispatch_ring hparse rfl

/-- What is acked: also a channel of `-1`. -/
theorem acked_ring_iff {o : FlatObject} (hverb : o.verb? = some (cstr "ring")) (a : App) :
    (dispatch a o.line).2 = [.ack "ring"] ↔ (∃ i, o.ForRing i) ∧
      ∀ key ∈ FlatObject.channels, ∀ v ∈ o.int? key, -1 ≤ v ∧ v ≤ 255 := by
  have hid : (0 ≤ o.intField "id" - 1 ∧ o.intField "id" - 1 < ringCount) ↔ ∃ i, o.ForRing i := by
    constructor
    · intro h
      refine ⟨⟨(o.intField "id" - 1).toNat, by omega⟩, (intField_id_iff _).mp ?_⟩
      show o.intField "id" = ((o.intField "id" - 1).toNat : ℤ) + 1
      omega
    · rintro ⟨i, hi⟩
      have hlt := i.2
      have hfield := (intField_id_iff i).mpr hi
      omega
  have hack : ∀ b : Bool, (if b then [ProtoEvent.ack "ring"] else [.err "bad ring cmd"]) =
      [.ack "ring"] ↔ b = true := by
    intro b
    cases b <;> simp
  rw [dispatch_ring_object hverb, hack, ringsSet_ok_iff, hid]
  simp only [fits_intField_iff, FlatObject.channels, List.forall_mem_cons, List.not_mem_nil,
    false_imp_iff, implies_true, and_true]

/-- Without a channel of `-1`: what is valid. -/
theorem acked_iff_ringOk {o : FlatObject} (hverb : o.verb? = some (cstr "ring"))
    (hsentinel : ¬ o.RingSentinel) (a : App) :
    (dispatch a o.line).2 = [.ack "ring"] ↔ o.RingOk := by
  rw [acked_ring_iff hverb]
  refine ⟨fun ⟨hid, hrange⟩ => ⟨hid, fun key hkey v hv => ?_⟩, fun hok => ⟨hok.1, ?_⟩⟩
  · obtain ⟨hmin, hmax⟩ := hrange key hkey v hv
    have hne : v ≠ -1 := by
      rintro rfl
      exact hsentinel ⟨hverb, hid, hrange, key, hkey, hv⟩
    omega
  · intro key hkey v hv
    have hbyte := hok.2 key hkey v hv
    omega

/-- What it does, if every channel is a byte. -/
theorem ring_recolours {o : FlatObject} (hverb : o.verb? = some (cstr "ring")) (hok : o.RingOk)
    (a : App) : (dispatch a o.line).1 = { a with rings := (dispatch a o.line).1.rings } ∧
      ∀ i, (dispatch a o.line).1.rings.nleds i = a.rings.nleds i ∧
        if o.ForRing i then (dispatch a o.line).1.rings.st i = o.recolour (a.rings.st i)
        else (dispatch a o.line).1.rings.st i = a.rings.st i ∧
          (dispatch a o.line).1.rings.dirty i = a.rings.dirty i := by
  have hpatch : ∀ s : RingState, s.patch (o.intField "r") (o.intField "g") (o.intField "b")
      (o.intField "brightness") = o.recolour s := by
    intro s
    unfold RingState.patch FlatObject.recolour
    rw [keepOr_intField (hok.2 "r" (by decide)), keepOr_intField (hok.2 "g" (by decide)),
      keepOr_intField (hok.2 "b" (by decide)), keepOr_intField (hok.2 "brightness" (by decide))]
  have hack := (acked_ring_iff hverb a).mpr
    ⟨hok.1, fun key hkey v hv => ⟨by have := hok.2 key hkey v hv; omega, (hok.2 key hkey v hv).2⟩⟩
  rw [dispatch_ring_object hverb] at hack ⊢
  refine ⟨rfl, fun i => ?_⟩
  rcases ringsSet_cases a.rings (o.intField "id" - 1) (o.intField "r") (o.intField "g")
    (o.intField "b") (o.intField "brightness") with
    ⟨hrefused, _⟩ | ⟨k, hk, _, _, _, _, _, hst, hnleds, hdirty⟩
  · rw [hrefused] at hack
    simp at hack
  · have hring : o.ForRing i ↔ i = k := by
      rw [← intField_id_iff, Fin.ext_iff]
      omega
    refine ⟨congrFun hnleds i, ?_⟩
    show if o.ForRing i then _ else _
    simp only [hst, hdirty, hring, hpatch]
    split
    · rename_i heq
      rw [heq, Function.update_self]
    · rename_i hne
      rw [Function.update_of_ne hne, Function.update_of_ne hne]
      exact ⟨rfl, rfl⟩

/-! ## The other commands -/

theorem boolField_eq (o : FlatObject) (key : String) :
    o.boolField key = match o.switch? key with
      | some on => if on then 1 else 0
      | none => -1 := by
  unfold FlatObject.boolField FlatObject.switch?
  cases o.get? (cstr key) with
  | none => rfl
  | some v =>
    cases v with
    | int n =>
      dsimp only
      split_ifs <;> rfl
    | str s => rfl
    | bool b => rfl
    | null => rfl

theorem dispatch_lamp_object {o : FlatObject} (hverb : o.verb? = some (cstr "lamp"))
    (hzero : ¬ o.LampNegZero) (a : App) : dispatch a o.line =
      match o.switch? "on" with
      | some on => ({ a with lamp := on }, [.ack "lamp"])
      | none => (a, [.err "bad lamp cmd"]) := by
  have hparse : protoParse o.line.bytes = (true, o.fields .lamp) := by
    rw [← show CmdType.named (cstr "lamp") = .lamp by decide]
    exact protoParse_verb hverb hzero
  have hon : (o.fields .lamp).on = o.boolField "on" := rfl
  rw [dispatch_lamp hparse rfl, hon, boolField_eq]
  cases o.switch? "on" with
  | none => rfl
  | some on => cases on <;> rfl

/-- The integer zero written `-0` is refused. -/
theorem dispatch_lampNegZero {o : FlatObject} (hzero : o.LampNegZero) (a : App) :
    dispatch a o.line = (a, [.err "bad lamp cmd"]) := by
  have hparse : protoParse o.line.bytes = (true, { ProtoCmd.absent with type := .lamp }) := by
    rw [show o.line.bytes = o.text from rfl, protoParse_text, if_pos hzero]
  rw [dispatch_lamp hparse rfl]
  rfl

theorem dispatch_config_object {o : FlatObject} (hverb : o.verb? = some (cstr "config")) (a : App) :
    dispatch a o.line = if 1 ≤ o.intField "debounce_ms" ∧ o.intField "debounce_ms" ≤ 1000 then
      ({ a with
        debounceMs := .ofInt (o.intField "debounce_ms")
        buttons := buttonsSetDebounce a.buttons (.ofInt (o.intField "debounce_ms")) },
        [.ack "config"])
      else (a, [.err "bad debounce_ms"]) := by
  have hzero : ¬ o.LampNegZero := by
    rintro ⟨hlamp, _⟩
    rw [hverb] at hlamp
    exact absurd (Option.some.inj hlamp) (by decide)
  have hparse : protoParse o.line.bytes = (true, o.fields .config) := by
    rw [← show CmdType.named (cstr "config") = .config by decide]
    exact protoParse_verb hverb hzero
  exact dispatch_config hparse rfl

theorem intField_window_iff {o : FlatObject} {key : String} {ms : ℤ} :
    o.intField key = ms ∧ 1 ≤ ms ∧ ms ≤ 1000 ↔ o.int? key = some ms ∧ 1 ≤ ms ∧ ms ≤ 1000 := by
  rcases intField_cases o key with ⟨hnone, hfield⟩ | ⟨v, hsome, hfield⟩
  · rw [hnone, hfield]
    constructor
    · intro h
      omega
    · rintro ⟨h, _⟩
      cases h
  · rw [hsome, hfield, Option.some.injEq, saturate]
    omega

theorem config_validates {o : FlatObject} (hverb : o.verb? = some (cstr "config")) (a : App) :
    ((dispatch a o.line).2 = [.ack "config"] ↔
      ∃ ms, o.int? "debounce_ms" = some ms ∧ 1 ≤ ms ∧ ms ≤ 1000) ∧
    ∀ ms, o.int? "debounce_ms" = some ms → 1 ≤ ms ∧ ms ≤ 1000 →
      (dispatch a o.line).1 = { a with
        debounceMs := .ofInt ms
        buttons := buttonsSetDebounce a.buttons (.ofInt ms) } := by
  rw [dispatch_config_object hverb]
  refine ⟨⟨fun hack => ?_, ?_⟩, ?_⟩
  · split at hack
    · rename_i hms
      exact ⟨_, intField_window_iff.mp ⟨rfl, hms⟩⟩
    · simp at hack
  · rintro ⟨ms, hms⟩
    obtain ⟨hfield, hrange⟩ := intField_window_iff.mpr hms
    rw [hfield, if_pos hrange]
  · intro ms hsome hrange
    rw [(intField_window_iff.mpr ⟨hsome, hrange⟩).1, if_pos hrange]

/-! ## When the law holds -/

theorem validates_iff (a : App) (o : FlatObject) :
    Validates a o ↔ ¬ o.RingSentinel ∧ ¬ o.LampNegZero := by
  constructor
  · intro h
    refine ⟨?_, ?_⟩
    · rintro ⟨hverb, hid, hrange, key, hkey, hminus⟩
      have hok := (h.ring hverb).1.mp ((acked_ring_iff hverb a).mpr ⟨hid, hrange⟩)
      exact absurd (hok.2 key hkey (-1) hminus).1 (by decide)
    · intro hzero
      have hoff : o.switch? "on" = some false := by
        rw [FlatObject.switch?, hzero.2]
        rfl
      have hack := (h.lamp hzero.1).1.mpr ⟨false, hoff⟩
      rw [dispatch_lampNegZero hzero] at hack
      simp at hack
  · rintro ⟨hsentinel, hzero⟩
    refine ⟨fun hverb =>
        ⟨acked_iff_ringOk hverb hsentinel a, fun hok => ring_recolours hverb hok a⟩,
      fun hverb => ?_, fun hverb => config_validates hverb a⟩
    rw [dispatch_lamp_object hverb hzero]
    cases o.switch? "on" with
    | none => simp
    | some on => simp

/-- **Validation.** To every line there is exactly one reply, and an error means that nothing has
changed. On a flat object `dispatch` keeps the protocol's promise if and only if the object is no
ring command for which a `-1` passes for an absent channel, and does not switch the lamp to `-0`. -/
theorem dispatch_validates (a : App) (line : CString) (o : FlatObject) :
    (∃ e, (dispatch a line).2 = [e] ∧ ∀ msg, e = .err msg → (dispatch a line).1 = a) ∧
    (Validates a o ↔ ¬ o.RingSentinel ∧ ¬ o.LampNegZero) := by
  refine ⟨?_, validates_iff a o⟩
  obtain ⟨e, hreply, hdone⟩ := dispatch_dispatched a line
  refine ⟨e, hreply, ?_⟩
  rintro msg rfl
  generalize (dispatch a line).1 = a' at hdone
  cases hdone
  rfl

/-- A ring command with a channel of `-1`. -/
def ringMinusOne : FlatObject := .tight
  [.tight .cmd (.str .ring),
    .tight .id (.int ⟨false, 1⟩),
    .tight .r (.int ⟨true, 1⟩)] (by decide +kernel)

example : ringMinusOne.text = cstr "\x7b\"cmd\":\"ring\",\"id\":1,\"r\":-1\x7d" := by
  decide

/-- **The promise is broken**: the command is acked. -/
theorem validates_ringMinusOne : ¬ ∀ (a : App) (o : FlatObject), Validates a o := by
  intro h
  have hsentinel : ringMinusOne.RingSentinel := by
    have hr : ringMinusOne.int? "r" = some (-1) := by decide
    have hother : ringMinusOne.int? "g" = none ∧ ringMinusOne.int? "b" = none ∧
        ringMinusOne.int? "brightness" = none := by
      decide
    refine ⟨by decide, ⟨0, by decide⟩, ?_, "r", by decide, hr⟩
    simp [FlatObject.channels, hr, hother]
  exact ((validates_iff (App.init fun _ => 0) ringMinusOne).mp (h _ _)).1 hsentinel

end EthPanel
