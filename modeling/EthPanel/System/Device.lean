import EthPanel.Bootloader.Boot
import EthPanel.Bootloader.RecoveryFlash
import EthPanel.Ota.PowerFail

/-!
# The device

Bootloader, receiver and application take turns on one flash chip and one scratch register.
A `Machine` is what survives a change of program, and which program is running; an `Event` is
something that happens to it. A recovery session is a run of `RecvStep` over an input chosen
when the session starts, so every byte stream and every pattern of timeouts is among the runs.

The power can go at any moment: between events (`powerCut`), inside an erase or program of the
slot (`slotCut`), or inside any of the three calls of `boot_state_write` (`bootCut`,
`confirmCut`, `endCut`), which then carry what became of the record. A power cut clears
SCRATCH0; a watchdog reset does not.

What the events do to the boot-state is said once, by `Step.sectors_eq` and `Step.read_eq`, and
what they may write to it by `Step.written`.
-/

namespace EthPanel

open PingPong Lts

/-- Which program has the machine. `reset` is the bootloader about to decide. -/
inductive Mode
  | reset
  | app
  | recovery (appLen appCrc : UInt32) (rx : List Rx)

structure Machine where
  flash : Flash
  scratch0 : UInt32
  mode : Mode
  /-- Not part of the device: whether the slot was ever erased or programmed. -/
  touched : Bool

inductive Event
  /-- `decide_boot_app` returned. -/
  | boot (d : BootDecision)
  /-- The power went while `decide_boot_app` was writing. -/
  | bootCut (st : BootState) (o : Outcome)
  /-- `ota_confirm` returned, having written a record or not. -/
  | confirm (saved : Option BootState)
  | confirmCut (st : BootState) (o : Outcome)
  /-- `ota_request_update`. -/
  | requestUpdate
  /-- The application was reset with the power on. -/
  | restart
  /-- One turn of the receiver's loop. -/
  | frame (fr : Frame) (saved : Option BootState)
  | slotCut (fr : Frame)
  /-- The power went while `END!` was writing its record. -/
  | endCut (st : BootState) (o : Outcome)
  | powerCut

/-- `boot_state_write` where there is something to write. -/
def saveRecord (f : Flash) (saved : Option BootState) : Flash := saved.elim f (bootStateWrite f)

/-- A write of `st` cut with outcome `o`. -/
structure CutAs (f : Flash) (st : BootState) (o : Outcome) (f' : Flash) : Prop where
  cut : CutWrite f st f'
  outcome : sectors f' = (sectors f).write seqNat (newRecord f st) o

/-- The receiver's loop goes on, or it has reset. -/
def Mode.ofRecv (c : RecvConf) : Mode :=
  if c.1.up then .recovery c.1.appLen c.1.appCrc c.2 else .reset

inductive Step : Machine → Event → Machine → Prop
  | boot {m : Machine} (h : m.mode = .reset) (rx : List Rx) :
      Step m (.boot (decideBootApp m.scratch0 m.flash))
        { m with
          flash := saveRecord m.flash (decideBootApp m.scratch0 m.flash).saved
          scratch0 := 0
          mode := if (decideBootApp m.scratch0 m.flash).boots then .app else .recovery 0 0 rx }
  | bootCut {m : Machine} {st : BootState} {o : Outcome} {f' : Flash} (h : m.mode = .reset)
      (hs : (decideBootApp m.scratch0 m.flash).saved = some st) (hc : CutAs m.flash st o f') :
      Step m (.bootCut st o) { m with flash := f', scratch0 := 0, mode := .reset }
  | confirm {m : Machine} (h : m.mode = .app) :
      Step m (.confirm (otaConfirm m.flash))
        { m with flash := saveRecord m.flash (otaConfirm m.flash) }
  | confirmCut {m : Machine} {st : BootState} {o : Outcome} {f' : Flash} (h : m.mode = .app)
      (hs : otaConfirm m.flash = some st) (hc : CutAs m.flash st o f') :
      Step m (.confirmCut st o) { m with flash := f', scratch0 := 0, mode := .reset }
  | requestUpdate {m : Machine} (h : m.mode = .app) :
      Step m .requestUpdate { m with scratch0 := otaEnterUpdateMagic, mode := .reset }
  | restart {m : Machine} (h : m.mode = .app) : Step m .restart { m with mode := .reset }
  | frame {m : Machine} {len crc : UInt32} {rx : List Rx} {fr : Frame} {c : RecvConf}
      (h : m.mode = .recovery len crc rx) (hs : RecvStep (⟨m.flash, len, crc, true⟩, rx) fr c) :
      Step m (.frame fr (savedRecord ⟨m.flash, len, crc, true⟩ fr))
        { m with
          flash := c.1.flash
          mode := .ofRecv c
          touched := m.touched || !(slotOps fr).isEmpty }
  | slotCut {m : Machine} {len crc : UInt32} {rx rest : List Rx} {fr : Frame} {f' : Flash}
      (h : m.mode = .recovery len crc rx) (hr : readFrame rx = some (fr, rest))
      (hc : CutWithin (slotOps fr) m.flash f') :
      Step m (.slotCut fr) { flash := f', scratch0 := 0, mode := .reset, touched := true }
  | endCut {m : Machine} {len crc : UInt32} {rx rest : List Rx} {st : BootState} {o : Outcome}
      {f' : Flash} (h : m.mode = .recovery len crc rx) (hr : readFrame rx = some (.end', rest))
      (hs : savedRecord ⟨m.flash, len, crc, true⟩ .end' = some st)
      (hc : CutAs m.flash st o f') :
      Step m (.endCut st o) { m with flash := f', scratch0 := 0, mode := .reset }
  | powerCut (m : Machine) : Step m .powerCut { m with scratch0 := 0, mode := .reset }

theorem Step.boot_of_eq {m : Machine} {d : BootDecision} (h : m.mode = .reset)
    (hd : decideBootApp m.scratch0 m.flash = d) (rx : List Rx) :
    Step m (.boot d) { m with
      flash := saveRecord m.flash d.saved
      scratch0 := 0
      mode := if d.boots then .app else .recovery 0 0 rx } :=
  hd ▸ .boot h rx

/-! ## Reading the events -/

namespace Event

/-- The record the event hands to `boot_state_write`, and what became of it. -/
def write : Event → Option (BootState × Outcome)
  | boot d => d.saved.map (·, .stored)
  | bootCut st o => some (st, o)
  | confirm saved => saved.map (·, .stored)
  | confirmCut st o => some (st, o)
  | frame _ saved => saved.map (·, .stored)
  | endCut st o => some (st, o)
  | _ => none

/-- The record the event leaves in flash. -/
def persisted (e : Event) : Option BootState :=
  e.write.bind fun w => if w.2 = .stored then some w.1 else none

/-- A record of the `END!` handler was persisted. -/
def endPersisted : Event → Bool
  | frame _ (some _) => true
  | endCut _ .stored => true
  | _ => false

/-- `ota_confirm` was persisted. -/
def confirmPersisted : Event → Bool
  | confirm (some _) => true
  | confirmCut _ .stored => true
  | _ => false

/-- `decide_boot_app` persisted `app_valid = 0`. -/
def demotes : Event → Bool
  | boot ⟨_, some st⟩ => st.appValid == 0
  | bootCut st .stored => st.appValid == 0
  | _ => false

/-- `decide_boot_app` returned true. -/
def booted : Event → Bool
  | boot d => d.boots
  | _ => false

end Event

/-! ## What an event does to flash -/

theorem sectors_saveRecord (f : Flash) (saved : Option BootState) :
    sectors (saveRecord f saved) = match saved with
      | none => sectors f
      | some st => (sectors f).write seqNat (newRecord f st) .stored := by
  cases saved with
  | none => rfl
  | some st => exact sectors_bootStateWrite f st

/-- **The boot-state, event by event.** -/
theorem Step.sectors_eq {m m' : Machine} {e : Event} (h : Step m e m') :
    sectors m'.flash = match e.write with
      | none => sectors m.flash
      | some (st, o) => (sectors m.flash).write seqNat (newRecord m.flash st) o := by
  cases h with
  | boot h rx =>
    show sectors (saveRecord _ _) = _
    rw [sectors_saveRecord]
    cases hs : (decideBootApp m.scratch0 m.flash).saved <;> simp [Event.write, hs]
  | bootCut h hs hc => exact hc.outcome
  | confirm h =>
    show sectors (saveRecord _ _) = _
    rw [sectors_saveRecord]
    cases hs : otaConfirm m.flash <;> simp [Event.write]
  | confirmCut h hs hc => exact hc.outcome
  | requestUpdate h => rfl
  | restart h => rfl
  | @frame len crc rx fr c' h hs =>
    show sectors c'.1.flash = _
    rw [hs.2.2]
    cases hsaved : savedRecord ⟨m.flash, len, crc, true⟩ fr with
    | none => exact sectors_execFrame hs.2.1 hsaved
    | some st =>
      rw [(execFrame_flash_of_some hsaved).2.2.2]
      exact sectors_bootStateWrite m.flash st
  | slotCut h hr hc =>
    exact sectors_congr fun i hi => hc.cutOps.of_keeps fun op hop => slotOps_keeps hr hi hop
  | endCut h hr hs hc => exact hc.outcome
  | powerCut => rfl

/-- **The current record, event by event**, as long as the sequence number does not wrap. -/
theorem Step.read_eq {m m' : Machine} {e : Event} (h : Step m e m')
    (hseq : e.write ≠ none → (sectors m.flash).maxSeq seqNat < 2 ^ 32 - 1) :
    bootStateRead m'.flash = match e.persisted with
      | none => bootStateRead m.flash
      | some st => some (newRecord m.flash st) := by
  rw [bootStateRead_eq, bootStateRead_eq, h.sectors_eq]
  unfold Event.persisted
  cases hw : e.write with
  | none => rfl
  | some w =>
    obtain ⟨st, o⟩ := w
    simp only
    have hlt := maxSeq_lt_newRecord st (hseq (by rw [hw]; exact Option.some_ne_none _))
    rw [Pair.newest_write _ hlt]
    by_cases ho : o = .stored <;> simp [ho]

theorem saveRecord_below (f : Flash) (saved : Option BootState) {i : ℕ}
    (hi : i < bootstateAOffset.toNat) : saveRecord f saved i = f i := by
  cases saved with
  | none => rfl
  | some st => exact (CutWrite.of_complete f st).below hi

theorem slotBytes_saveRecord {f : Flash} (saved : Option BootState) {len : UInt32}
    (h : len ≤ appMaxSize) : slotBytes (saveRecord f saved) len = slotBytes f len :=
  slotBytes_congr h fun _ _ hi => saveRecord_below f saved hi

theorem appVectortableSane_congr {f f' : Flash}
    (h : ∀ i, appOffset.toNat ≤ i → i < bootstateAOffset.toNat → f i = f' i) :
    appVectortableSane f = appVectortableSane f' := by
  have hoff : appVtableOffset.toNat = 0x40100 := by decide
  rw [appOffset_toNat, bootstateAOffset_toNat] at h
  unfold appVectortableSane
  have hword : ∀ k, k ≤ 4 →
      wordAt f (appVtableOffset.toNat + k) = wordAt f' (appVtableOffset.toNat + k) :=
    fun k hk => wordAt_congr fun i h₁ h₂ => h i (by omega) (by omega)
  rw [hword 4 (by omega), show wordAt f appVtableOffset.toNat = _ from hword 0 (by omega)]
  rfl

/-! ## What an event may write -/

/-- `st` is about the same image as `r`, and not more valid than it. -/
structure Copies (r st : BootState) : Prop where
  appLen : st.appLen = r.appLen
  appCrc32 : st.appCrc32 = r.appCrc32
  appValid : st.appValid = r.appValid ∨ st.appValid = 0

theorem decideBootApp_copies {scratch : UInt32} {f : Flash} {st : BootState}
    (h : (decideBootApp scratch f).saved = some st) :
    ∃ r, bootStateRead f = some r ∧ Copies r st := by
  have hd := decideBootApp_decided scratch f
  generalize decideBootApp scratch f = d at h hd
  cases hd with
  | trial hs hr hst hc ha =>
    obtain rfl := Option.some.inj h
    exact ⟨_, hr, rfl, rfl, Or.inl rfl⟩
  | demoted hs hr hst hc ha =>
    obtain rfl := Option.some.inj h
    exact ⟨_, hr, rfl, rfl, Or.inr rfl⟩
  | _ => cases h

theorem otaConfirm_copies {f : Flash} {st : BootState} (h : otaConfirm f = some st) :
    ∃ r, bootStateRead f = some r ∧ Copies r st := by
  obtain ⟨r, hr, _, _, rfl⟩ := otaConfirm_eq_some h
  exact ⟨r, hr, rfl, rfl, Or.inl rfl⟩

/-- **Who writes records**: the bootloader and the application, who copy the current one, and
`END!`, whose image check has passed. -/
theorem Step.written {m m' : Machine} {e : Event} (h : Step m e m') {st : BootState}
    {o : Outcome} (hw : e.write = some (st, o)) :
    (∃ r, bootStateRead m.flash = some r ∧ Copies r st) ∨
      ∃ len crc rx, m.mode = .recovery len crc rx ∧ imageOk ⟨m.flash, len, crc, true⟩ = true ∧
        st = endRecord ⟨m.flash, len, crc, true⟩ := by
  have hsaved : ∀ {saved : Option BootState}, saved.map (·, Outcome.stored) = some (st, o) →
      saved = some st := by
    intro saved hs
    obtain ⟨_, hst, heq⟩ := Option.map_eq_some_iff.mp hs
    rw [hst, (Prod.mk.inj heq).1]
  cases h with
  | boot h rx => exact Or.inl (decideBootApp_copies (hsaved hw))
  | bootCut h hs hc =>
    obtain ⟨rfl, -⟩ := Prod.mk.inj (Option.some.inj hw)
    exact Or.inl (decideBootApp_copies hs)
  | confirm h => exact Or.inl (otaConfirm_copies (hsaved hw))
  | confirmCut h hs hc =>
    obtain ⟨rfl, -⟩ := Prod.mk.inj (Option.some.inj hw)
    exact Or.inl (otaConfirm_copies hs)
  | frame h hs =>
    obtain ⟨_, hok, hst, _⟩ := execFrame_flash_of_some (hsaved hw)
    exact Or.inr ⟨_, _, _, h, hok, hst⟩
  | endCut h hr hs hc =>
    obtain ⟨rfl, -⟩ := Prod.mk.inj (Option.some.inj hw)
    obtain ⟨_, hok, hst, _⟩ := execFrame_flash_of_some hs
    exact Or.inr ⟨_, _, _, h, hok, hst⟩
  | _ => cases hw

end EthPanel
