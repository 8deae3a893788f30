import EthPanel.System.WholeImage

/-!
# Trial boots

An image that `END!` has accepted is on trial until the application confirms it: the bootloader
counts the boots in the record itself, and after `OTA_MAX_BOOT_ATTEMPTS` of them gives the slot
up. The counter lives in the ping-pong store, is advanced by one program and cleared by two
others, and every write of it can be cut.

`RecordStep` says what a single event can make of the current record. From it come the three
arguments about runs: on trial, the boots left go down with every boot (`trialLeft`); given up,
the record stays given up; confirmed, it stays as it is. All three rest on a new record being
the newest, that is on the sequence number not wrapping; the last one also on the image lying
in the slot, because a record whose length reaches beyond it checksums the boot-state too,
which the writes of the boot-state themselves change. `TrialCond` says both.
-/

namespace EthPanel

open PingPong Lts

/-- The law of trial boots, for the runs from `m₀`. -/
structure TrialLaw (step : Machine → Event → Machine → Prop) (m₀ : Machine) : Prop where
  /-- Between an `END!` record and the next one, or a persisted confirm, at most
  `OTA_MAX_BOOT_ATTEMPTS` boots. -/
  bounded : ∀ {m m₁ m₂ : Machine} {pre mid : List Event} {e : Event},
    Run step m₀ pre m → step m e m₁ → e.endPersisted = true → Run step m₁ mid m₂ →
    (∀ e' ∈ mid, e'.endPersisted = false ∧ e'.confirmPersisted = false) →
    mid.countP Event.booted ≤ otaMaxBootAttempts.toNat
  /-- After `app_valid = 0`, no boot until the next `END!` record. -/
  givenUp : ∀ {m m₁ m₂ m₃ : Machine} {pre mid : List Event} {e : Event} {d : BootDecision},
    Run step m₀ pre m → step m e m₁ → e.demotes = true →
    Run step m₁ mid m₂ → (∀ e' ∈ mid, e'.endPersisted = false) → step m₂ (.boot d) m₃ →
    d.boots = false
  /-- After a persisted confirm, while no `END!` record follows and the slot holds what it held:
  every boot starts the application, unless an update was requested. -/
  confirmed : ∀ {m m₁ m₂ m₃ : Machine} {pre mid : List Event} {e : Event} {d : BootDecision},
    Run step m₀ pre m → step m e m₁ → e.confirmPersisted = true →
    Run step m₁ mid m₂ → (∀ e' ∈ mid, e'.endPersisted = false) →
    (∀ i, appOffset.toNat ≤ i → i < bootstateAOffset.toNat → m₂.flash i = m₁.flash i) →
    appVectortableSane m₂.flash = true → m₂.scratch0 ≠ otaEnterUpdateMagic →
    step m₂ (.boot d) m₃ → d.boots = true
  /-- Bootloader and application write only records about the image they read about. -/
  sameImage : ∀ {m m' : Machine} {pre : List Event} {e : Event} {st : BootState} {o : Outcome},
    Run step m₀ pre m → step m e m' → e.write = some (st, o) →
    m.mode = .reset ∨ m.mode = .app →
    ∃ r, bootStateRead m.flash = some r ∧ st.appLen = r.appLen ∧ st.appCrc32 = r.appCrc32

/-- The condition on a step: whoever writes a record finds a sequence number that will not wrap,
and a confirming application is within the slot. -/
def TrialCond (m : Machine) (e : Event) : Prop :=
  (e.write ≠ none → (sectors m.flash).maxSeq seqNat < 2 ^ 32 - 1) ∧
  (m.mode = .app → e.write ≠ none → ∀ r, bootStateRead m.flash = some r → r.appLen ≤ appMaxSize)

/-! ## One event -/

/-- What an event that brings no `END!` record makes of the current record `r`. -/
inductive RecordStep (f : Flash) (r : BootState) : Event → BootState → Prop
  | kept {e : Event} (hb : e.booted = true → Startable f r ∧ r.appConfirmed ≠ 0) :
      RecordStep f r e r
  | trial {e : Event} (hst : Startable f r) (hc : r.appConfirmed = 0)
      (ha : r.bootAttempts < otaMaxBootAttempts) :
      RecordStep f r e (newRecord f { r with bootAttempts := r.bootAttempts + 1 })
  | demoted {e : Event} (hst : Startable f r) (hc : r.appConfirmed = 0)
      (hb : e.booted = false) : RecordStep f r e (newRecord f { r with appValid := 0 })
  | confirmed {e : Event} (hv : r.appValid ≠ 0) (hc : r.appConfirmed = 0)
      (hb : e.booted = false) (he : e.confirmPersisted = true) :
      RecordStep f r e (newRecord f { r with appConfirmed := 1, bootAttempts := 0 })

theorem recordStep_of_saved {scratch : UInt32} {f : Flash} {r st : BootState} {e : Event}
    (hr : bootStateRead f = some r) (h : (decideBootApp scratch f).saved = some st)
    (hb : e.booted = true → (decideBootApp scratch f).boots = true) :
    RecordStep f r e (newRecord f st) := by
  have hd := decideBootApp_decided scratch f
  generalize decideBootApp scratch f = d at h hb hd
  cases hd with
  | trial hs hr' hst hc ha =>
    obtain rfl := Option.some.inj (hr.symm.trans hr')
    obtain rfl := Option.some.inj h
    exact .trial hst hc ha
  | demoted hs hr' hst hc ha =>
    obtain rfl := Option.some.inj (hr.symm.trans hr')
    obtain rfl := Option.some.inj h
    exact .demoted hst hc (Bool.eq_false_iff.mpr fun h => by cases hb h)
  | _ => cases h

theorem recordStep_of_confirm {f : Flash} {r st : BootState} {e : Event}
    (hr : bootStateRead f = some r) (h : otaConfirm f = some st) (hb : e.booted = false)
    (he : e.confirmPersisted = true) : RecordStep f r e (newRecord f st) := by
  obtain ⟨r', hr', hv, hc, rfl⟩ := otaConfirm_eq_some h
  obtain rfl := Option.some.inj (hr.symm.trans hr')
  exact .confirmed hv hc hb he

theorem Step.recordStep {m m' : Machine} {e : Event} (h : Step m e m')
    (he : e.endPersisted = false) {r : BootState} (hr : bootStateRead m.flash = some r) :
    RecordStep m.flash r e (e.persisted.elim r (newRecord m.flash)) := by
  have hkept : ∀ {e : Event}, e.booted = false → RecordStep m.flash r e r :=
    fun hb => .kept fun h => absurd (hb.symm.trans h) (by decide)
  cases h with
  | boot hm rx =>
    cases hs : (decideBootApp m.scratch0 m.flash).saved with
    | none =>
      have hp : (Event.boot (decideBootApp m.scratch0 m.flash)).persisted = none := by
        simp [Event.persisted, Event.write, hs]
      rw [hp]
      refine .kept fun hb => ?_
      have hd := decideBootApp_decided m.scratch0 m.flash
      simp only [Event.booted] at hb
      generalize decideBootApp m.scratch0 m.flash = d at hs hb hd
      cases hd with
      | noRecord _ hr' => rw [hr] at hr'; cases hr'
      | confirmed _ hr' hst hc =>
        obtain rfl := Option.some.inj (hr.symm.trans hr')
        exact ⟨hst, hc⟩
      | trial => cases hs
      | _ => cases hb
    | some st =>
      have hp : (Event.boot (decideBootApp m.scratch0 m.flash)).persisted = some st := by
        simp [Event.persisted, Event.write, hs]
      rw [hp]
      exact recordStep_of_saved hr hs fun hb => hb
  | @bootCut st o f' hm hs hc =>
    cases o with
    | stored => exact recordStep_of_saved hr hs fun hb => by cases hb
    | _ => exact hkept rfl
  | confirm hm =>
    cases hs : otaConfirm m.flash with
    | none => exact hkept rfl
    | some st => exact recordStep_of_confirm hr hs rfl rfl
  | @confirmCut st o f' hm hs hc =>
    cases o with
    | stored => exact recordStep_of_confirm hr hs rfl rfl
    | _ => exact hkept rfl
  | @frame len crc rx fr c' hm hs =>
    cases hsaved : savedRecord ⟨m.flash, len, crc, true⟩ fr with
    | none => exact hkept rfl
    | some st => rw [hsaved] at he; cases he
  | @endCut len crc rx rest st o f' hm hrd hs hc =>
    cases o with
    | stored => cases he
    | _ => exact hkept rfl
  | _ => exact hkept rfl

/-- **The step lemma**: an event without an `END!` record takes the current record along
`RecordStep`. -/
theorem Step.record {m m' : Machine} {e : Event} (h : Guarded Step TrialCond m e m')
    (he : e.endPersisted = false) {r : BootState} (hr : bootStateRead m.flash = some r) :
    ∃ r', bootStateRead m'.flash = some r' ∧ RecordStep m.flash r e r' := by
  refine ⟨_, ?_, h.1.recordStep he hr⟩
  rw [h.1.read_eq h.2.1]
  cases e.persisted with
  | none => exact hr
  | some st => rfl

theorem Step.read_of_persisted {m m' : Machine} {e : Event} (h : Guarded Step TrialCond m e m')
    {st : BootState} (hp : e.persisted = some st) :
    bootStateRead m'.flash = some (newRecord m.flash st) := by
  rw [h.1.read_eq h.2.1, hp]

/-! ## On trial -/

/-- The current record has not been confirmed. -/
def OnTrial (m : Machine) : Prop :=
  ∃ r, bootStateRead m.flash = some r ∧ r.appConfirmed = 0

/-- The boots the current record has left. -/
def trialLeft (m : Machine) : ℕ :=
  match bootStateRead m.flash with
  | some r => if r.appValid = 0 then 0 else otaMaxBootAttempts.toNat - r.bootAttempts.toNat
  | none => 0

theorem trialLeft_eq {m : Machine} {r : BootState} (h : bootStateRead m.flash = some r) :
    trialLeft m
      = if r.appValid = 0 then 0 else otaMaxBootAttempts.toNat - r.bootAttempts.toNat := by
  unfold trialLeft
  rw [h]

/-- **A boot on trial uses up one of the boots left**, and nothing gives one back. -/
theorem onTrial_step (m : Machine) (e : Event) (m' : Machine) (hI : OnTrial m)
    (he : e.endPersisted = false ∧ e.confirmPersisted = false)
    (h : Guarded Step TrialCond m e m') :
    OnTrial m' ∧ trialLeft m' + (if e.booted = true then 1 else 0) ≤ trialLeft m := by
  obtain ⟨r, hr, hc⟩ := hI
  obtain ⟨r', hr', hrs⟩ := Step.record h he.1 hr
  unfold OnTrial
  rw [trialLeft_eq hr, trialLeft_eq hr']
  cases hrs with
  | kept hb =>
    refine ⟨⟨r, hr', hc⟩, ?_⟩
    rw [if_neg fun hbt => (hb hbt).2 hc]
    exact Nat.le_refl _
  | trial hst _ ha =>
    refine ⟨⟨_, hr', hc⟩, ?_⟩
    have hlt : r.bootAttempts.toNat < otaMaxBootAttempts.toNat := UInt8.lt_iff_toNat_lt.mp ha
    have hthree : otaMaxBootAttempts.toNat = 3 := rfl
    have hsucc : (r.bootAttempts + 1).toNat = r.bootAttempts.toNat + 1 := by
      rw [UInt8.toNat_add]
      exact Nat.mod_eq_of_lt (by have : UInt8.toNat 1 = 1 := rfl; omega)
    rw [if_neg hst.valid]
    show (if r.appValid = 0 then 0
      else otaMaxBootAttempts.toNat - (r.bootAttempts + 1).toNat) + _ ≤ _
    rw [if_neg hst.valid, hsucc]
    split <;> omega
  | demoted hst _ hb =>
    refine ⟨⟨_, hr', hc⟩, ?_⟩
    rw [hb]
    exact Nat.zero_le _
  | confirmed _ _ _ hconf => rw [he.2] at hconf; cases hconf

theorem endPersisted_persisted {m m' : Machine} {e : Event} (h : Step m e m')
    (he : e.endPersisted = true) :
    ∃ len crc, e.persisted = some (endRecord ⟨m.flash, len, crc, true⟩) := by
  cases h with
  | @frame len crc rx fr c' hm hs =>
    cases hsaved : savedRecord ⟨m.flash, len, crc, true⟩ fr with
    | none => rw [hsaved] at he; cases he
    | some st =>
      obtain ⟨_, _, rfl, _⟩ := execFrame_flash_of_some hsaved
      exact ⟨len, crc, rfl⟩
  | @endCut len crc rx rest st o f' hm hrd hs hc =>
    cases o with
    | stored =>
      obtain ⟨_, _, rfl, _⟩ := execFrame_flash_of_some hs
      exact ⟨len, crc, rfl⟩
    | _ => cases he
  | _ => cases he

/-! ## Given up -/

/-- The current record is not valid for booting. -/
def GivenUp (m : Machine) : Prop := ∃ r, bootStateRead m.flash = some r ∧ r.appValid = 0

theorem givenUp_step (m : Machine) (e : Event) (m' : Machine) (hI : GivenUp m)
    (he : e.endPersisted = false) (h : Guarded Step TrialCond m e m') : GivenUp m' := by
  obtain ⟨r, hr, hv⟩ := hI
  obtain ⟨r', hr', hrs⟩ := Step.record h he hr
  cases hrs with
  | kept _ => exact ⟨r, hr', hv⟩
  | trial hst _ _ => exact absurd hv hst.valid
  | demoted hst _ _ => exact absurd hv hst.valid
  | confirmed hv' _ _ _ => exact absurd hv hv'

theorem givenUp_boots {m : Machine} (h : GivenUp m) :
    (decideBootApp m.scratch0 m.flash).boots = false := by
  obtain ⟨r, hr, hv⟩ := h
  have hd := decideBootApp_decided m.scratch0 m.flash
  generalize decideBootApp m.scratch0 m.flash = d at hd ⊢
  have hno : ∀ {st : BootState}, bootStateRead m.flash = some st → ¬ Startable m.flash st := by
    intro st hr' hst
    obtain rfl := Option.some.inj (hr.symm.trans hr')
    exact hst.valid hv
  cases hd with
  | noRecord _ hr' => rw [hr] at hr'; cases hr'
  | confirmed _ hr' hst _ => exact absurd hst (hno hr')
  | trial _ hr' hst _ _ => exact absurd hst (hno hr')
  | _ => rfl

theorem demotes_persisted {e : Event} (h : e.demotes = true) :
    ∃ st, e.persisted = some st ∧ st.appValid = 0 := by
  match e, h with
  | .boot ⟨_, some st⟩, h => exact ⟨st, rfl, beq_iff_eq.mp h⟩
  | .bootCut st .stored, h => exact ⟨st, rfl, beq_iff_eq.mp h⟩

/-! ## Confirmed -/

/-- While the application runs, the image in the slot is the one the current record is about. -/
def AppVouched (m : Machine) : Prop :=
  m.mode = .app → ∀ r, bootStateRead m.flash = some r → r.appLen ≤ appMaxSize →
    otaCrc32 (slotBytes m.flash r.appLen) = r.appCrc32

theorem vouched_saveRecord {f : Flash} {st r : BootState} (hc : Copies r st)
    (hcrc : otaCrc32 (slotBytes f r.appLen) = r.appCrc32) (hlen : st.appLen ≤ appMaxSize) :
    otaCrc32 (slotBytes (saveRecord f (some st)) (newRecord f st).appLen)
      = (newRecord f st).appCrc32 := by
  show otaCrc32 (slotBytes (saveRecord f (some st)) st.appLen) = st.appCrc32
  rw [slotBytes_saveRecord _ hlen, hc.appLen, hc.appCrc32]
  exact hcrc

theorem appVouched_step (m : Machine) (e : Event) (m' : Machine) (hI : AppVouched m)
    (h : Guarded Step TrialCond m e m') : AppVouched m' := by
  intro happ r hr hlen
  have hread : ∀ st, e.persisted = some st → bootStateRead m'.flash = some (newRecord m.flash st) :=
    fun _ => Step.read_of_persisted h
  cases h.1 with
  | boot hm rx =>
    have hd := decideBootApp_decided m.scratch0 m.flash
    simp only at happ hr hread ⊢
    generalize decideBootApp m.scratch0 m.flash = d at hd happ hr hread ⊢
    cases hd with
    | noRecord _ hr' => exact absurd (hr'.symm.trans hr) (by simp)
    | confirmed _ hr' hst _ =>
      obtain rfl := Option.some.inj (hr'.symm.trans hr)
      exact hst.crc
    | trial _ hr' hst _ _ =>
      obtain rfl := Option.some.inj ((hread _ rfl).symm.trans hr)
      exact vouched_saveRecord ⟨rfl, rfl, Or.inl rfl⟩ hst.crc hlen
    | _ => cases happ
  | confirm hm =>
    cases hs : otaConfirm m.flash with
    | none =>
      rw [hs] at hr
      exact hI hm r hr hlen
    | some st =>
      obtain ⟨r₀, hr₀, hc⟩ := otaConfirm_copies hs
      rw [hs] at hr hread
      obtain rfl := Option.some.inj ((hread st rfl).symm.trans hr)
      exact vouched_saveRecord hc (hI hm r₀ hr₀ (hc.appLen ▸ hlen)) hlen
  | @frame len crc rx fr c' hm hs =>
    simp only [Mode.ofRecv] at happ
    split at happ <;> cases happ
  | _ => cases happ

theorem confirmPersisted_persisted {m m' : Machine} {e : Event} (h : Step m e m')
    (he : e.confirmPersisted = true) :
    ∃ st, m.mode = .app ∧ otaConfirm m.flash = some st ∧ e.persisted = some st ∧
      ∀ i < bootstateAOffset.toNat, m'.flash i = m.flash i := by
  cases h with
  | confirm hm =>
    cases hs : otaConfirm m.flash with
    | none => rw [hs] at he; cases he
    | some st => exact ⟨st, hm, rfl, rfl, fun i hi => saveRecord_below m.flash (some st) hi⟩
  | @confirmCut st o f' hm hs hc =>
    cases o with
    | stored => exact ⟨st, hm, hs, rfl, fun i hi => hc.cut.below hi⟩
    | _ => cases he
  | _ => cases he

/-- The current record is `r`, confirmed. -/
def ConfirmedAs (r : BootState) (m : Machine) : Prop :=
  bootStateRead m.flash = some r ∧ r.appValid ≠ 0 ∧ r.appConfirmed ≠ 0

/-- **A confirmed record is not written again** by anything but `END!`. -/
theorem confirmedAs_step (r : BootState) (m : Machine) (e : Event) (m' : Machine)
    (hI : ConfirmedAs r m) (he : e.endPersisted = false) (h : Guarded Step TrialCond m e m') :
    ConfirmedAs r m' := by
  obtain ⟨hr, hv, hc⟩ := hI
  obtain ⟨r', hr', hrs⟩ := Step.record h he hr
  cases hrs with
  | kept _ => exact ⟨hr', hv, hc⟩
  | trial _ hc' _ => exact absurd hc' hc
  | demoted _ hc' _ => exact absurd hc' hc
  | confirmed _ hc' _ _ => exact absurd hc' hc

theorem confirmedAs_boots {r : BootState} {m : Machine} (h : ConfirmedAs r m)
    (hsane : appVectortableSane m.flash = true)
    (hcrc : otaCrc32 (slotBytes m.flash r.appLen) = r.appCrc32)
    (hs : m.scratch0 ≠ otaEnterUpdateMagic) :
    (decideBootApp m.scratch0 m.flash).boots = true := by
  have hd := decideBootApp_decided m.scratch0 m.flash
  generalize decideBootApp m.scratch0 m.flash = d at hd ⊢
  cases hd with
  | update hs' => exact absurd hs' hs
  | noRecord _ hr' => rw [h.1] at hr'; cases hr'
  | refused _ hr' hst =>
    obtain rfl := Option.some.inj (h.1.symm.trans hr')
    exact absurd ⟨h.2.1, hsane, hcrc⟩ hst
  | demoted _ hr' _ hc _ =>
    obtain rfl := Option.some.inj (h.1.symm.trans hr')
    exact absurd hc h.2.2
  | _ => rfl

/-! ## The law -/

/-- **Trial boots are bounded and confirmed images stay**, over every run from reset whose steps
meet `TrialCond`. -/
theorem trialBoots {m₀ : Machine} (h₀ : m₀.mode = .reset) :
    TrialLaw (Guarded Step TrialCond) m₀ where
  bounded := by
    intro m m₁ m₂ pre mid e _ hstep he rmid hmid
    obtain ⟨len, crc, hp⟩ := endPersisted_persisted hstep.1 he
    have hr := Step.read_of_persisted hstep hp
    have hle := rmid.countP_le trialLeft onTrial_step hmid ⟨_, hr, rfl⟩
    rw [trialLeft_eq hr] at hle
    exact Nat.le_of_add_right_le hle
  givenUp := by
    intro m m₁ m₂ m₃ pre mid e d _ hstep he rmid hmid hboot
    obtain ⟨st, hp, hv⟩ := demotes_persisted he
    have hr := Step.read_of_persisted hstep hp
    have hgiven := rmid.invariant_of_forall givenUp_step hmid ⟨_, hr, hv⟩
    cases hboot.1 with
    | boot _ _ => exact givenUp_boots hgiven
  confirmed := by
    intro m m₁ m₂ m₃ pre mid e d rpre hstep he rmid hmid hslot hsane hs hboot
    obtain ⟨st, happ, hconf, hp, hbelow⟩ := confirmPersisted_persisted hstep.1 he
    obtain ⟨r, hr, hv, _, rfl⟩ := otaConfirm_eq_some hconf
    have hlen : r.appLen ≤ appMaxSize := by
      refine hstep.2.2 happ (fun hw => ?_) r hr
      rw [Event.persisted, hw] at hp
      cases hp
    have hvouched : AppVouched m := rpre.invariant appVouched_step fun h => by
      rw [h₀] at h
      cases h
    have hcrc : otaCrc32 (slotBytes m₂.flash r.appLen) = r.appCrc32 := by
      rw [slotBytes_congr hlen fun i h₁ h₂ => (hslot i h₁ h₂).trans (hbelow i h₂)]
      exact hvouched happ r hr hlen
    have hconfirmed := rmid.invariant_of_forall (confirmedAs_step _) hmid
      ⟨Step.read_of_persisted hstep hp, hv, (by decide : (1 : UInt8) ≠ 0)⟩
    cases hboot.1 with
    | boot _ _ => exact confirmedAs_boots hconfirmed hsane hcrc hs
  sameImage := by
    intro m m' pre e st o _ hstep hw hmode
    rcases hstep.1.written hw with ⟨r, hr, hc⟩ | ⟨len, crc, rx, hm, _⟩
    · exact ⟨r, hr, hc.appLen, hc.appCrc32⟩
    · rw [hm] at hmode
      rcases hmode with h | h <;> cases h

theorem trialBoots_provisioned : TrialLaw (Guarded Step TrialCond) provisionedMachine :=
  trialBoots rfl

/-! ## Where the law fails -/

/-- A length that reaches eight bytes into the first boot-state sector. -/
def longLen : UInt32 := appMaxSize + 8

/-- The image CRC of that length is a CRC over the slot, a magic and a sequence number. -/
theorem slotBytes_longLen {f : Flash} {st : BootState}
    (ht : (bootStateTarget f).2 = bootstateAOffset) :
    slotBytes (bootStateWrite f st) longLen
      = Mem.read f appOffset.toNat appMaxSize.toNat ++ le32 bootStateMagic ++
        le32 (newRecord f st).seq := by
  have hlow : Mem.read (bootStateWrite f st) appOffset.toNat appMaxSize.toNat
      = Mem.read f appOffset.toNat appMaxSize.toNat := by
    refine Mem.read_congr fun i _ hi => (CutWrite.of_complete f st).below ?_
    rw [appOffset_toNat, appMaxSize_toNat] at hi
    rw [bootstateAOffset_toNat]
    omega
  have hhigh : Mem.read (bootStateWrite f st) bootstateAOffset.toNat
      (le32 bootStateMagic ++ le32 (newRecord f st).seq).length
      = le32 bootStateMagic ++ le32 (newRecord f st).seq := by
    refine Mem.read_eq_iff.mpr fun k hk => ?_
    have hk8 : k < 8 := hk
    rw [← ht, bootStateWrite_target f st k (Nat.lt_of_lt_of_le hk8 (by simp))]
    have hsplit : (newRecord f st).bytes = (le32 bootStateMagic ++ le32 (newRecord f st).seq) ++
      (le32 (newRecord f st).appLen ++ le32 (newRecord f st).appCrc32 ++
        [(newRecord f st).appValid, (newRecord f st).appConfirmed, (newRecord f st).bootAttempts,
          (newRecord f st).pad] ++ le32 (newRecord f st).crc32) := by
      simp [BootState.bytes, BootState.body, newRecord_magic]
    simp only [hsplit]
    exact List.getElem_append_left hk
  rw [slotBytes, show longLen.toNat = appMaxSize.toNat + 8 from by decide, Mem.read_add, hlow,
    show appOffset.toNat + appMaxSize.toNat = bootstateAOffset.toNat from by decide,
    show Mem.read (bootStateWrite f st) bootstateAOffset.toNat 8 = _ from hhigh,
    List.append_assoc]

theorem nextWrite_provisioned : NextWrite provisionedFlash .a 0 := by
  have h : sectors provisionedFlash = ⟨none, none⟩ := by
    simp [sectors, sector, provisionedMachine_provisioned.sectorA,
      provisionedMachine_provisioned.sectorB,
      show provisionedFlash = provisionedMachine.flash from rfl]
  exact ⟨by rw [h]; rfl, by rw [h]; rfl⟩

/-- Sequence numbers one and three in the same record: the image CRC tells them apart. -/
theorem slotBytes_longLen_ne {f g : Flash} {st st' : BootState}
    (hf : (bootStateTarget f).2 = bootstateAOffset) (hg : (bootStateTarget g).2 = bootstateAOffset)
    (hslot : Mem.read f appOffset.toNat appMaxSize.toNat
      = Mem.read g appOffset.toNat appMaxSize.toNat)
    (hfs : (newRecord f st).seq = 1) (hgs : (newRecord g st').seq = 3) :
    otaCrc32 (slotBytes (bootStateWrite f st) longLen)
      ≠ otaCrc32 (slotBytes (bootStateWrite g st') longLen) := by
  rw [slotBytes_longLen hf, slotBytes_longLen hg, hslot, hfs, hgs]
  exact otaCrc32_ne_of_byte_ne _ [0, 0, 0] (by decide : (1 : UInt8) ≠ 3)

/-- The session: `END!` with nothing announced, then an image longer than the slot is announced,
refused, and accepted by `END!` all the same. -/
def longSession (crc : UInt32) : List Rx :=
  sent Magic.end'.bytes ++ (sent (Magic.begn.bytes ++ le32 longLen ++ le32 crc) ++
    (sent Magic.end'.bytes ++ (sent Magic.go.bytes ++ [])))

theorem longSession_run {f₁ f₂ : Flash} {c : UInt32}
    (hf₁ : f₁ = bootStateWrite provisionedFlash (endRecord ⟨provisionedFlash, 0, 0, true⟩))
    (hc : c = otaCrc32 (slotBytes f₁ longLen))
    (hf₂ : f₂ = bootStateWrite f₁ (endRecord ⟨f₁, longLen, c, true⟩)) :
    Run Step provisionedMachine [.boot ⟨true, none⟩, .requestUpdate, .boot ⟨false, none⟩,
        .frame .end' (some (endRecord ⟨provisionedFlash, 0, 0, true⟩)),
        .frame (.begn longLen c) none, .frame .end' (some (endRecord ⟨f₁, longLen, c, true⟩)),
        .frame .go none]
      ⟨f₂, 0, .reset, false⟩ := by
  have hboot : Step provisionedMachine (.boot ⟨true, none⟩) ⟨provisionedFlash, 0, .app, false⟩ :=
    .boot_of_eq rfl (by decide +kernel) []
  have hrequest : Step ⟨provisionedFlash, 0, .app, false⟩ .requestUpdate
      ⟨provisionedFlash, otaEnterUpdateMagic, .reset, false⟩ := .requestUpdate rfl
  have hrecovery : Step ⟨provisionedFlash, otaEnterUpdateMagic, .reset, false⟩
      (.boot ⟨false, none⟩) ⟨provisionedFlash, 0, .recovery 0 0 (longSession c), false⟩ :=
    .boot_of_eq rfl rfl _
  -- `END!` twice: the image check passes, and the record is written.
  have hend : ∀ {f f' : Flash} {len crc : UInt32} {rx : List Rx},
      otaCrc32 (slotBytes f len) = crc → f' = bootStateWrite f (endRecord ⟨f, len, crc, true⟩) →
      Step ⟨f, 0, .recovery len crc (sent Magic.end'.bytes ++ rx), false⟩
        (.frame .end' (some (endRecord ⟨f, len, crc, true⟩)))
        ⟨f', 0, .recovery len crc rx, false⟩ := by
    intro f f' len crc rx hcrc hf'
    have hok : imageOk ⟨f, len, crc, true⟩ = true := beq_iff_eq.mpr hcrc
    have hexec : (execFrame ⟨f, len, crc, true⟩ .end').1 = ⟨f', len, crc, true⟩ := by
      simp [execFrame, hok, hf']
    have hsaved : savedRecord ⟨f, len, crc, true⟩ .end' = some (endRecord ⟨f, len, crc, true⟩) := by
      simp [savedRecord, hok]
    rw [← hsaved]
    exact .frame (c := (⟨f', len, crc, true⟩, rx)) rfl ⟨rfl, readFrame_end rx, hexec.symm⟩
  have hbegn : ∀ {rx : List Rx}, Step ⟨f₁, 0, .recovery 0 0
      (sent (Magic.begn.bytes ++ le32 longLen ++ le32 c) ++ rx), false⟩
      (.frame (.begn longLen c) none) ⟨f₁, 0, .recovery longLen c rx, false⟩ := by
    intro rx
    exact .frame (c := (⟨f₁, longLen, c, true⟩, rx)) rfl ⟨rfl, readFrame_begn longLen c rx, rfl⟩
  have hgo : Step ⟨f₂, 0, .recovery longLen c (sent Magic.go.bytes ++ []), false⟩
      (.frame .go none) ⟨f₂, 0, .reset, false⟩ :=
    .frame (c := (⟨f₂, longLen, c, false⟩, [])) rfl ⟨rfl, readFrame_go [], rfl⟩
  exact .cons hboot (.cons hrequest (.cons hrecovery (.cons (hend otaCrc32_nil hf₁)
    (.cons hbegn (.cons (hend hc.symm hf₂) (.single hgo))))))

/-- **A confirmed application is dropped**: its record's length reaches into the boot-state, and
the next write there changes what the image CRC is taken over. -/
theorem trialLaw_long_image : ¬ TrialLaw Step provisionedMachine := by
  intro h
  -- The four records, in the order A, B, A, B; their flash contents are never evaluated.
  obtain ⟨f₁, hf₁⟩ : ∃ f, f = bootStateWrite provisionedFlash
    (endRecord ⟨provisionedFlash, 0, 0, true⟩) := ⟨_, rfl⟩
  obtain ⟨c, hc⟩ : ∃ c, c = otaCrc32 (slotBytes f₁ longLen) := ⟨_, rfl⟩
  obtain ⟨st₂, hst₂⟩ : ∃ st, st = endRecord ⟨f₁, longLen, c, true⟩ := ⟨_, rfl⟩
  obtain ⟨f₂, hf₂⟩ : ∃ f, f = bootStateWrite f₁ st₂ := ⟨_, rfl⟩
  obtain ⟨st₃, hst₃⟩ : ∃ st, st = { newRecord f₁ st₂ with
    bootAttempts := (newRecord f₁ st₂).bootAttempts + 1 } := ⟨_, rfl⟩
  obtain ⟨f₃, hf₃⟩ : ∃ f, f = bootStateWrite f₂ st₃ := ⟨_, rfl⟩
  obtain ⟨st₄, hst₄⟩ : ∃ st, st = { newRecord f₂ st₃ with
    appConfirmed := 1, bootAttempts := 0 } := ⟨_, rfl⟩
  obtain ⟨f₄, hf₄⟩ : ∃ f, f = bootStateWrite f₃ st₄ := ⟨_, rfl⟩
  obtain ⟨hseq₁, _, hnext₁⟩ := nextWrite_provisioned.write (by decide)
    (endRecord ⟨provisionedFlash, 0, 0, true⟩)
  rw [← hf₁] at hnext₁
  obtain ⟨_, hread₂, hnext₂⟩ := hnext₁.write (by decide) st₂
  rw [← hf₂] at hread₂ hnext₂
  obtain ⟨hseq₃, hread₃, hnext₃⟩ := hnext₂.write (by decide) st₃
  rw [← hf₃] at hread₃ hnext₃
  obtain ⟨_, hread₄, _⟩ := hnext₃.write (by decide) st₄
  rw [← hf₄] at hread₄
  have hrun : Run Step provisionedMachine _ ⟨f₂, 0, .reset, false⟩ :=
    longSession_run hf₁ hc (hst₂ ▸ hf₂)
  -- The image CRC does not notice the second record: it is in the other sector.
  have hB : ∀ {f f' st}, NextWrite f .b 1 ∨ NextWrite f .b 3 → f' = bootStateWrite f st →
      slotBytes f' longLen = slotBytes f longLen := by
    intro f f' st hn hf'
    have ht : (sectors f).target seqNat = .b := hn.elim (·.target) (·.target)
    subst hf'
    refine Mem.read_congr fun i _ hi => bootStateWrite_of_notMem (Or.inl ?_)
    rw [bootStateTarget_snd, ht]
    have hlen : longLen.toNat = 0x3BE008 := by decide
    rw [appOffset_toNat, hlen] at hi
    rw [slotOffset, bootstateBOffset_toNat]
    omega
  have hcrc₂ : otaCrc32 (slotBytes f₂ longLen) = c := by rw [hB (Or.inl hnext₁) hf₂, hc]
  -- … but it notices the third, which replaces the first.
  have hslot : ∀ {f st i}, i < bootstateAOffset.toNat → bootStateWrite f st i = f i :=
    fun hi => (CutWrite.of_complete _ _).below hi
  have hlow : ∀ {i}, i < bootstateAOffset.toNat → f₂ i = provisionedFlash i :=
    fun hi => by rw [hf₂, hslot hi, hf₁, hslot hi]
  have hcrc₄ : otaCrc32 (slotBytes f₄ longLen) ≠ c := by
    rw [hB (Or.inr hnext₃) hf₄, hc, hf₃, hf₁]
    refine (slotBytes_longLen_ne ?_ ?_ ?_ (UInt32.toNat_inj.mp hseq₁)
      (UInt32.toNat_inj.mp hseq₃)).symm
    · rw [bootStateTarget_snd, nextWrite_provisioned.target]; rfl
    · rw [bootStateTarget_snd, hnext₂.target]; rfl
    · refine Mem.read_congr fun i _ hi => (hlow ?_).symm
      rw [appOffset_toNat, appMaxSize_toNat] at hi
      rw [bootstateAOffset_toNat]
      omega
  have hsane : ∀ {f}, (∀ {i}, i < bootstateAOffset.toNat → f i = provisionedFlash i) →
      appVectortableSane f = true := fun hf =>
    (appVectortableSane_congr fun i _ hi => hf hi).trans provisionedMachine_provisioned.sane
  have hlow₄ : ∀ {i}, i < bootstateAOffset.toNat → f₄ i = provisionedFlash i :=
    fun hi => by rw [hf₄, hslot hi, hf₃, hslot hi, hlow hi]
  have hboot : Step ⟨f₂, 0, .reset, false⟩ (.boot ⟨true, some st₃⟩) ⟨f₃, 0, .app, false⟩ := by
    have hstart : Startable f₂ (newRecord f₁ st₂) :=
      ⟨by rw [hst₂]; exact (by decide : (1 : UInt8) ≠ 0), hsane hlow, by rw [hst₂]; exact hcrc₂⟩
    have hd := decideBootApp_trial hread₂ hstart (by rw [hst₂]; rfl)
      (by rw [hst₂]; exact (by decide : (0 : UInt8) < 3))
    rw [← hst₃] at hd
    rw [hf₃]
    exact .boot_of_eq rfl hd []
  have hconfirm : Step ⟨f₃, 0, .app, false⟩ (.confirm (some st₄)) ⟨f₄, 0, .app, false⟩ := by
    have hconf : otaConfirm f₃ = some st₄ := by
      unfold otaConfirm
      rw [hread₃, hst₄, hst₃, hst₂]
      rfl
    have hstep := Step.confirm (m := ⟨f₃, 0, .app, false⟩) rfl
    rw [hconf] at hstep
    rw [hf₄]
    exact hstep
  have hlast : Step ⟨f₄, 0, .reset, false⟩ (.boot (decideBootApp 0 f₄)) _ := .boot rfl []
  have hscratch : (0 : UInt32) ≠ otaEnterUpdateMagic := by decide
  have htrue := h.confirmed (hrun.snoc hboot) hconfirm rfl (.single (.restart rfl))
    (by simp [Event.endPersisted]) (fun _ _ _ => rfl)
    (hsane hlow₄) hscratch hlast
  have hfalse := decideBootApp_mismatch 0 hread₄ (by rw [hst₄, hst₃, hst₂]; exact hcrc₄)
  exact absurd (htrue.symm.trans hfalse) (by decide)

end EthPanel
