import EthPanel.System.Device

/-!
# Only whole images are booted

What the boot-state is for: the bootloader starts the slot when a record vouches for it, or
when nobody has touched it since it was provisioned over USB.

The records keep their side of this by an invariant on both sectors (`GoodRecord`): whatever is
stored was written by `END!` after a CRC check, or copied from such a record. Two things are
outside it. `END!` does not check the length it checksums, so a record may vouch for no bytes
at all; and a device without any record is trusted on its vector table alone, whatever has been
erased and programmed meanwhile. `WholeCond` excludes these two, and nothing else.
-/

namespace EthPanel

open PingPong Lts

/-- A device as USB provisioning leaves it: an application with a sane vector table, no valid
record. -/
structure Provisioned (m : Machine) : Prop where
  mode : m.mode = .reset
  untouched : m.touched = false
  sane : appVectortableSane m.flash = true
  sectorA : recValid m.flash bootstateAOffset = false
  sectorB : recValid m.flash bootstateBOffset = false

/-- The newest valid record vouches for the slot. -/
def WholeImage (f : Flash) : Prop :=
  ∃ r, bootStateRead f = some r ∧ r.appValid = 1 ∧ (1 ≤ r.appLen ∧ r.appLen ≤ appMaxSize) ∧
    otaCrc32 (slotBytes f r.appLen) = r.appCrc32

/-- In every run from `m₀`, every application started is the provisioned one or one that a
record vouches for, both when `decide_boot_app` looks and when it returns. -/
def WholeImageLaw (step : Machine → Event → Machine → Prop) (m₀ : Machine) : Prop :=
  ∀ {m m' : Machine} {l : List Event} {d : BootDecision}, Run step m₀ l m →
    step m (.boot d) m' → d.boots = true →
    m.touched = false ∨ (WholeImage m.flash ∧ WholeImage m'.flash)

/-- The condition on a step: a bootloader that finds no record and a slot that was touched also
finds no sane vector table; an `END!` whose image check passes has a length within the slot. -/
def WholeCond (m : Machine) : Event → Prop
  | .boot _ => m.touched = true → m.scratch0 ≠ otaEnterUpdateMagic →
      bootStateRead m.flash = none → appVectortableSane m.flash = false
  | .frame .end' _ | .endCut _ .stored => ∀ len crc rx, m.mode = .recovery len crc rx →
      imageOk ⟨m.flash, len, crc, true⟩ = true → 1 ≤ len ∧ len ≤ appMaxSize
  | _ => True

/-! ## The records -/

/-- What is true of every record in flash. -/
structure GoodRecord (r : BootState) : Prop where
  valid : r.appValid = 1 ∨ r.appValid = 0
  bounds : 1 ≤ r.appLen ∧ r.appLen ≤ appMaxSize

theorem GoodRecord.copies {r st : BootState} (h : GoodRecord r) (hc : Copies r st) :
    GoodRecord st := by
  refine ⟨?_, hc.appLen ▸ h.bounds⟩
  rcases hc.appValid with heq | heq
  · exact heq ▸ h.valid
  · exact Or.inr heq

/-- Both sectors hold good records, if they hold any. -/
def GoodSectors (m : Machine) : Prop :=
  ∀ s r, (sectors m.flash).get s = some r → GoodRecord r

theorem GoodSectors.read {m : Machine} (h : GoodSectors m) {r : BootState}
    (hr : bootStateRead m.flash = some r) : GoodRecord r := by
  rw [bootStateRead_eq, ← Pair.get_other_target] at hr
  exact h _ _ hr

/-- **The step lemma.** -/
theorem goodSectors_step (m : Machine) (e : Event) (m' : Machine) (hI : GoodSectors m)
    (h : Guarded Step WholeCond m e m') : GoodSectors m' := by
  have hsec := h.1.sectors_eq
  unfold GoodSectors
  cases hw : e.write with
  | none =>
    rw [hw] at hsec
    rw [hsec]
    exact hI
  | some w =>
    obtain ⟨st, o⟩ := w
    rw [hw] at hsec
    rw [hsec]
    refine Pair.get_write_of GoodRecord (fun ho => ?_) hI
    rcases h.1.written hw with ⟨r, hr, hc⟩ | ⟨len, crc, rx, hm, hok, rfl⟩
    · exact (hI.read hr).copies ⟨hc.appLen, hc.appCrc32, hc.appValid⟩
    · refine ⟨Or.inl rfl, ?_⟩
      -- Only the two `END!` events are in recovery with something to write.
      have hcond := h.2
      cases h.1 with
      | boot hmode _ => rw [hmode] at hm; cases hm
      | bootCut hmode _ _ => rw [hmode] at hm; cases hm
      | confirm hmode => rw [hmode] at hm; cases hm
      | confirmCut hmode _ _ => rw [hmode] at hm; cases hm
      | frame _ _ =>
        obtain ⟨st', hst', _⟩ := Option.map_eq_some_iff.mp hw
        obtain ⟨rfl, _⟩ := execFrame_flash_of_some hst'
        exact hcond len crc rx hm hok
      | endCut _ _ _ _ =>
        obtain rfl := ho.symm.trans (Prod.mk.inj (Option.some.inj hw)).2.symm
        exact hcond len crc rx hm hok
      | _ => cases hw

/-! ## The law -/

theorem wholeImage_of_startable {f : Flash} {r : BootState} (hr : bootStateRead f = some r)
    (hg : GoodRecord r) (hst : Startable f r) : WholeImage f :=
  ⟨r, hr, hg.valid.resolve_right hst.valid, hg.bounds, hst.crc⟩

theorem bootStateRead_saveRecord_or (f : Flash) (st : BootState) :
    bootStateRead (saveRecord f (some st)) = some (newRecord f st) ∨
      bootStateRead (saveRecord f (some st)) = bootStateRead f := by
  rw [bootStateRead_eq, bootStateRead_eq, sectors_saveRecord]
  exact Pair.newest_set_target_or _ _

theorem WholeImage.saveRecord {f : Flash} {r st : BootState} (h : WholeImage f)
    (hr : bootStateRead f = some r) (hc : Copies r st) (hv : st.appValid = r.appValid) :
    WholeImage (saveRecord f (some st)) := by
  obtain ⟨_, hr', hvalid, hlen, hcrc⟩ := h
  obtain rfl := Option.some.inj (hr.symm.trans hr')
  have hcrc' := hcrc
  rw [← slotBytes_saveRecord (some st) hlen.2] at hcrc'
  rcases bootStateRead_saveRecord_or f st with hnew | hold
  · have happ : (newRecord f st).appLen = r.appLen := hc.appLen
    have hcrc32 : (newRecord f st).appCrc32 = r.appCrc32 := hc.appCrc32
    exact ⟨_, hnew, hv.trans hvalid, happ ▸ hlen, by rw [happ, hcrc32]; exact hcrc'⟩
  · exact ⟨r, hold.trans hr, hvalid, hlen, hcrc'⟩

/-- **Only whole images are booted**, over every run of a provisioned device whose steps meet
`WholeCond`. -/
theorem boot_wholeImages {m₀ : Machine} (h₀ : Provisioned m₀) :
    WholeImageLaw (Guarded Step WholeCond) m₀ := by
  intro m m' l d r hstep hd
  have hgood : GoodSectors m := by
    refine r.invariant goodSectors_step fun s x hx => ?_
    cases s <;> simp [get_sectors, slotOffset, sector, h₀.sectorA, h₀.sectorB] at hx
  obtain ⟨hboot, hcond⟩ := hstep
  cases hboot with
  | boot hmode rx =>
    have hdec := decideBootApp_decided m.scratch0 m.flash
    simp only at hd ⊢
    generalize decideBootApp m.scratch0 m.flash = d at hd hdec ⊢
    cases hdec with
    | update hs => cases hd
    | noRecord hs hr =>
      cases htouched : m.touched with
      | false => exact Or.inl rfl
      | true => exact absurd (hd.symm.trans (hcond htouched hs hr)) (by decide)
    | refused hs hr hst => cases hd
    | confirmed hs hr hst hc =>
      have hwhole := wholeImage_of_startable hr (hgood.read hr) hst
      exact Or.inr ⟨hwhole, hwhole⟩
    | trial hs hr hst hc ha =>
      have hwhole := wholeImage_of_startable hr (hgood.read hr) hst
      exact Or.inr ⟨hwhole, hwhole.saveRecord hr ⟨rfl, rfl, Or.inl rfl⟩ rfl⟩
    | demoted hs hr hst hc ha => cases hd

/-- A vector table with its stack at the end of RAM and its entry in the slot. -/
def vectorTable : List UInt8 := [0x00, 0x20, 0x04, 0x20, 0x01, 0x02, 0x04, 0x10]

/-- A provisioned chip, apart from its code: a vector table, and everything else erased. -/
def provisionedFlash : Flash :=
  fun i => if 0x40100 ≤ i then vectorTable.getD (i - 0x40100) 0xFF else 0xFF

def provisionedMachine : Machine := ⟨provisionedFlash, 0, .reset, false⟩

theorem provisionedMachine_provisioned : Provisioned provisionedMachine :=
  ⟨rfl, rfl, by decide +kernel, by decide +kernel, by decide +kernel⟩

theorem boot_wholeImages_provisioned :
    WholeImageLaw (Guarded Step WholeCond) provisionedMachine :=
  boot_wholeImages provisionedMachine_provisioned

/-! ## Where the law fails -/

/-- The second frame of an update: the page with the vector table. -/
def vectorTableFrame : List Rx :=
  sent ([0x44, 0x41, 0x54, 0x41] ++ le32 0x100 ++ le32 8 ++ le32 0x322CED8C ++ vectorTable)

/-- BEGN for two sectors, and that page. -/
def halfUpdate : List Rx :=
  sent ([0x42, 0x45, 0x47, 0x4E] ++ le32 0x2000 ++ le32 0) ++ vectorTableFrame

def erasedSlot : Flash := applyOps (eraseSlot 0x2000) provisionedFlash

/-- The slot after the two frames: erased, and one page written. -/
def halfWritten : Flash := (programChunk 0x100 vectorTable 8).apply erasedSlot

theorem halfUpdate_run : Run Step provisionedMachine
    [.boot ⟨true, none⟩, .requestUpdate, .boot ⟨false, none⟩, .frame (.begn 0x2000 0) none,
      .frame (.data 0x100 8 vectorTable) none, .powerCut]
    ⟨halfWritten, 0, .reset, true⟩ := by
  have hboot : Step provisionedMachine (.boot ⟨true, none⟩) ⟨provisionedFlash, 0, .app, false⟩ :=
    .boot_of_eq rfl (by decide +kernel) []
  have hrequest : Step ⟨provisionedFlash, 0, .app, false⟩ .requestUpdate
      ⟨provisionedFlash, otaEnterUpdateMagic, .reset, false⟩ := .requestUpdate rfl
  have hrecovery : Step ⟨provisionedFlash, otaEnterUpdateMagic, .reset, false⟩
      (.boot ⟨false, none⟩) ⟨provisionedFlash, 0, .recovery 0 0 halfUpdate, false⟩ :=
    .boot_of_eq rfl rfl halfUpdate
  have hbegn : Step ⟨provisionedFlash, 0, .recovery 0 0 halfUpdate, false⟩
      (.frame (.begn 0x2000 0) none)
      ⟨erasedSlot, 0, .recovery 0x2000 0 vectorTableFrame, true⟩ :=
    .frame (c := (⟨erasedSlot, 0x2000, 0, true⟩, vectorTableFrame)) rfl
      ⟨rfl, by decide +kernel, rfl⟩
  have hdata : Step ⟨erasedSlot, 0, .recovery 0x2000 0 vectorTableFrame, true⟩
      (.frame (.data 0x100 8 vectorTable) none) ⟨halfWritten, 0, .recovery 0x2000 0 [], true⟩ :=
    .frame (c := (⟨halfWritten, 0x2000, 0, true⟩, [])) rfl ⟨rfl, by decide +kernel, rfl⟩
  exact .cons hboot (.cons hrequest (.cons hrecovery (.cons hbegn (.cons hdata
    (.single (.powerCut _))))))

/-- **A half-written slot is started**: with no record to consult, the bootloader trusts the one
page that was written before the power went. -/
theorem wholeImageLaw_half_update : ¬ WholeImageLaw Step provisionedMachine := by
  intro h
  have hboot : Step ⟨halfWritten, 0, .reset, true⟩ (.boot ⟨true, none⟩)
      ⟨halfWritten, 0, .app, true⟩ := .boot_of_eq rfl (by decide +kernel) []
  rcases h halfUpdate_run hboot rfl with htouched | ⟨hwhole, _⟩
  · cases htouched
  · obtain ⟨r, hr, _⟩ := hwhole
    have hnone : bootStateRead halfWritten = none := by decide +kernel
    rw [hnone] at hr
    cases hr

end EthPanel
