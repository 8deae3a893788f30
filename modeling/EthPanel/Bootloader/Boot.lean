import EthPanel.Ota.BootState

/-!
# `bootloader/main.c` and `ota/ota_app.c`

The two programs beside the receiver that look at the boot-state: the bootloader's decision
whether to start the application, and the application's `ota_confirm`. Both are given as what
they decide and which record, if any, they hand to `boot_state_write`; when the write happens,
and whether the power stays on through it, is the business of `System/Device.lean`.

`Decided` lists the ways a decision can be reached, each with everything that was checked on
the way. The proofs about runs go through it and never unfold `decideBootApp`.
-/

namespace EthPanel

def ramStart : UInt32 := 0x20000000

def ramEnd : UInt32 := 0x20042000

def appVectortableSane (f : Flash) : Bool :=
  let sp := wordAt f appVtableOffset.toNat
  let pc := wordAt f (appVtableOffset.toNat + 4)
  if sp < ramStart || sp > ramEnd then false
  else if pc < appXipAddr || pc ≥ appXipAddr + appMaxSize then false
  else if pc &&& 1 == 0 then false
  else true

/-- The CRC re-check of `decide_boot_app`. -/
def imageMatches (f : Flash) (st : BootState) : Bool :=
  otaCrc32 (slotBytes f st.appLen) == st.appCrc32

/-- What `decide_boot_app` returns, and the record it writes before that. -/
structure BootDecision where
  boots : Bool
  saved : Option BootState
  deriving DecidableEq, Repr

/-- `decide_boot_app`, given what it reads of SCRATCH0; it clears the register in every case. -/
def decideBootApp (scratch : UInt32) (f : Flash) : BootDecision :=
  if scratch == otaEnterUpdateMagic then ⟨false, none⟩
  else match bootStateRead f with
    | none => ⟨appVectortableSane f, none⟩
    | some st =>
      if st.appValid == 0 || !appVectortableSane f then ⟨false, none⟩
      else if !imageMatches f st then ⟨false, none⟩
      else if st.appConfirmed != 0 then ⟨true, none⟩
      else if st.bootAttempts < otaMaxBootAttempts then
        ⟨true, some { st with bootAttempts := st.bootAttempts + 1 }⟩
      else ⟨false, some { st with appValid := 0 }⟩

/-- `ota_confirm`: the record it writes, if it writes one. -/
def otaConfirm (f : Flash) : Option BootState :=
  match bootStateRead f with
  | none => none
  | some st =>
    if st.appValid != 0 && st.appConfirmed == 0 then
      some { st with appConfirmed := 1, bootAttempts := 0 }
    else none

/-! ## The ways to a decision -/

/-- A record under which the image in the slot may be started. -/
structure Startable (f : Flash) (st : BootState) : Prop where
  valid : st.appValid ≠ 0
  sane : appVectortableSane f = true
  crc : otaCrc32 (slotBytes f st.appLen) = st.appCrc32

inductive Decided (scratch : UInt32) (f : Flash) : BootDecision → Prop
  | update (h : scratch = otaEnterUpdateMagic) : Decided scratch f ⟨false, none⟩
  | noRecord (hs : scratch ≠ otaEnterUpdateMagic) (h : bootStateRead f = none) :
      Decided scratch f ⟨appVectortableSane f, none⟩
  | refused {st : BootState} (hs : scratch ≠ otaEnterUpdateMagic) (h : bootStateRead f = some st)
      (hst : ¬ Startable f st) : Decided scratch f ⟨false, none⟩
  | confirmed {st : BootState} (hs : scratch ≠ otaEnterUpdateMagic)
      (h : bootStateRead f = some st) (hst : Startable f st) (hc : st.appConfirmed ≠ 0) :
      Decided scratch f ⟨true, none⟩
  | trial {st : BootState} (hs : scratch ≠ otaEnterUpdateMagic) (h : bootStateRead f = some st)
      (hst : Startable f st) (hc : st.appConfirmed = 0)
      (ha : st.bootAttempts < otaMaxBootAttempts) :
      Decided scratch f ⟨true, some { st with bootAttempts := st.bootAttempts + 1 }⟩
  | demoted {st : BootState} (hs : scratch ≠ otaEnterUpdateMagic) (h : bootStateRead f = some st)
      (hst : Startable f st) (hc : st.appConfirmed = 0)
      (ha : ¬ st.bootAttempts < otaMaxBootAttempts) :
      Decided scratch f ⟨false, some { st with appValid := 0 }⟩

theorem startable_iff {f : Flash} {st : BootState} :
    Startable f st ↔
      (st.appValid == 0 || !appVectortableSane f) = false ∧ imageMatches f st = true := by
  simp only [imageMatches, Bool.or_eq_false_iff, beq_eq_false_iff_ne, ne_eq, Bool.not_eq_false',
    beq_iff_eq]
  constructor
  · rintro ⟨h₁, h₂, h₃⟩
    exact ⟨⟨h₁, h₂⟩, h₃⟩
  · rintro ⟨⟨h₁, h₂⟩, h₃⟩
    exact ⟨h₁, h₂, h₃⟩

theorem decideBootApp_decided (scratch : UInt32) (f : Flash) :
    Decided scratch f (decideBootApp scratch f) := by
  unfold decideBootApp
  by_cases hs : scratch = otaEnterUpdateMagic
  · rw [if_pos (beq_iff_eq.mpr hs)]
    exact .update hs
  · rw [if_neg (fun h => hs (beq_iff_eq.mp h))]
    cases hr : bootStateRead f with
    | none => exact .noRecord hs hr
    | some st =>
      dsimp only
      by_cases hst : Startable f st
      · obtain ⟨h₁, h₂⟩ := startable_iff.mp hst
        simp only [h₁, h₂, Bool.false_eq_true, if_false, Bool.not_true]
        by_cases hc : st.appConfirmed = 0
        · by_cases ha : st.bootAttempts < otaMaxBootAttempts
          · simp only [hc, ha, bne_self_eq_false, Bool.false_eq_true, if_false, if_true]
            exact hc ▸ .trial hs hr hst hc ha
          · simp only [hc, ha, bne_self_eq_false, Bool.false_eq_true, if_false]
            exact hc ▸ .demoted hs hr hst hc ha
        · rw [if_pos (bne_iff_ne.mpr hc)]
          exact .confirmed hs hr hst hc
      · rw [startable_iff, not_and_or] at hst
        rcases hst with h | h
        · rw [if_pos (Bool.of_not_eq_false h)]
          exact .refused hs hr (fun hst => h (startable_iff.mp hst).1)
        · have h' : imageMatches f st = false := by simpa using h
          simp only [h', Bool.not_false, if_true, ite_self]
          exact .refused hs hr (fun hst => h (startable_iff.mp hst).2)

theorem otaConfirm_eq_some {f : Flash} {st' : BootState} (h : otaConfirm f = some st') :
    ∃ st, bootStateRead f = some st ∧ st.appValid ≠ 0 ∧ st.appConfirmed = 0 ∧
      st' = { st with appConfirmed := 1, bootAttempts := 0 } := by
  unfold otaConfirm at h
  cases hr : bootStateRead f with
  | none => rw [hr] at h; cases h
  | some st =>
    simp only [hr] at h
    split at h
    · rename_i hc
      simp only [Bool.and_eq_true, bne_iff_ne, beq_iff_eq] at hc
      exact ⟨st, rfl, hc.1, hc.2, (Option.some.inj h).symm⟩
    · cases h

theorem decideBootApp_trial {f : Flash} {r : BootState} (hr : bootStateRead f = some r)
    (hst : Startable f r) (hc : r.appConfirmed = 0) (ha : r.bootAttempts < otaMaxBootAttempts) :
    decideBootApp 0 f = ⟨true, some { r with bootAttempts := r.bootAttempts + 1 }⟩ := by
  have hd := decideBootApp_decided 0 f
  generalize decideBootApp 0 f = d at hd ⊢
  cases hd with
  | update hs => exact absurd hs (by decide)
  | noRecord _ hr' => rw [hr] at hr'; cases hr'
  | refused _ hr' hst' =>
    obtain rfl := Option.some.inj (hr.symm.trans hr')
    exact absurd hst hst'
  | confirmed _ hr' _ hc' =>
    obtain rfl := Option.some.inj (hr.symm.trans hr')
    exact absurd hc hc'
  | trial _ hr' _ _ _ =>
    obtain rfl := Option.some.inj (hr.symm.trans hr')
    rfl
  | demoted _ hr' _ _ ha' =>
    obtain rfl := Option.some.inj (hr.symm.trans hr')
    exact absurd ha ha'

theorem decideBootApp_mismatch (scratch : UInt32) {f : Flash} {r : BootState}
    (hr : bootStateRead f = some r) (hcrc : otaCrc32 (slotBytes f r.appLen) ≠ r.appCrc32) :
    (decideBootApp scratch f).boots = false := by
  have hd := decideBootApp_decided scratch f
  generalize decideBootApp scratch f = d at hd ⊢
  cases hd with
  | noRecord _ hr' => rw [hr] at hr'; cases hr'
  | confirmed _ hr' hst _ =>
    obtain rfl := Option.some.inj (hr.symm.trans hr')
    exact absurd hst.crc hcrc
  | trial _ hr' hst _ _ =>
    obtain rfl := Option.some.inj (hr.symm.trans hr')
    exact absurd hst.crc hcrc
  | _ => rfl

end EthPanel
