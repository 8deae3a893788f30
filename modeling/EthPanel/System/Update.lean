import EthPanel.App.Heeded
import EthPanel.System.Session
import EthPanel.System.WholeImage

/-!
# An update, from the running application on

`ensure_recovery` sends SYNC and then its trigger line on one connection, so the application sees
the two in one line, behind whatever half-line it was in. The command is found in it all the same;
and where the half-line before spoils it, the newline at its end leaves the next one clean
(`trigger_taken`). The bootloader then keeps the device in the receiver, just once; and the image
that lands there is started, on trial, and stays once it has confirmed itself (`update_cycle`).
-/

namespace EthPanel

open Lts

/-! ## The trigger -/

/-- What the application hears of a turn of `ensure_recovery`: SYNC, of which the flush at the
connect edge may have taken the beginning, and the trigger. -/
def probeBytes (i : ℕ) : List UInt8 := syncBytes.drop i ++ triggerLine

theorem feedAll_probeBytes (s : LineState UInt8) (i : ℕ) :
    (feedAll id s (probeBytes i)).1 = .fresh := by
  have hlast : probeBytes i = syncBytes.drop i ++ triggerLine.dropLast ++ [newline] := by
    rw [List.append_assoc]
    rfl
  rw [hlast, feedAll_append]
  generalize (feedAll id s (syncBytes.drop i ++ triggerLine.dropLast)) = before
  exact (@feed_newline _ id before.1 newline rfl).1

/-- On a clean line the command is found behind any part of a SYNC. -/
theorem probeBytes_asks (i : ℕ) :
    (feedAll id .fresh (probeBytes i)).2.any LineOut.asksUpdate = true := by
  have hparts : ∀ i < 9, (feedAll id .fresh (probeBytes i)).2.any LineOut.asksUpdate = true := by
    decide +kernel
  by_cases hlast : i < 9
  · exact hparts i hlast
  · have heq : probeBytes i = probeBytes 8 := by
      rw [probeBytes, syncRest_none (by omega)]
      rfl
    rw [heq]
    exact hparts 8 (by decide)

/-- **The trigger is taken.** An application that has read the probes of two turns of
`ensure_recovery`, or of one on a clean line, as after a connect edge, is on its way to the
bootloader, whatever it did before and however they were cut into pieces; and the ack is the last
thing it sent. A connect edge among them (`hpeer`) drops what there is of them. -/
theorem trigger_taken (i j : ℕ) {s t : MainLoop} {l : List MainEvent} {stream : List UInt8}
    (r : Run MainStep s l t) (hphase : s.phase.unread = []) (hup : s.app.rebooting = false)
    (hpeer : seesConnect s.peerWasConnected l = false)
    (hstream : stream = probeBytes i ++ probeBytes j ∨ s.line = .fresh ∧ stream = probeBytes i) :
    (bytesRead l = stream → t.phase.unread = [] → t.app.rebooting = true) ∧
      (t.app.rebooting = true → ∃ before, t.sent = before ++ [.ack "ota"]) := by
  obtain ⟨done, h⟩ := Heeded.run r hup hpeer
  refine ⟨fun hread hunread => ?_, h.acked hup⟩
  have hbytes := h.bytes
  rw [hphase, hread, hunread, List.append_nil] at hbytes
  obtain rfl : stream = done := hbytes
  rw [h.asked, hup, Bool.false_or]
  rcases hstream with rfl | ⟨hfresh, rfl⟩
  · have hsecond : (feedAll id (feedAll id s.line (probeBytes i)).1 (probeBytes j)).2.any
        LineOut.asksUpdate = true := by
      rw [feedAll_probeBytes]
      exact probeBytes_asks j
    rw [feedAll_append, List.any_append, hsecond, Bool.or_true]
  · rw [hfresh]
    exact probeBytes_asks i

/-- A loop that is in the middle of a command. -/
def halfLine : MainLoop :=
  { MainLoop.boot (fun _ => 0) (fun _ => false) 0 with
    line := ⟨cstr "\x7b\"cmd\":\"hello", false, by decide⟩ }

/-- The first trigger is spoilt, and the second is taken. -/
def twoTriggers : List MainEvent :=
  [.poll false, .sample (fun _ => false) 0, .read (probeBytes 0)] ++ List.replicate 22 .byte ++
    [.flush, .poll false, .sample (fun _ => false) 0, .read (probeBytes 4)] ++
    List.replicate 18 .byte

set_option maxRecDepth 8000 in
theorem twoTriggers_run : ∃ t, Run MainStep halfLine twoTriggers t ∧ t.phase = .reading [] :=
  ⟨_, Run.of_foldlM rfl, rfl⟩

theorem trigger_taken_second :
    ∃ t, Run MainStep halfLine twoTriggers t ∧ t.app.rebooting = true := by
  obtain ⟨t, r, hphase⟩ := twoTriggers_run
  have hpeer : seesConnect halfLine.peerWasConnected twoTriggers = false := by decide
  refine ⟨t, r, (trigger_taken 0 4 r rfl rfl hpeer (Or.inl rfl)).1 rfl ?_⟩
  rw [hphase]
  rfl

/-! ## The whole update -/

/-- Flash that holds the image, and nothing else. -/
def imageFlash (data : List UInt8) : Flash := fun i => data.getD (i - appOffset.toNat) 0xFF

/-- An image with a vector table that the bootloader lets pass. -/
structure Bootable (data : List UInt8) : Prop where
  long : 0x108 ≤ data.length
  sane : appVectortableSane (imageFlash data) = true

theorem toNat_toUInt32 {n : ℕ} (h : n ≤ appMaxSize.toNat) : n.toUInt32.toNat = n := by
  rw [appMaxSize_toNat] at h
  rw [Nat.toUInt32, UInt32.toNat_ofNat']
  exact Nat.mod_eq_of_lt (by omega)

theorem Bootable.vectortableSane {data : List UInt8} (h : Bootable data)
    (hmax : data.length ≤ appMaxSize.toNat) {f : Flash}
    (hslot : slotBytes f data.length.toUInt32 = data) : appVectortableSane f = true := by
  have hlong := h.long
  have hbyte : ∀ i, i < data.length →
      f (appOffset.toNat + i) = imageFlash data (appOffset.toNat + i) := by
    intro i hi
    rw [slotBytes, toNat_toUInt32 hmax, Mem.read_eq_iff] at hslot
    rw [hslot i hi, imageFlash, Nat.add_sub_cancel_left, List.getD, List.getElem?_eq_getElem hi]
    rfl
  have hoff : appVtableOffset.toNat = appOffset.toNat + 0x100 := by decide
  have hword : ∀ k ≤ 4, wordAt f (appVtableOffset.toNat + k) =
      wordAt (imageFlash data) (appVtableOffset.toNat + k) := by
    intro k hk
    refine wordAt_congr fun i h₁ h₂ => ?_
    rw [hoff] at h₁ h₂
    obtain ⟨j, rfl⟩ : ∃ j, i = appOffset.toNat + j := ⟨i - appOffset.toNat, by omega⟩
    exact hbyte j (by omega)
  have hsane := h.sane
  unfold appVectortableSane at hsane ⊢
  have hsp := hword 0 (by decide)
  rw [Nat.add_zero] at hsp
  rw [hword 4 (by decide), hsp]
  exact hsane

/-- The image is in the slot, and the current record is about it. -/
structure Stored (data : List UInt8) (n : ℕ) (r : BootState) (f : Flash) : Prop where
  image : slotBytes f data.length.toUInt32 = data
  read : bootStateRead f = some r
  appLen : r.appLen = data.length.toUInt32
  appCrc32 : r.appCrc32 = zlibCrc32 data
  appValid : r.appValid = 1
  maxSeq : (sectors f).maxSeq seqNat = n

section Stored

variable {data : List UInt8} {n : ℕ} {r : BootState} {f : Flash}

theorem Landed.stored (h : Landed data f) (hmax : data.length ≤ appMaxSize.toNat) :
    ∃ r, Stored data ((sectors f).maxSeq seqNat) r f ∧ r.appConfirmed = 0 ∧ r.bootAttempts = 0 := by
  obtain ⟨r, hr, hlen, hcrc, hvalid, hconf, hatt⟩ := h.record
  refine ⟨r, ⟨h.image, hr, UInt32.toNat_inj.mp ?_, hcrc, hvalid, rfl⟩, hconf, hatt⟩
  rw [hlen, toNat_toUInt32 hmax]

theorem Stored.startable (h : Stored data n r f) (hmax : data.length ≤ appMaxSize.toNat)
    (hboot : Bootable data) : Startable f r where
  valid := by rw [h.appValid]; decide
  sane := hboot.vectortableSane hmax h.image
  crc := by rw [h.appLen, h.appCrc32, h.image, zlibCrc32_eq]

/-- Another record about the same image. -/
theorem Stored.write (h : Stored data n r f) (hmax : data.length ≤ appMaxSize.toNat)
    (hn : n < 2 ^ 32 - 1) (st : BootState) (hst : Copies r st) (hvalid : st.appValid = 1) :
    Stored data (n + 1) (newRecord f st) (bootStateWrite f st) := by
  have hle : data.length.toUInt32 ≤ appMaxSize := by
    rw [UInt32.le_iff_toNat_le, toNat_toUInt32 hmax]
    exact hmax
  obtain ⟨-, hread, hnext⟩ := NextWrite.write ⟨rfl, h.maxSeq⟩ hn st
  exact ⟨(slotBytes_bootStateWrite hle).trans h.image, hread, hst.appLen.trans h.appLen,
    hst.appCrc32.trans h.appCrc32, hvalid, hnext.maxSeq⟩

theorem Stored.confirmed (h : Stored data n r f) (hmax : data.length ≤ appMaxSize.toNat)
    (hboot : Bootable data) (hc : r.appConfirmed ≠ 0) : decideBootApp 0 f = ⟨true, none⟩ := by
  have hst := h.startable hmax hboot
  have hd := decideBootApp_decided 0 f
  generalize decideBootApp 0 f = d at hd ⊢
  cases hd with
  | update hs => exact absurd hs (by decide)
  | noRecord _ hr' => rw [h.read] at hr'; cases hr'
  | refused _ hr' hst' =>
    obtain rfl := Option.some.inj (h.read.symm.trans hr')
    exact absurd hst hst'
  | confirmed => rfl
  | trial _ hr' _ hc' _ =>
    obtain rfl := Option.some.inj (h.read.symm.trans hr')
    exact absurd hc' hc
  | demoted _ hr' _ hc' _ =>
    obtain rfl := Option.some.inj (h.read.symm.trans hr')
    exact absurd hc' hc

/-- A record that `ota_confirm` has something to do about. -/
theorem otaConfirm_eq {r : BootState} (hr : bootStateRead f = some r) (hv : r.appValid = 1)
    (hc : r.appConfirmed = 0) :
    otaConfirm f = some { r with appConfirmed := 1, bootAttempts := 0 } := by
  have hcond : (r.appValid != 0 && r.appConfirmed == 0) = true := by
    rw [hv, hc]
    rfl
  unfold otaConfirm
  rw [hr]
  exact if_pos hcond

/-- **An image that has landed** is started on trial, and stays once it has confirmed itself. -/
theorem Landed.confirms (h : Landed data f) (hmax : data.length ≤ appMaxSize.toNat)
    (hboot : Bootable data) (hseq : (sectors f).maxSeq seqNat + 2 < 2 ^ 32) (touched : Bool) :
    ∃ d saved m, Run Step ⟨f, 0, .reset, touched⟩ [.boot d, .confirm (some saved)] m ∧
      m.mode = .app ∧ slotBytes m.flash data.length.toUInt32 = data ∧
      decideBootApp 0 m.flash = ⟨true, none⟩ := by
  obtain ⟨r, hstored, hconf, hatt⟩ := h.stored hmax
  have htrial := decideBootApp_trial hstored.read (hstored.startable hmax hboot) hconf
    (by rw [hatt]; decide)
  have hboots := Step.boot_of_eq (m := ⟨f, 0, .reset, touched⟩) rfl htrial []
  have hstored₁ := hstored.write hmax (by omega) { r with bootAttempts := r.bootAttempts + 1 }
    ⟨rfl, rfl, Or.inl rfl⟩ hstored.appValid
  have hsaved := otaConfirm_eq hstored₁.read hstored₁.appValid hconf
  have hconfirms := Step.confirm
    (m := ⟨bootStateWrite f { r with bootAttempts := r.bootAttempts + 1 }, 0, .app, touched⟩) rfl
  rw [show otaConfirm _ = _ from hsaved] at hconfirms
  have hstored₂ := hstored₁.write hmax (by omega) { newRecord f
    { r with bootAttempts := r.bootAttempts + 1 } with appConfirmed := 1, bootAttempts := 0 }
    ⟨rfl, rfl, Or.inl rfl⟩ hstored₁.appValid
  exact ⟨_, _, _, .cons hboots (.single hconfirms), rfl, hstored₂.image,
    hstored₂.confirmed hmax hboot (by decide : (1 : UInt8) ≠ 0)⟩

end Stored

/-- **The whole update.** An application that asks for an update is back in the receiver after one
reset, with the slot and the records as they were; the session that pushes an image there ends in a
reset; and after it the device runs that image, which once confirmed is started from then on without
another word. -/
theorem update_cycle {m : Machine} (happ : m.mode = .app) (before : List Rx) {inRecovery : Bool}
    {probes : List Probe} {k : Link} {info : UInt32 × UInt32} {chan : Channel} {data : List UInt8}
    {retries : ℕ} (hprobes : ensureRecovery inRecovery probes
      (Link.hears before ⟨Recv.start m.flash, [], [], []⟩) = (some (info, chan), k))
    (hmax : data.length ≤ appMaxSize.toNat) (hboot : Bootable data)
    (hch : Faithful chan data retries)
    (hseq : (sectors k.dev.flash).maxSeq seqNat + 3 < 2 ^ 32) :
    ∃ turns d saved m', Turning turns ∧
      Run Step m
        (.requestUpdate :: .boot ⟨false, none⟩ :: (turns ++ [.boot d, .confirm (some saved)])) m' ∧
      m'.mode = .app ∧ slotBytes m'.flash data.length.toUInt32 = data ∧
      decideBootApp 0 m'.flash = ⟨true, none⟩ := by
  have hlen : 1 ≤ data.length := Nat.le_trans (by decide) hboot.long
  obtain ⟨rfl, k₀, hsynced⟩ := ensureRecovery_synced _ before hprobes
    (hch.control .sync syncBytes (by simp))
  obtain ⟨k', hpush, hpushed⟩ := hsynced.push hlen hmax hch (by omega)
  have hserves := ((Link.Serves.start (Recv.start m.flash) [] []).hears before).ensureRecovery
    inRecovery probes
  rw [hprobes] at hserves
  obtain ⟨rx, hrecv⟩ := hserves.pushImage hpush
  obtain ⟨turns, rest, touched, hturning, rturns⟩ := Link.Serves.machine hrecv 0 m.touched
  have hreset : Machine.ofRecv k'.dev rest 0 touched = ⟨k'.dev.flash, 0, .reset, touched⟩ := by
    simp [Machine.ofRecv, Mode.ofRecv, hpushed.down]
  rw [hreset] at rturns
  obtain ⟨d, saved, m', rboots, hmode, himage, hstays⟩ :=
    hpushed.landed.confirms hmax hboot (by rw [hpushed.maxSeq]; omega) touched
  have hupdate : decideBootApp otaEnterUpdateMagic m.flash = ⟨false, none⟩ := if_pos (by decide)
  have renter : Step { m with scratch0 := otaEnterUpdateMagic, mode := .reset }
      (.boot ⟨false, none⟩) (.ofRecv (Recv.start m.flash) rx 0 m.touched) :=
    .boot_of_eq rfl hupdate rx
  exact ⟨turns, d, saved, m', hturning,
    .cons (.requestUpdate happ) (.cons renter (rturns.append rboots)), hmode, himage, hstays⟩

/-- A vector table where the bootloader looks for it. -/
def vectorImage : List UInt8 := List.replicate 0x100 0xFF ++ vectorTable

theorem sent_faithful (data : List UInt8) : Faithful (fun _ => sent) data 1 where
  control := fun _ bs _ => ⟨0, (List.append_nil (sent bs)).symm⟩
  chunk := fun _ _ _ => ⟨_, ⟨0, (List.append_nil _).symm⟩, Or.inl rfl⟩
  intact := fun _ _ => ⟨0, Nat.one_pos, ⟨0, (List.append_nil _).symm⟩⟩

theorem update_cycle_vectorImage : ∃ turns d saved m', Turning turns ∧
    Run Step ⟨fun _ => 0xFF, 0, .app, false⟩
      (.requestUpdate :: .boot ⟨false, none⟩ :: (turns ++ [.boot d, .confirm (some saved)])) m' ∧
    m'.mode = .app ∧ slotBytes m'.flash vectorImage.length.toUInt32 = vectorImage ∧
    decideBootApp 0 m'.flash = ⟨true, none⟩ := by
  refine @update_cycle ⟨fun _ => 0xFF, 0, .app, false⟩ rfl [] false
    [.opened [] (fun _ => sent) sent] _ _ _ vectorImage 1 rfl (by decide +kernel)
    ⟨by decide +kernel, by decide +kernel⟩ (sent_faithful vectorImage) ?_
  show (sectors fun _ => 0xFF).maxSeq seqNat + 3 < 2 ^ 32
  rw [maxSeq_eq_zero (by decide) (by decide)]
  decide

end EthPanel
