import EthPanel.Host.EnsureRecovery
import EthPanel.Host.Loss
import EthPanel.System.Device

/-!
# A host's session is a run of the device

What `ota_flash.py` makes of a connection is described on a `Link`, and what the device goes through
on a `Machine`. However often the host connects, what the receiver has done is what it does with
all that it has heard (`Link.Serves`), and that is a run of the machine, whatever the turns
(`machine_serve`). So what is known of the runs of the device is known of every session of the
host.
-/

namespace EthPanel

open Lts

/-! ## The link -/

/-- The receiver stands where `s` gets with all that it has heard. -/
def Link.Serves (s : Recv) (k : Link) : Prop :=
  ∃ rx, (serve s rx).recv = k.dev ∧ (serve s rx).rest = k.pending

namespace Link.Serves

variable {s : Recv} {k : Link}

theorem start (s : Recv) (inbox : List UInt8) (log : List Heard) :
    Link.Serves s ⟨s, [], inbox, log⟩ := ⟨[], rfl, rfl⟩

/-- The inbox and the log have no part in it. -/
theorem congr {k' : Link} (h : k.Serves s) (hdev : k'.dev = k.dev)
    (hpending : k'.pending = k.pending) :
    k'.Serves s := by
  obtain ⟨rx, hrecv, hrest⟩ := h
  exact ⟨rx, hrecv.trans hdev.symm, hrest.trans hpending.symm⟩

theorem hears (h : k.Serves s) (rx : List Rx) : (k.hears rx).Serves s := by
  obtain ⟨rx₀, hrecv, hrest⟩ := h
  refine ⟨rx₀ ++ rx, ?_, ?_⟩
  · rw [serve_append, hrecv, hrest]
    rfl
  · rw [serve_append, hrecv, hrest]
    rfl

theorem send (h : k.Serves s) (chan : Channel) (site : Site) (bs : List UInt8) :
    (k.send chan site bs).Serves s := (h.hears (chan site bs)).congr rfl rfl

theorem readToken (h : k.Serves s) {expected : List (List UInt8)} {tok : List UInt8} {k' : Link}
    (hread : k.readToken expected = .ok (tok, k')) : k'.Serves s := by
  obtain ⟨-, -, -, hk⟩ := readToken_ok hread
  rw [hk]
  exact h.congr rfl rfl

theorem recvExact (h : k.Serves s) {n : ℕ} {bs : List UInt8} {k' : Link}
    (hread : k.recvExact n = .ok (bs, k')) : k'.Serves s := by
  obtain ⟨-, hk⟩ := recvExact_ok hread
  rw [hk]
  exact h.congr rfl rfl

theorem trySync (h : k.Serves s) (chan : Channel) : (trySync chan k).2.Serves s := by
  obtain ⟨inbox, hlink⟩ := trySync_link chan k
  rw [hlink]
  exact (h.send chan .sync syncBytes).congr rfl rfl

theorem ensureRecovery (h : k.Serves s) (inRecovery : Bool) (probes : List Probe) :
    (ensureRecovery inRecovery probes k).2.Serves s := by
  induction probes generalizing k with
  | nil => exact h
  | cons probe probes ih =>
    cases probe with
    | refused => exact ih h
    | opened heard chan trigger =>
      have hsync := (h.hears heard).trySync chan
      unfold EthPanel.ensureRecovery
      cases hfound : EthPanel.trySync chan (k.hears heard) with
      | mk found k₁ =>
        rw [hfound] at hsync
        cases found with
        | some info => exact hsync
        | none =>
          refine ih ?_
          cases inRecovery with
          | false => exact hsync.hears _
          | true => exact hsync

theorem pushChunk {chan : Channel} {off : ℕ} {payload : List UInt8} {left attempt : ℕ} {k' : Link}
    (h : k.Serves s) (hpush : pushChunk chan off payload left attempt k = .ok k') :
    k'.Serves s := by
  induction left generalizing attempt k with
  | zero => cases hpush
  | succ left ih =>
    simp only [EthPanel.pushChunk, bind, Except.bind] at hpush
    have hsent := h.send chan (.data off attempt) (dataPacket off payload)
    generalize k.send chan (.data off attempt) (dataPacket off payload) = k₁ at *
    cases htok : k₁.readToken [Reply.dack.bytes, Reply.dnak.bytes] with
    | error e => rw [htok] at hpush; cases hpush
    | ok p =>
      obtain ⟨tok, k₂⟩ := p
      rw [htok] at hpush
      cases hoff : k₂.recvExact 4 with
      | error e => simp only [hoff] at hpush; cases hpush
      | ok p =>
        obtain ⟨ackOff, k₃⟩ := p
        simp only [hoff] at hpush
        have hread := (hsent.readToken htok).recvExact hoff
        split at hpush
        · obtain rfl : k₃ = k' := Except.ok.inj hpush
          exact hread
        · exact ih hread hpush

theorem pushChunks {chan : Channel} {image : List UInt8} {chunk retries : ℕ} {k' : Link}
    (h : k.Serves s) (hpush : pushChunks chan image chunk retries k = .ok k') : k'.Serves s := by
  unfold EthPanel.pushChunks at hpush
  generalize pyRange image.length chunk = offs at hpush
  induction offs generalizing k with
  | nil =>
    obtain rfl : k = k' := Except.ok.inj hpush
    exact h
  | cons off offs ih =>
    rw [List.foldlM_cons] at hpush
    cases hchunk : EthPanel.pushChunk chan off (chunkAt image chunk off) retries 0 k with
    | error e => rw [hchunk] at hpush; cases hpush
    | ok k₁ =>
      rw [hchunk] at hpush
      exact ih (h.pushChunk hchunk) hpush

/-- The receiver that a push leaves behind; the host has stopped listening. -/
theorem pushImage {chan : Channel} {info : UInt32 × UInt32} {data : List UInt8} {crc : UInt32}
    {retries : ℕ} {k' : Link} (h : k.Serves s)
    (hpush : pushImage chan info data crc retries k = .ok k') :
    ∃ rx, (serve s rx).recv = k'.dev := by
  obtain ⟨tok, k₁, k₂, k₃, hbegn, hdata, hend, hdev, -⟩ := pushImage_ok hpush
  have hdrained : k.drain.Serves s := h.congr rfl rfl
  have hbegun := (hdrained.send chan .begn _).readToken hbegn
  have hended := ((hbegun.pushChunks hdata).send chan .end' _).readToken hend
  obtain ⟨rx, hrecv, -⟩ := hended.send chan .go Magic.go.bytes
  exact ⟨rx, hrecv.trans hdev.symm⟩

end Link.Serves

/-! ## The machine -/

/-- A receiver at the top of its loop is a machine in recovery. -/
def Machine.ofRecv (s : Recv) (rx : List Rx) (scratch0 : UInt32) (touched : Bool) : Machine :=
  ⟨s.flash, scratch0, .ofRecv (s, rx), touched⟩

theorem Step.turn {s : Recv} {rx rest : List Rx} {fr : Frame} (hup : s.up = true)
    (hread : readFrame rx = some (fr, rest)) (scratch0 : UInt32) (touched : Bool) :
    Step (.ofRecv s rx scratch0 touched) (.frame fr (savedRecord s fr))
      (.ofRecv (execFrame s fr).1 rest scratch0 (touched || !(slotOps fr).isEmpty)) := by
  have hmode : (Machine.ofRecv s rx scratch0 touched).mode = .recovery s.appLen s.appCrc rx :=
    if_pos hup
  have hself : (⟨s.flash, s.appLen, s.appCrc, true⟩ : Recv) = s := by
    rw [← hup]
  have hstep : RecvStep
      (⟨(Machine.ofRecv s rx scratch0 touched).flash, s.appLen, s.appCrc, true⟩, rx)
      fr ((execFrame s fr).1, rest) := by
    refine ⟨rfl, hread, ?_⟩
    show _ = (execFrame ⟨s.flash, s.appLen, s.appCrc, true⟩ fr).1
    rw [hself]
  have hturn := Step.frame hmode hstep
  rw [show savedRecord ⟨(Machine.ofRecv s rx scratch0 touched).flash, s.appLen, s.appCrc, true⟩ fr =
    savedRecord s fr from congrArg (savedRecord · fr) hself] at hturn
  exact hturn

/-- Nothing happens but turns of the receiver's loop. -/
def Turning (l : List Event) : Prop := ∀ e ∈ l, ∃ fr saved, e = .frame fr saved

/-- **What the receiver does with an input is a run of the machine.** -/
theorem machine_serve (s : Recv) (rx : List Rx) (scratch0 : UInt32) (touched : Bool) :
    ∃ l touched', Turning l ∧ Run Step (.ofRecv s rx scratch0 touched) l
      (.ofRecv (serve s rx).recv (serve s rx).rest scratch0 touched') := by
  induction h : rx.length using Nat.strongRecOn generalizing s rx touched with
  | ind n ih =>
    cases hup : s.up with
    | false =>
      refine ⟨[], touched, fun e he => absurd he List.not_mem_nil, ?_⟩
      have hmode : ∀ rx,
          Machine.ofRecv s rx scratch0 touched = ⟨s.flash, scratch0, .reset, touched⟩ := by
        intro rx
        simp [Machine.ofRecv, Mode.ofRecv, hup]
      rw [serve_down rx hup, hmode, hmode]
      exact .nil _
    | true =>
      cases hread : readFrame rx with
      | none =>
        rw [serve_waiting s hread hup]
        exact ⟨[], touched, fun e he => absurd he List.not_mem_nil, .nil _⟩
      | some turn =>
        obtain ⟨fr, rest⟩ := turn
        rw [serve_turn hup hread]
        obtain ⟨l, touched', hturning, r⟩ :=
          ih rest.length (h ▸ readFrame_rest hread) (execFrame s fr).1 rest
          (touched || !(slotOps fr).isEmpty) rfl
        refine ⟨_, touched', fun e he => ?_, .cons (.turn hup hread scratch0 touched) r⟩
        rcases List.mem_cons.mp he with rfl | he
        · exact ⟨_, _, rfl⟩
        · exact hturning e he

theorem Link.Serves.machine {s : Recv} {k : Link} {rx : List Rx} (h : (serve s rx).recv = k.dev)
    (scratch0 : UInt32) (touched : Bool) : ∃ l rest touched', Turning l ∧
      Run Step (.ofRecv s rx scratch0 touched) l (.ofRecv k.dev rest scratch0 touched') := by
  obtain ⟨l, touched', hturning, r⟩ := machine_serve s rx scratch0 touched
  rw [h] at r
  exact ⟨l, _, touched', hturning, r⟩

/-- **A session of the host is a run of the device**: whatever the receiver has heard, however the
host has connected and whatever its channel does, a push that returns has taken the machine, turn by
turn, from the top of the receiver's loop to where the host says it is. -/
theorem session_run (f : Flash) (before : List Rx) (touched : Bool) {inRecovery : Bool}
    {probes : List Probe} {k k' : Link} {found : Option ((UInt32 × UInt32) × Channel)}
    {chan : Channel} {info : UInt32 × UInt32} {data : List UInt8} {crc : UInt32} {retries : ℕ}
    (hprobes : ensureRecovery inRecovery probes
      (Link.hears before ⟨Recv.start f, [], [], []⟩) = (found, k))
    (hpush : pushImage chan info data crc retries k = .ok k') :
    ∃ rx l rest touched', Turning l ∧ Run Step ⟨f, 0, .recovery 0 0 rx, touched⟩ l
      ⟨k'.dev.flash, 0, .ofRecv (k'.dev, rest), touched'⟩ := by
  have hstart := (Link.Serves.start (Recv.start f) [] []).hears before
  have hserves := hstart.ensureRecovery inRecovery probes
  rw [hprobes] at hserves
  obtain ⟨rx, hrecv⟩ := hserves.pushImage hpush
  exact ⟨rx, Link.Serves.machine hrecv 0 touched⟩

/-- The session in which the first connection is lost on a cut frame. -/
theorem session_run_cut : ∃ k', pushImage alteringChannel (appMaxSize, otaChunkSize) [0x2A]
    (zlibCrc32 [0x2A]) 2 (ensureRecovery true cutProbes
      (Link.hears cutFrame ⟨Recv.start fun _ => 0xFF, [], [], []⟩)).2 = .ok k' ∧
    ∃ rx l rest touched, Turning l ∧ Run Step ⟨fun _ => 0xFF, 0, .recovery 0 0 rx, false⟩ l
      ⟨k'.dev.flash, 0, .ofRecv (k'.dev, rest), touched⟩ := by
  have hok : (pushImage alteringChannel (appMaxSize, otaChunkSize) [0x2A] (zlibCrc32 [0x2A]) 2
      (ensureRecovery true cutProbes
        (Link.hears cutFrame ⟨Recv.start fun _ => 0xFF, [], [], []⟩)).2).isOk = true := by
    decide +kernel
  cases hpush : pushImage alteringChannel (appMaxSize, otaChunkSize) [0x2A] (zlibCrc32 [0x2A]) 2
      (ensureRecovery true cutProbes
        (Link.hears cutFrame ⟨Recv.start fun _ => 0xFF, [], [], []⟩)).2 with
  | error e =>
    rw [hpush] at hok
    cases hok
  | ok k' => exact ⟨k', rfl, session_run (fun _ => 0xFF) cutFrame false rfl hpush⟩

end EthPanel
