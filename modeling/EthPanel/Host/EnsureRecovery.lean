import EthPanel.App.Protocol
import EthPanel.Bootloader.RecoveryResync
import EthPanel.Host.Push
import EthPanel.Host.Tokens

/-!
# `tools/ota_flash.py`: `ensure_recovery`

`flash()` connects again and again. What the last connection left behind is still with the receiver:
it may be anywhere in a turn, waiting for the rest of a frame that will never come.
`ensure_recovery` sends SYNC until BLOK comes back, and takes that as the sign that both ends are at
a command boundary.

They need not be: the BLOK may answer a SYNC that a connection before left unfinished. But it can
not have come from anything else than a SYNC (`trySync_some`), and what is then left of the host's
own is skipped (`readFrame_begn_synced`). So a push over that connection lands
(`ensureRecovery_lands`).
-/

namespace EthPanel

/-! ## The loop -/

/-- The line `send_trigger` sends. -/
def triggerLine : List UInt8 := cstr "\x7b\"cmd\":\"ota\"\x7d\n"

/-- The receiver hears something that the host does not wait for an answer to. -/
def Link.hears (rx : List Rx) (k : Link) : Link :=
  let served := serve k.dev (k.pending ++ rx)
  { k with dev := served.recv, pending := served.rest, inbox := [] }

/-- `send_trigger(s)` and `s.close()`. The ack it waits for decides only how long the host then
sleeps. -/
def Link.sendTrigger (arrives : List UInt8 → List Rx) (k : Link) : Link :=
  k.hears (arrives triggerLine)

/-- What a turn of the loop meets. -/
inductive Probe
  /-- `connect` raised. -/
  | refused
  /-- `connect` returned. The receiver has heard `heard` since the turn before. -/
  | opened (heard : List Rx) (chan : Channel) (trigger : List UInt8 → List Rx)

/-- `ensure_recovery(host, in_recovery)`: the connection on which BLOK was heard. -/
def ensureRecovery (inRecovery : Bool) :
    List Probe → Link → Option ((UInt32 × UInt32) × Channel) × Link
  -- The 150 s are up.
  | [], k => (none, k)
  | .refused :: probes, k => ensureRecovery inRecovery probes k
  | .opened heard chan trigger :: probes, k =>
    match trySync chan (k.hears heard) with
    | (some info, k) => (some (info, chan), k)
    | (none, k) =>
      ensureRecovery inRecovery probes (if inRecovery then k else k.sendTrigger trigger)

/-! ## Between two connections -/

/-- The receiver waits for input, or has left its loop. -/
def Link.AtRest (k : Link) : Prop :=
  k.dev.up = true ∧ readFrame k.pending = none ∨ k.dev.up = false ∧ k.pending = []

theorem Link.AtRest.hears (k : Link) (rx : List Rx) : (k.hears rx).AtRest :=
  serve_rest k.dev (k.pending ++ rx)

/-- Reading takes from the inbox alone. -/
theorem trySync_link (chan : Channel) (k : Link) : ∃ inbox,
    (trySync chan k).2 = { (k.drain).send chan .sync syncBytes with inbox := inbox } := by
  unfold trySync
  cases htok : ((k.drain).send chan .sync syncBytes).readToken [Reply.blok.bytes] with
  | error e => exact ⟨((k.drain).send chan .sync syncBytes).inbox, by simp only [htok]⟩
  | ok got =>
    obtain ⟨tok, k₁⟩ := got
    obtain ⟨rest, -, rfl⟩ := readToken_got.mp htok
    simp only [htok]
    by_cases hlen : 8 ≤ rest.length
    · exact ⟨rest.drop 8, by simp [Link.recvExact, hlen]⟩
    · exact ⟨rest, by simp [Link.recvExact, hlen]⟩

theorem Link.AtRest.trySync (chan : Channel) (k : Link) : (trySync chan k).2.AtRest := by
  have hsend : ((k.drain).send chan .sync syncBytes).AtRest := serve_rest _ _
  obtain ⟨inbox, hlink⟩ := trySync_link chan k
  rw [hlink]
  exact hsend

/-- A quiet moment ends the turn the receiver is in. -/
theorem Link.hears_quiet (k : Link) (rx : List Rx) : (k.hears (rx ++ [.timeout])).pending = [] := by
  show (serve k.dev (k.pending ++ (rx ++ [.timeout]))).rest = []
  rw [← List.append_assoc]
  exact serve_quiet k.dev _

/-! ## A SYNC that is answered -/

theorem syncRest_none {i : ℕ} (hi : 8 ≤ i) : syncBytes.drop i = [] := List.drop_of_length_le hi

/-- A part of SYNC that has lost its first byte is no command. -/
theorem readFrame_syncRest {pre : List UInt8} (hpre : pre <+: syncBytes) {i : ℕ} (hi : 1 ≤ i) :
    readFrame (sent (pre.drop i)) = none ∧
      ∀ more, readFrame (sent (pre.drop i) ++ .timeout :: more) = some (.idle, more) := by
  have hnone : ∀ m < 9, ∀ i < 8, readFrame (sent ((syncBytes.take m).drop (i + 1))) = none := by
    decide +kernel
  have hidle : ∀ m < 9, ∀ i < 8,
      readFrame (sent ((syncBytes.take m).drop (i + 1)) ++ [.timeout]) = some (.idle, []) := by
    decide +kernel
  have hlen : pre.length ≤ 8 := hpre.length_le
  by_cases hlast : i < 8
  · have hnone := hnone pre.length (by omega) (i - 1) (by omega)
    have hidle := hidle pre.length (by omega) (i - 1) (by omega)
    rw [← List.prefix_iff_eq_take.mp hpre, Nat.sub_add_cancel hi] at hnone hidle
    refine ⟨hnone, fun more => ?_⟩
    rw [List.append_cons]
    exact readFrame_turns.whole hidle more
  · rw [List.drop_of_length_le (by omega)]
    exact ⟨rfl, fun _ => rfl⟩

theorem serve_syncRest {s : Recv} {pre : List UInt8} (hpre : pre <+: syncBytes) {i : ℕ}
    (hi : 1 ≤ i) (n : ℕ) :
    (serve s (sent (pre.drop i) ++ List.replicate n .timeout)).recv = s ∧
      (serve s (sent (pre.drop i) ++ List.replicate n .timeout)).replies = [] ∧
      ((serve s (sent (pre.drop i) ++ List.replicate n .timeout)).rest = [] ∨
        n = 0 ∧ (serve s (sent (pre.drop i) ++ List.replicate n .timeout)).rest =
          sent (pre.drop i)) := by
  obtain ⟨hwait, hidle⟩ := readFrame_syncRest hpre hi
  cases hup : s.up with
  | false =>
    rw [serve_down _ hup]
    exact ⟨rfl, rfl, Or.inl rfl⟩
  | true =>
    cases n with
    | zero =>
      rw [List.replicate_zero, List.append_nil, serve_waiting s hwait hup]
      exact ⟨rfl, rfl, Or.inr ⟨rfl, rfl⟩⟩
    | succ n =>
      rw [List.replicate_succ, serve_turn hup (hidle _)]
      simp only [execFrame, serve_timeouts hup, List.append_nil, true_and]
      exact Or.inl trivial

/-- A turn that was waiting takes at least the first byte of what comes. -/
theorem rest_of_waiting {pending rest : List Rx} {fr : Frame} {pre : List UInt8} {n : ℕ}
    (hwait : readFrame pending = none)
    (h : readFrame (pending ++ (sent pre ++ List.replicate n .timeout)) = some (fr, rest)) :
    ∃ i m, 1 ≤ i ∧ rest = sent (pre.drop i) ++ List.replicate m .timeout ∧
      (i < pre.length → m = n) := by
  obtain ⟨used, hsplit, hused⟩ := readFrame_turns.done h
  rcases List.append_eq_append_iff.mp hsplit with ⟨taken, rfl, htaken⟩ | ⟨back, rfl, -⟩
  · refine ⟨taken.length, n - (taken.length - pre.length), ?_, ?_, by omega⟩
    · rw [Nat.one_le_iff_ne_zero]
      intro hzero
      obtain rfl := List.length_eq_zero_iff.mp hzero
      have hdone := hused []
      rw [List.append_nil, List.append_nil, hwait] at hdone
      cases hdone
    · have hdrop := congrArg (List.drop taken.length) htaken
      rw [List.drop_left, List.drop_append, List.drop_replicate, List.length_map] at hdrop
      rw [← hdrop, sent, sent, List.map_drop]
  · rw [hused back] at hwait
    cases hwait

theorem length_reply {s : Recv} {fr : Frame} (h : fr ≠ .sync) : (execFrame s fr).2.length ≤ 8 := by
  cases fr with
  | sync => exact absurd rfl h
  | begnCut len => cases len <;> simp [execFrame]
  | begn len crc => cases hr : begnRefused len <;> simp [execFrame, hr, Reply.bytes]
  | end' => cases hok : imageOk s <;> simp [execFrame, hok, Reply.bytes]
  | _ => simp [execFrame, Reply.bytes, le32]

/-- BLOK and the two words behind it are twelve bytes. -/
theorem length_inbox_of_trySync {chan : Channel} {k k' : Link} {info : UInt32 × UInt32}
    (h : trySync chan k = (some info, k')) :
    12 ≤ ((k.drain).send chan .sync syncBytes).inbox.length := by
  unfold trySync at h
  cases htok : ((k.drain).send chan .sync syncBytes).readToken [Reply.blok.bytes] with
  | error e => simp [htok] at h
  | ok got =>
    obtain ⟨tok, k₁⟩ := got
    obtain ⟨rest, hrun, rfl⟩ := readToken_got.mp htok
    obtain ⟨read, hsplit, ⟨hmem, -⟩, hends, -⟩ := (tokenScanner_spots _).run_eq_some.mp hrun
    have hread : 4 ≤ read.length := by
      have hle := hends.length_le
      rwa [List.mem_singleton.mp hmem] at hle
    have hrest : 8 ≤ rest.length := by
      by_contra hlt
      simp [htok, Link.recvExact, hlt] at h
    rw [hsplit, List.length_append]
    omega

/-- What BLOK tells the host. -/
structure Link.Synced (k k' : Link) : Prop where
  up : k'.dev.up = true
  dev : k'.dev = k.dev
  /-- What the receiver has read of a SYNC after the one it answered. -/
  pending : ∃ i, 1 ≤ i ∧ k'.pending = sent (syncBytes.drop i)
  inbox : k'.inbox = []

/-- Whole, or as far as it came, and then a timeout. -/
def Comes (rx : List Rx) (bs : List UInt8) : Prop :=
  ∃ pre n, pre <+: bs ∧ (pre = bs ∨ 0 < n) ∧ rx = sent pre ++ List.replicate n .timeout

theorem Arrives.comes {rx : List Rx} {bs : List UInt8} (h : Arrives rx bs) : Comes rx bs := by
  obtain ⟨n, hn⟩ := h
  exact ⟨bs, n, List.prefix_rfl, Or.inl rfl, hn⟩

/-- **Only a SYNC is answered with BLOK and what follows it**, whatever the receiver was in the
middle of. -/
theorem trySync_some {chan : Channel} {k k' : Link} {info : UInt32 × UInt32} (hrest : k.AtRest)
    (hcomes : Comes (chan .sync syncBytes) syncBytes) (h : trySync chan k = (some info, k')) :
    info = (appMaxSize, otaChunkSize) ∧ k.Synced k' := by
  have hlength := length_inbox_of_trySync h
  obtain ⟨pre, n, hpre, hquiet, hn⟩ := hcomes
  have hserve : ((k.drain).send chan .sync syncBytes).inbox =
      (serve k.dev (k.pending ++ (sent pre ++ List.replicate n .timeout))).replies := by
    show [] ++ (serve k.dev (k.pending ++ chan .sync syncBytes)).replies = _
    rw [List.nil_append, hn]
  rcases hrest with ⟨hup, hwait⟩ | ⟨hdown, -⟩
  · cases hread : readFrame (k.pending ++ (sent pre ++ List.replicate n .timeout)) with
    | none =>
      rw [hserve, serve_waiting _ hread hup, List.length_nil] at hlength
      omega
    | some turn =>
      obtain ⟨fr, rest⟩ := turn
      obtain ⟨i, m, hi, rfl, hwhole⟩ := rest_of_waiting hwait hread
      obtain ⟨hrecv, hreplies, hleft⟩ := serve_syncRest (s := (execFrame k.dev fr).1) hpre hi m
      have hturn := serve_turn hup hread
      rw [hserve, hturn] at hlength
      simp only [hreplies, List.append_nil] at hlength
      obtain rfl : fr = .sync := by
        by_contra hne
        have := length_reply (s := k.dev) hne
        omega
      have hinbox : ((k.drain).send chan .sync syncBytes).inbox =
          Reply.blok.bytes ++ (le32 appMaxSize ++ le32 otaChunkSize) := by
        rw [hserve, hturn]
        simp only [hreplies, List.append_nil]
        rfl
      have hdev : ((k.drain).send chan .sync syncBytes).dev = k.dev := by
        show (serve k.dev (k.pending ++ chan .sync syncBytes)).recv = k.dev
        rw [hn, hturn]
        exact hrecv
      have hpending : ∃ j, 1 ≤ j ∧
          ((k.drain).send chan .sync syncBytes).pending = sent (syncBytes.drop j) := by
        show ∃ j, 1 ≤ j ∧ (serve k.dev (k.pending ++ chan .sync syncBytes)).rest = _
        rw [hn, hturn]
        rcases hleft with hnone | ⟨rfl, hsome⟩
        · exact ⟨8, by decide, hnone⟩
        · -- No timeout is left, so all of the SYNC came, or all of what came is used up.
          rcases hquiet with rfl | hpos
          · exact ⟨i, hi, hsome⟩
          · have hall : pre.length ≤ i := by
              by_contra hlt
              have := hwhole (by omega)
              omega
            exact ⟨8, by decide, hsome.trans (by rw [List.drop_of_length_le hall]; rfl)⟩
      have htok := readToken_reply [Reply.blok.bytes] hinbox (by simp)
      have height := recvExact_append (k := { (k.drain).send chan .sync syncBytes with
        inbox := le32 appMaxSize ++ le32 otaChunkSize }) (le32 appMaxSize ++ le32 otaChunkSize)
        (List.append_nil _).symm
      unfold trySync at h
      simp only [htok] at h
      rw [show Link.recvExact 8 _ = _ from height] at h
      simp only [Prod.mk.injEq, Option.some.injEq] at h
      obtain ⟨rfl, rfl⟩ := h
      exact ⟨rfl, hdev ▸ hup, hdev, hpending, rfl⟩
  · rw [hserve, serve_down _ hdown, List.length_nil] at hlength
    omega

/-! ## The push -/

/-- What is left of a SYNC is skipped. -/
theorem readCommand_begn_synced {i : ℕ} (hi : 1 ≤ i) (rx : List Rx) :
    readCommand (sent (syncBytes.drop i ++ Magic.begn.bytes) ++ rx) = .got .begn rx := by
  have hscan : ∀ i < 8, 1 ≤ i → readCommand (sent (syncBytes.drop i ++ Magic.begn.bytes)) =
      .got .begn [] := by decide
  by_cases hlast : i < 8
  · obtain ⟨used, hused, hgot⟩ := (scanCommand_consumes _ _).got (hscan i hlast hi)
    rw [List.append_nil] at hused
    rw [hused]
    exact hgot rx
  · rw [syncRest_none (Nat.le_of_not_lt hlast)]
    exact readCommand_sent .begn rx

theorem readFrame_begn_synced {i : ℕ} (hi : 1 ≤ i) (len crc : UInt32) (rx : List Rx) :
    readFrame (sent (syncBytes.drop i ++ begnPacket len crc) ++ rx) = some (.begn len crc, rx) := by
  unfold readFrame begnPacket
  rw [← List.append_assoc, ← List.append_assoc, sent_append, sent_append, List.append_assoc,
    List.append_assoc, readCommand_begn_synced hi]
  simp only [readBegn, readU32_sent]

/-- A packet after a part of a SYNC. -/
theorem Link.Synced.send_begn {chan : Channel} {k₀ k : Link} (h : k₀.Synced k) {len crc : UInt32}
    (harr : Arrives (chan .begn (begnPacket len crc)) (begnPacket len crc)) :
    (k.send chan .begn (begnPacket len crc)).dev = (execFrame k.dev (.begn len crc)).1 ∧
      (k.send chan .begn (begnPacket len crc)).pending = [] ∧
      (k.send chan .begn (begnPacket len crc)).inbox = (execFrame k.dev (.begn len crc)).2 := by
  obtain ⟨i, hi, hpending⟩ := h.pending
  obtain ⟨n, hn⟩ := harr
  -- As if the part had come with the packet.
  have hwhole : Arrives (k.pending ++ chan .begn (begnPacket len crc))
      (syncBytes.drop i ++ begnPacket len crc) := by
    refine ⟨n, ?_⟩
    rw [hpending, hn, sent_append, List.append_assoc]
  obtain ⟨hdev, hp, hin⟩ := @send_turn (fun _ _ => k.pending ++ chan .begn (begnPacket len crc))
    .begn (begnPacket len crc) { k with pending := [] } _ _ h.up rfl hwhole
    (readFrame_begn_synced hi len crc)
  refine ⟨hdev, hp, hin.trans ?_⟩
  show k.inbox ++ _ = _
  rw [h.inbox]
  rfl

/-- What a push that lands the image leaves behind: the device has reset, and one record was
written. -/
structure Pushed (data : List UInt8) (k k' : Link) : Prop where
  landed : Landed data k'.dev.flash
  down : k'.dev.up = false
  maxSeq : (sectors k'.dev.flash).maxSeq seqNat = (sectors k.dev.flash).maxSeq seqNat + 1

/-- **A push over a synced connection lands the image.** -/
theorem Link.Synced.push {chan : Channel} {data : List UInt8} {retries : ℕ} {k₀ k : Link}
    (h : k₀.Synced k) (hlen : 1 ≤ data.length) (hmax : data.length ≤ appMaxSize.toNat)
    (hch : Faithful chan data retries) (hseq : (sectors k.dev.flash).maxSeq seqNat < 2 ^ 32 - 1) :
    ∃ k', pushImage chan (appMaxSize, otaChunkSize) data (zlibCrc32 data) retries k = .ok k' ∧
      Pushed data k k' := by
  -- BEGN
  have hdrain : k₀.Synced k.drain := ⟨h.up, h.dev, h.pending, rfl⟩
  obtain ⟨hdev₁, hp₁, hin₁⟩ := hdrain.send_begn
    (hch.control .begn (begnPacket data.length.toUInt32 (zlibCrc32 data)) (by simp))
  obtain ⟨hok, hpush₁⟩ : begnRefused data.length.toUInt32 = false ∧ Pushing k.dev.flash data 0
      ((k.drain).send chan .begn (begnPacket data.length.toUInt32 (zlibCrc32 data))).drain :=
    pushing_begn hlen hmax h.up hdev₁ hp₁ rfl
  rw [(execFrame_oker_iff _ _ _).mpr hok] at hin₁
  have hoker : Link.readToken [Reply.oker.bytes] _ = _ :=
    readToken_only (r := .oker) hin₁ List.mem_cons_self
  -- DATA
  obtain ⟨k₂, hchunks, hpush₂⟩ := pushChunks_lands hmax hch hpush₁
  -- END!
  obtain ⟨himage, hlanded⟩ := hpush₂.landed hmax (by omega) hseq
  obtain ⟨hdev₃, hp₃, hin₃⟩ := send_turn hpush₂.up hpush₂.pending
    (hch.control .end' Magic.end'.bytes (by simp)) readFrame_end
  rw [(execFrame_done_iff _ _).mpr ⟨rfl, himage⟩, hpush₂.inbox, List.nil_append] at hin₃
  have hdone : Link.readToken [Reply.done.bytes, Reply.ecrc.bytes] _ = _ :=
    readToken_only (r := .done) hin₃ List.mem_cons_self
  have hrecord : (k₂.send chan .end' Magic.end'.bytes).dev =
      { k₂.dev with flash := bootStateWrite k₂.dev.flash (endRecord k₂.dev) } := by
    rw [hdev₃]
    simp [execFrame, himage]
  -- GO!!
  have hup : (k₂.send chan .end' Magic.end'.bytes).dev.up = true := hrecord ▸ hpush₂.up
  obtain ⟨hdev₄, -, hin₄⟩ := send_turn (k := (k₂.send chan .end' Magic.end'.bytes).drain) hup hp₃
    (hch.control .go Magic.go.bytes (by simp)) readFrame_go
  have hbye : Link.readToken [Reply.bye.bytes] _ = _ :=
    readToken_only (r := .bye) hin₄ List.mem_cons_self
  have hflash : (((k₂.send chan .end' Magic.end'.bytes).drain).send chan .go
      Magic.go.bytes).drain.dev.flash = bootStateWrite k₂.dev.flash (endRecord k₂.dev) := by
    show (((k₂.send chan .end' Magic.end'.bytes).drain).send chan .go
      Magic.go.bytes).dev.flash = _
    rw [hdev₄]
    show (k₂.send chan .end' Magic.end'.bytes).dev.flash = _
    rw [hrecord]
  refine ⟨(((k₂.send chan .end' Magic.end'.bytes).drain).send chan .go Magic.go.bytes).drain,
    ?_, ?_, congrArg Recv.up hdev₄, ?_⟩
  · have hsize : ¬ data.length > appMaxSize.toNat := Nat.not_lt.mpr hmax
    have hchunk : min hostChunk otaChunkSize.toNat = hostChunk := rfl
    have hzero : ¬ hostChunk = 0 := by decide
    simp only [pushImage, hsize, if_false, hoker, hchunk, hzero, hchunks, hdone, hbye, bind,
      Except.bind, pure, Except.pure, ne_eq, not_true_eq_false]
  · rw [hflash]
    exact hlanded
  · have hrecords : sectors k₂.dev.flash = sectors k.dev.flash := hpush₂.records
    rw [← hrecords] at hseq ⊢
    rw [hflash]
    exact (NextWrite.write ⟨rfl, rfl⟩ hseq _).2.2.maxSeq

/-! ## The loop returns -/

theorem ensureRecovery_some {inRecovery : Bool} {probes : List Probe} {k k' : Link}
    {info : UInt32 × UInt32} {chan : Channel} (hrest : k.AtRest)
    (h : ensureRecovery inRecovery probes k = (some (info, chan), k')) :
    (∃ heard trigger, .opened heard chan trigger ∈ probes) ∧
      ∃ k₀ : Link, k₀.AtRest ∧ trySync chan k₀ = (some info, k') := by
  induction probes generalizing k with
  | nil => cases h
  | cons probe probes ih =>
    have hmore : ∀ {k : Link}, k.AtRest →
        ensureRecovery inRecovery probes k = (some (info, chan), k') →
        (∃ heard trigger, .opened heard chan trigger ∈ probe :: probes) ∧
          ∃ k₀ : Link, k₀.AtRest ∧ trySync chan k₀ = (some info, k') := by
      intro k hk hfound
      obtain ⟨⟨heard, trigger, hmem⟩, hsynced⟩ := ih hk hfound
      exact ⟨⟨heard, trigger, List.mem_cons_of_mem probe hmem⟩, hsynced⟩
    cases probe with
    | refused => exact hmore hrest h
    | opened heard chan₀ trigger =>
      have hheard : (k.hears heard).AtRest := .hears k heard
      have hafter := Link.AtRest.trySync chan₀ (k.hears heard)
      unfold ensureRecovery at h
      cases hsync : trySync chan₀ (k.hears heard) with
      | mk found k₁ =>
        rw [hsync] at h hafter
        cases found with
        | some info₀ =>
          obtain ⟨⟨rfl, rfl⟩, rfl⟩ : (info₀ = info ∧ chan₀ = chan) ∧ k₁ = k' := by simpa using h
          exact ⟨⟨heard, trigger, List.mem_cons_self⟩, _, hheard, hsync⟩
        | none =>
          refine hmore ?_ h
          cases inRecovery with
          | false => exact .hears k₁ _
          | true => exact hafter

/-- A receiver that has left its loop does not come back to it. -/
theorem Link.hears_down {k : Link} (rx : List Rx) (hdown : k.dev.up = false) :
    (k.hears rx).dev.up = false := by
  show (serve k.dev (k.pending ++ rx)).recv.up = false
  rw [serve_down _ hdown]
  exact hdown

theorem ensureRecovery_opened_down {inRecovery : Bool} {heard : List Rx} {chan : Channel}
    {trigger : List UInt8 → List Rx} {probes : List Probe} {k : Link}
    (hdown : (k.hears heard).dev.up = false) :
    (ensureRecovery inRecovery (.opened heard chan trigger :: probes) k).1 ≠ none ∨
      ∃ k' : Link, k'.dev.up = false ∧ ensureRecovery inRecovery
        (.opened heard chan trigger :: probes) k = ensureRecovery inRecovery probes k' := by
  have hafter : (trySync chan (k.hears heard)).2.dev.up = false := by
    obtain ⟨inbox, hlink⟩ := trySync_link chan (k.hears heard)
    rw [hlink]
    exact Link.hears_down (k := (k.hears heard).drain) _ hdown
  rw [ensureRecovery]
  cases hsync : trySync chan (k.hears heard) with
  | mk found k₁ =>
    rw [hsync] at hafter
    cases found with
    | some info => exact Or.inl (Option.some_ne_none _)
    | none =>
      refine Or.inr ⟨_, ?_, rfl⟩
      cases inRecovery with
      | false => exact Link.hears_down _ hafter
      | true => exact hafter

/-- **`ensure_recovery` returns**, by the first connection that is opened after a quiet moment and
brings its SYNC whole, unless the receiver has left its loop. -/
theorem ensureRecovery_returns (inRecovery : Bool) (before : List Probe) (heard : List Rx)
    {chan : Channel} (trigger : List UInt8 → List Rx)
    (harr : Arrives (chan .sync syncBytes) syncBytes) (k : Link) :
    (ensureRecovery inRecovery
        (before ++ [.opened (heard ++ [.timeout]) chan trigger]) k).1 ≠ none ∨
      (ensureRecovery inRecovery
        (before ++ [.opened (heard ++ [.timeout]) chan trigger]) k).2.dev.up = false := by
  induction before generalizing k with
  | nil =>
    cases hup : (k.hears (heard ++ [.timeout])).dev.up with
    | true =>
      obtain ⟨k₁, hsync, -⟩ := trySync_answered hup (k.hears_quiet heard) harr
      left
      simp only [List.nil_append, ensureRecovery, hsync]
      exact Option.some_ne_none _
    | false =>
      rcases @ensureRecovery_opened_down inRecovery _ chan trigger [] k hup with
        hfound | ⟨k', hdown, hend⟩
      · exact Or.inl hfound
      · right
        rw [List.nil_append, hend]
        exact hdown
  | cons probe before ih =>
    cases probe with
    | refused => exact ih k
    | opened heard₁ chan₁ trigger₁ =>
      rw [List.cons_append]
      unfold ensureRecovery
      cases trySync chan₁ (k.hears heard₁) with
      | mk found k₁ =>
        cases found with
        | some info => exact Or.inl (Option.some_ne_none _)
        | none => exact ih _

/-- A DATA frame cut in its payload. -/
def cutFrame : List Rx := sent ((dataPacket 0 [0x2A, 0x2B]).dropLast)

theorem ensureRecovery_returns_cut :
    (ensureRecovery false [.refused, .opened (cutFrame ++ [.timeout]) alteringChannel sent]
      ⟨Recv.start fun _ => 0xFF, [], [], []⟩).1 ≠ none :=
  (@ensureRecovery_returns false [.refused] cutFrame alteringChannel sent ⟨0, rfl⟩ _).resolve_right
    (by decide +kernel)

theorem ensureRecovery_synced (s : Recv) (before : List Rx) {inRecovery : Bool}
    {probes : List Probe} {k : Link} {info : UInt32 × UInt32} {chan : Channel}
    (hprobes : ensureRecovery inRecovery probes
      (Link.hears before ⟨s, [], [], []⟩) = (some (info, chan), k))
    (harr : Arrives (chan .sync syncBytes) syncBytes) :
    info = (appMaxSize, otaChunkSize) ∧ ∃ k₀ : Link, k₀.Synced k := by
  obtain ⟨-, k₀, hrest, hsync⟩ := ensureRecovery_some (.hears _ before) hprobes
  obtain ⟨hinfo, hsynced⟩ := trySync_some hrest harr.comes hsync
  exact ⟨hinfo, k₀, hsynced⟩

/-- **Once the host has heard BLOK, a push lands the exact image** and resets the device, whatever
the receiver has heard before, on however many connections, and wherever in a frame they broke off:
the push needs only that this connection loses nothing. -/
theorem ensureRecovery_lands (s : Recv) (before : List Rx) {inRecovery : Bool}
    {probes : List Probe} {k : Link} {info : UInt32 × UInt32} {chan : Channel} {data : List UInt8}
    {retries : ℕ} (hprobes : ensureRecovery inRecovery probes
      (Link.hears before ⟨s, [], [], []⟩) = (some (info, chan), k))
    (hlen : 1 ≤ data.length) (hmax : data.length ≤ appMaxSize.toNat)
    (hch : Faithful chan data retries) (hseq : (sectors k.dev.flash).maxSeq seqNat < 2 ^ 32 - 1) :
    ∃ k', pushImage chan info data (zlibCrc32 data) retries k = .ok k' ∧
      Landed data k'.dev.flash ∧ k'.dev.up = false := by
  obtain ⟨rfl, k₀, hsynced⟩ := ensureRecovery_synced s before hprobes
    (hch.control .sync syncBytes (by simp))
  obtain ⟨k', hpush, hpushed⟩ := hsynced.push hlen hmax hch hseq
  exact ⟨k', hpush, hpushed.landed, hpushed.down⟩

/-- The first byte of the first SYNC is taken for the last of the payload; the second SYNC is
answered. -/
def cutProbes : List Probe :=
  [.refused, .opened [] alteringChannel sent, .opened [] alteringChannel sent]

set_option maxRecDepth 8000 in
theorem ensureRecovery_lands_cut : ∃ k',
    pushImage alteringChannel (appMaxSize, otaChunkSize) [0x2A] (zlibCrc32 [0x2A]) 2
      (ensureRecovery true cutProbes
        (Link.hears cutFrame ⟨Recv.start fun _ => 0xFF, [], [], []⟩)).2 =
        .ok k' ∧ Landed [0x2A] k'.dev.flash ∧ k'.dev.up = false := by
  refine @ensureRecovery_lands (Recv.start fun _ => 0xFF) cutFrame true cutProbes _ _ _ _ _ rfl
    (by decide) (by decide) alteringChannel_faithful ?_
  show (sectors fun _ => 0xFF).maxSeq seqNat < 2 ^ 32 - 1
  rw [maxSeq_eq_zero (by decide) (by decide)]
  decide

end EthPanel
