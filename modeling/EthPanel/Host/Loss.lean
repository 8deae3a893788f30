import EthPanel.Host.Push
import EthPanel.Host.Tokens

/-!
# False success under byte loss

A byte lost in the DATA phase leaves the receiver scanning the payload for commands, while the
host skips every reply it does not expect. `NoFalseSuccess` asks that a push over such a channel
that returns has left its image and its record on the device.

It is false (`noFalseSuccess_scanned_begn`): an image can hold what the receiver takes for a
BEGN. It holds of every push in which the receiver takes nothing else for a header or for `END!`
than what the host sent as one (`pushImage_verified`): whatever DATA frames it finds in the
payloads, the image check catches them. The argument has two sides. On the receiver's, its
header fields and its boot-state sectors are as BEGN left them until the host's `END!`
(`Sending`). On the host's, the `DONE` it reads is one the receiver sent: no other reply, and no
seam between two replies, spells it (`no_done`).
-/

namespace EthPanel

/-! ## The law -/

/-- The bytes that arrive. -/
def received (rx : List Rx) : List UInt8 :=
  rx.filterMap fun
    | .byte b => some b
    | .timeout => none

/-- A channel that loses bytes of DATA packets only. -/
structure LosesInData (chan : Channel) : Prop where
  control : ∀ site bs, (∀ off attempt, site ≠ .data off attempt) → Arrives (chan site bs) bs
  chunk : ∀ off attempt bs, (received (chan (.data off attempt) bs)).Sublist bs

/-- What the operator is told: the newest record is that of the image, and so is the slot. -/
def Verified (data : List UInt8) (f : Flash) : Prop :=
  ∃ r, bootStateRead f = some r ∧ r.appValid = 1 ∧ r.appLen = data.length.toUInt32 ∧
    r.appCrc32 = zlibCrc32 data ∧ otaCrc32 (slotBytes f data.length.toUInt32) = zlibCrc32 data

/-- **No false success**: whatever is lost in the DATA phase. -/
def NoFalseSuccess : Prop :=
  ∀ (chan : Channel) (info : UInt32 × UInt32) (data : List UInt8) (retries : ℕ) (k k' : Link),
    LosesInData chan → 1 ≤ data.length → data.length ≤ appMaxSize.toNat → k.dev.up = true →
    k.pending = [] → pushImage chan info data (zlibCrc32 data) retries k = .ok k' →
    Verified data k'.dev.flash

/-! ## A BEGN inside the image -/

/-- A BEGN for no bytes, and a DATA frame for one. -/
def scannedImage : List UInt8 := begnPacket 0 0 ++ dataPacket 0 [0x2A]

theorem received_sent (bs : List UInt8) : received (sent bs) = bs := by
  induction bs with
  | nil => rfl
  | cons b bs ih =>
    rw [sent, List.map_cons, received, List.filterMap_cons]
    exact congrArg (b :: ·) ih

/-- `f` is what arrives of each chunk's first attempt. -/
def firstAttempt (f : List UInt8 → List Rx) : Channel
  | .data _ 0, bs => f bs
  | _, bs => sent bs

theorem firstAttempt_losesInData {f : List UInt8 → List Rx}
    (hf : ∀ bs, (received (f bs)).Sublist bs) : LosesInData (firstAttempt f) := by
  refine ⟨?_, ?_⟩
  · intro site bs hs
    cases site with
    | data off attempt => exact absurd rfl (hs off attempt)
    | _ => exact ⟨0, (List.append_nil _).symm⟩
  · intro off attempt bs
    cases attempt with
    | zero => exact hf bs
    | succ attempt =>
      have hsent : received (sent bs) = bs := received_sent bs
      exact hsent.symm ▸ List.Sublist.refl bs

/-- Each chunk's first attempt loses its first byte. -/
def firstByteLost : Channel := firstAttempt fun bs => sent bs.tail

theorem firstByteLost_losesInData : LosesInData firstByteLost := by
  refine firstAttempt_losesInData fun bs => ?_
  rw [received_sent]
  exact List.tail_sublist bs

/-- **The law is false.** The receiver answers the BEGN in the payload with ERSZ, which the host
skips, and the DATA behind it with the host's own DACK; its `END!` then verifies no bytes at
all. -/
theorem noFalseSuccess_scanned_begn : ¬ NoFalseSuccess := by
  intro h
  have hrun : (pushImage firstByteLost (appMaxSize, otaChunkSize) scannedImage
      (zlibCrc32 scannedImage) 25 ⟨Recv.start fun _ => 0xFF, [], [], []⟩).toOption.map
        (fun k => (bootStateRead k.dev.flash).map (·.appLen)) = some (some 0) := by
    decide +kernel
  obtain ⟨k', hk', hread⟩ := Option.map_eq_some_iff.mp hrun
  have hok : pushImage firstByteLost (appMaxSize, otaChunkSize) scannedImage
      (zlibCrc32 scannedImage) 25 ⟨Recv.start fun _ => 0xFF, [], [], []⟩ = .ok k' := by
    cases hp : pushImage firstByteLost (appMaxSize, otaChunkSize) scannedImage
      (zlibCrc32 scannedImage) 25 ⟨Recv.start fun _ => 0xFF, [], [], []⟩ with
    | error e => rw [hp] at hk'; cases hk'
    | ok k => rw [hp] at hk'; exact congrArg Except.ok (Option.some.inj hk')
  obtain ⟨r, hr, _, hlen, _⟩ := h _ _ _ _ _ _ firstByteLost_losesInData (by decide)
    (by decide) rfl rfl hok
  rw [hr] at hread
  have h0 : r.appLen = 0 := Option.some.inj hread
  rw [h0] at hlen
  exact absurd hlen (by decide)

/-! ## What a push may do -/

/-- The echo of this offset reads as `DONE`, by itself or with the first byte of the ECRC or
ERSZ behind it. -/
def SpellsDone (off : UInt32) : Prop :=
  le32 off = Reply.done.bytes ∨ (le32 off).drop 1 = Reply.done.bytes.take 3

instance (off : UInt32) : Decidable (SpellsDone off) := inferInstanceAs (Decidable (_ ∨ _))

/-- A frame found in payload bytes that does not touch the header or the boot-state. -/
def Frame.Harmless : Frame → Prop
  | .begn _ _ | .end' => False
  | .begnCut len => len = none
  | .dataNak off | .data off _ _ => ¬ SpellsDone off
  | .idle | .sync | .dataCut | .go => True

/-- What there may be at a site: no header but the host's own, no `END!` but the host's own,
and nothing after that until the host goes on. -/
def FramesOwn : Site → List Frame → Prop
  | .sync, _ | .begn, _ => True
  | .data _ _, frames => ∀ fr ∈ frames, fr.Harmless
  | .end', frames => ∃ l tail, frames = l ++ tail ∧ (∀ fr ∈ l, fr.Harmless) ∧
      (tail = [] ∨ ∃ n, tail = .end' :: List.replicate n .idle)
  | .go, frames => ∀ fr ∈ frames, fr = .idle ∨ fr = .go

/-- The frames there are to find in what arrived are the host's own. -/
def Heard.Own (h : Heard) : Prop := FramesOwn h.site (readFrames h.rx)

theorem framesOwn_nil (site : Site) : FramesOwn site [] := by
  have hnone : ∀ {P : Frame → Prop}, ∀ fr ∈ ([] : List Frame), P fr := by
    intro P fr hfr
    cases hfr
  cases site with
  | sync | begn => trivial
  | data off attempt => exact hnone
  | end' => exact ⟨[], [], rfl, hnone, Or.inl rfl⟩
  | go => exact hnone

/-! ## The replies -/

/-- How much of `DONE` the bytes read so far end with; 4 once it was there. -/
def doneState : ℕ → UInt8 → ℕ
  | 0, b => if b = 0x44 then 1 else 0
  | 1, b => if b = 0x4F then 2 else if b = 0x44 then 1 else 0
  | 2, b => if b = 0x4E then 3 else if b = 0x44 then 1 else 0
  | 3, b => if b = 0x45 then 4 else if b = 0x44 then 1 else 0
  | _ + 4, _ => 4

theorem foldl_doneState_contains {bs : List UInt8} (h : Reply.done.bytes <:+: bs) (n : ℕ) :
    bs.foldl doneState n = 4 := by
  obtain ⟨u, v, rfl⟩ := h
  have hdone : ∀ n, Reply.done.bytes.foldl doneState n = 4
    | 0 | 1 | 2 | 3 => by decide
    | _ + 4 => rfl
  have hkeep : v.foldl doneState 4 = 4 := by
    induction v with
    | nil => rfl
    | cons b v ih => exact ih
  rw [List.foldl_append, List.foldl_append, hdone, hkeep]

theorem foldl_doneState_le32 {off : UInt32} (h : ¬ SpellsDone off) :
    (le32 off).foldl doneState 0 < 3 := by
  have hbytes : ∀ b₀ b₁ b₂ b₃ : UInt8, ¬ ([b₀, b₁, b₂, b₃] = Reply.done.bytes ∨
      [b₁, b₂, b₃] = Reply.done.bytes.take 3) → [b₀, b₁, b₂, b₃].foldl doneState 0 < 3 := by
    intro b₀ b₁ b₂ b₃ h
    simp only [Reply.bytes, List.take, List.cons.injEq, and_true, not_or] at h
    simp only [List.foldl_cons, List.foldl_nil]
    grind [doneState]
  exact hbytes _ _ _ _ h

/-- **No seam spells `DONE`**: what a frame other than an accepted `END!` is answered with adds
no `DONE` to the replies, and does not end in three bytes of one. -/
theorem foldl_doneState_reply {s : Recv} {fr : Frame}
    (hfr : fr.Harmless ∨ (∃ len crc, fr = .begn len crc) ∨ fr = .end' ∧ imageOk s = false)
    {n : ℕ} (hn : n < 3) : (execFrame s fr).2.foldl doneState n < 3 := by
  have htok : ∀ r : Reply, r ≠ .done → ∀ n < 3, r.bytes.foldl doneState n < 3 := by
    intro r hr
    cases r with
    | done => exact absurd rfl hr
    | _ => decide
  have hecho : ∀ (r : Reply) (off : UInt32), r = .dack ∨ r = .dnak → ¬ SpellsDone off →
      (r.bytes ++ le32 off).foldl doneState n < 3 := by
    intro r off hr hoff
    have hzero : ∀ n < 3, r.bytes.foldl doneState n = 0 := by
      rcases hr with rfl | rfl <;> decide
    rw [List.foldl_append, hzero n hn]
    exact foldl_doneState_le32 hoff
  cases fr with
  | idle | dataCut => exact hn
  | sync =>
    have hsync : ∀ n < 3, (Reply.blok.bytes ++ le32 appMaxSize ++ le32 otaChunkSize).foldl
        doneState n < 3 := by decide
    exact hsync n hn
  | go => exact htok .bye (by decide) n hn
  | begnCut len => cases len <;> exact hn
  | begn len crc =>
    cases h : begnRefused len with
    | false => simpa [execFrame, h] using htok .oker (by decide) n hn
    | true => simpa [execFrame, h] using htok .ersz (by decide) n hn
  | dataNak off => exact hecho .dnak off (Or.inr rfl) (by simpa [Frame.Harmless] using hfr)
  | data off len chunk => exact hecho .dack off (Or.inl rfl) (by simpa [Frame.Harmless] using hfr)
  | end' =>
    have hbad : imageOk s = false := by simpa [Frame.Harmless] using hfr
    simpa [execFrame, hbad] using htok .ecrc (by decide) n hn

/-! ## The receiver's side -/

/-- Turns on harmless frames leave the header and the boot-state alone, and send no `DONE`. -/
theorem execFrames_harmless {l : List Frame} (hl : ∀ fr ∈ l, fr.Harmless)
    (hread : ∀ fr ∈ l, ∃ rx rest, readFrame rx = some (fr, rest)) (s : Recv) :
    (execFrames s l).1.appLen = s.appLen ∧ (execFrames s l).1.appCrc = s.appCrc ∧
      sectors (execFrames s l).1.flash = sectors s.flash ∧
      ∀ n < 3, (execFrames s l).2.foldl doneState n < 3 := by
  induction l generalizing s with
  | nil => exact ⟨rfl, rfl, rfl, fun n hn => hn⟩
  | cons fr l ih =>
    have hfr : fr.Harmless := hl fr List.mem_cons_self
    obtain ⟨rx, rest, hrx⟩ := hread fr List.mem_cons_self
    obtain ⟨h₁, h₂, h₃, h₄⟩ := ih (fun g hg => hl g (List.mem_cons_of_mem _ hg))
      (fun g hg => hread g (List.mem_cons_of_mem _ hg)) (execFrame s fr).1
    have hkeep : (execFrame s fr).1.appLen = s.appLen ∧ (execFrame s fr).1.appCrc = s.appCrc := by
      cases fr with
      | begnCut len =>
        cases len with
        | none => exact ⟨rfl, rfl⟩
        | some len => cases hfr
      | begn len crc => cases hfr
      | end' => cases hfr
      | _ => exact ⟨rfl, rfl⟩
    have hsaved : savedRecord s fr = none := by
      cases fr with
      | end' => cases hfr
      | _ => rfl
    refine ⟨h₁.trans hkeep.1, h₂.trans hkeep.2, h₃.trans (sectors_execFrame hrx hsaved), ?_⟩
    intro n hn
    rw [execFrames, List.foldl_append]
    exact h₄ _ (foldl_doneState_reply (Or.inl hfr) hn)

theorem execFrames_append (s : Recv) (l l' : List Frame) :
    execFrames s (l ++ l') = ((execFrames (execFrames s l).1 l').1,
      (execFrames s l).2 ++ (execFrames (execFrames s l).1 l').2) := by
  induction l generalizing s with
  | nil => rfl
  | cons fr l ih => simp only [List.cons_append, execFrames, ih, List.append_assoc]

theorem execFrames_idle (s : Recv) (n : ℕ) :
    execFrames s (List.replicate n .idle) = (s, []) := by
  induction n with
  | zero => rfl
  | succ n ih =>
    rw [List.replicate_succ, execFrames]
    exact Prod.ext (congrArg Prod.fst ih) (congrArg Prod.snd ih)

/-- What the bytes of a site do to the link, by the frames the receiver read in them. -/
theorem send_frames (chan : Channel) (site : Site) (bs : List UInt8) (k : Link) :
    ∃ e frames, (k.send chan site bs).log = k.log ++ [e] ∧ (e.Own → FramesOwn site frames) ∧
      (k.send chan site bs).dev = (execFrames k.dev frames).1 ∧
      (k.send chan site bs).inbox = k.inbox ++ (execFrames k.dev frames).2 ∧
      ∀ fr ∈ frames, ∃ rx rest, readFrame rx = some (fr, rest) := by
  obtain ⟨hexec, hread⟩ := serveN_frames (k.pending ++ chan site bs).length k.dev
    (k.pending ++ chan site bs)
  refine ⟨_, _, rfl, ?_, ?_, ?_, hread⟩
  · intro hown
    rw [serveN_readFramesN]
    split
    · exact hown
    · exact framesOwn_nil site
  · exact congrArg Prod.fst hexec
  · exact congrArg (k.inbox ++ ·) (congrArg Prod.snd hexec)

/-! ## The host's side -/

/-- A token is found where it stands in the stream, and what follows it is left. -/
theorem readToken_ok {expected : List (List UInt8)} {k k' : Link} {tok : List UInt8}
    (h : k.readToken expected = .ok (tok, k')) :
    tok ∈ expected ∧ tok <:+: k.inbox ∧ k'.inbox <:+ k.inbox ∧
      k' = { k with inbox := k'.inbox } := by
  obtain ⟨rest, hrun, rfl⟩ := readToken_got.mp h
  have hfirst := (tokenScanner_spots expected).run_eq_some.mp hrun
  obtain ⟨read, hsplit, ⟨hmem, _⟩, hends, _⟩ := hfirst
  have hrest : rest <:+ k.inbox := by
    rw [hsplit]
    exact List.suffix_append read rest
  refine ⟨hmem, hends.isInfix.trans ?_, hrest, rfl⟩
  rw [hsplit]
  exact (List.prefix_append read rest).isInfix

theorem recvExact_ok {n : ℕ} {k k' : Link} {bs : List UInt8}
    (h : k.recvExact n = .ok (bs, k')) :
    k'.inbox <:+ k.inbox ∧ k' = { k with inbox := k'.inbox } := by
  unfold Link.recvExact at h
  split at h
  · simp only [Except.ok.injEq, Prod.mk.injEq] at h
    obtain ⟨rfl, rfl⟩ := h
    exact ⟨List.drop_suffix n k.inbox, rfl⟩
  · cases h

/-! ## The DATA phase -/

/-- Between BEGN and the host's `END!`: the receiver holds the host's header, its boot-state is
as it was, and it has not sent `DONE`. -/
structure Sending (f₀ : Flash) (data : List UInt8) (k : Link) : Prop where
  appLen : k.dev.appLen = data.length.toUInt32
  appCrc : k.dev.appCrc = zlibCrc32 data
  records : sectors k.dev.flash = sectors f₀
  /-- `stream` is all it has sent since BEGN. -/
  replies : ∃ stream, k.inbox <:+ stream ∧ stream.foldl doneState 0 < 3

theorem no_done {inbox stream : List UInt8} (h : inbox <:+ stream)
    (hstream : stream.foldl doneState 0 < 3) : ¬ Reply.done.bytes <:+: inbox := by
  intro hdone
  rw [foldl_doneState_contains (hdone.trans h.isInfix)] at hstream
  exact absurd hstream (by decide)

theorem Sending.read {f₀ : Flash} {data : List UInt8} {k k' : Link} (h : Sending f₀ data k)
    (hin : k'.inbox <:+ k.inbox) (hk : k' = { k with inbox := k'.inbox }) :
    Sending f₀ data k' := by
  obtain ⟨stream, hsuf, hstream⟩ := h.replies
  rw [hk]
  exact ⟨h.appLen, h.appCrc, h.records, stream, hin.trans hsuf, hstream⟩

/-- Sending keeps it, whatever harmless frames the receiver reads. -/
theorem Sending.send {f₀ : Flash} {data : List UInt8} {k k' : Link} {frames : List Frame}
    (h : Sending f₀ data k) (hdev : k'.dev = (execFrames k.dev frames).1)
    (hin : k'.inbox = k.inbox ++ (execFrames k.dev frames).2)
    (hread : ∀ fr ∈ frames, ∃ rx rest, readFrame rx = some (fr, rest))
    (hfr : ∀ fr ∈ frames, fr.Harmless) : Sending f₀ data k' := by
  obtain ⟨hlen, hcrc, hrec, hreply⟩ := execFrames_harmless hfr hread k.dev
  obtain ⟨stream, ⟨pre, hpre⟩, hstream⟩ := h.replies
  rw [← hdev] at hlen hcrc hrec
  refine ⟨hlen.trans h.appLen, hcrc.trans h.appCrc, hrec.trans h.records,
    stream ++ (execFrames k.dev frames).2, ⟨pre, ?_⟩, ?_⟩
  · rw [hin, ← List.append_assoc, hpre]
  · rw [List.foldl_append]
    exact hreply _ hstream

theorem pushChunk_sending {chan : Channel} {f₀ : Flash} {data : List UInt8} {off : ℕ}
    {payload : List UInt8} {left attempt : ℕ} {k k' : Link}
    (h : pushChunk chan off payload left attempt k = .ok k') :
    k.log ⊆ k'.log ∧
      ((∀ e ∈ k'.log, e.Own) → Sending f₀ data k → Sending f₀ data k') := by
  induction left generalizing attempt k with
  | zero => cases h
  | succ left ih =>
    obtain ⟨heard, frames, hlog, hfr, hdev, hin, hread⟩ :=
      send_frames chan (.data off attempt) (dataPacket off payload) k
    simp only [pushChunk, bind, Except.bind] at h
    generalize k.send chan (.data off attempt) (dataPacket off payload) = k₁ at *
    cases htok : k₁.readToken [Reply.dack.bytes, Reply.dnak.bytes] with
    | error e => rw [htok] at h; cases h
    | ok p =>
      obtain ⟨tok, k₂⟩ := p
      rw [htok] at h
      obtain ⟨_, _, hin₂, hk₂⟩ := readToken_ok htok
      cases hoff : k₂.recvExact 4 with
      | error e => simp only [hoff] at h; cases h
      | ok p =>
        obtain ⟨ackOff, k₃⟩ := p
        simp only [hoff] at h
        obtain ⟨hin₃, hk₃⟩ := recvExact_ok hoff
        have hlog₃ : k₃.log = k.log ++ [heard] := by
          rw [hk₃, hk₂]
          exact hlog
        -- What the attempt itself does, if its frames are among those that may be read.
        have hattempt : k₃.log ⊆ k'.log → (∀ e ∈ k'.log, e.Own) → Sending f₀ data k →
            Sending f₀ data k₃ := by
          intro hsub hown hk
          have hmem : heard ∈ k'.log :=
            hsub (by rw [hlog₃]; exact List.mem_append_right _ List.mem_cons_self)
          exact ((hk.send hdev hin hread (hfr (hown _ hmem))).read hin₂ hk₂).read hin₃ hk₃
        have hsub : k.log ⊆ k₃.log := by
          rw [hlog₃]
          exact List.subset_append_left _ _
        split at h
        · obtain rfl : k₃ = k' := Except.ok.inj h
          exact ⟨hsub, hattempt (List.Subset.refl _)⟩
        · obtain ⟨hrest, hsend⟩ := ih h
          exact ⟨List.Subset.trans hsub hrest,
            fun hown hk => hsend hown (hattempt hrest hown hk)⟩

theorem pushChunks_sending {chan : Channel} {f₀ : Flash} {image data : List UInt8}
    {chunk retries : ℕ} {k k' : Link} (h : pushChunks chan image chunk retries k = .ok k') :
    k.log ⊆ k'.log ∧
      ((∀ e ∈ k'.log, e.Own) → Sending f₀ data k → Sending f₀ data k') := by
  unfold pushChunks at h
  generalize pyRange image.length chunk = offs at h
  induction offs generalizing k with
  | nil =>
    obtain rfl : k = k' := Except.ok.inj h
    exact ⟨List.Subset.refl _, fun _ hk => hk⟩
  | cons off offs ih =>
    rw [List.foldlM_cons] at h
    cases hpush : pushChunk chan off (chunkAt image chunk off) retries 0 k with
    | error e => rw [hpush] at h; cases h
    | ok k₁ =>
      rw [hpush] at h
      obtain ⟨hsub, hsend⟩ := @pushChunk_sending _ f₀ data _ _ _ _ _ _ hpush
      obtain ⟨hrest, hsend'⟩ := ih h
      exact ⟨List.Subset.trans hsub hrest,
        fun hown hk => hsend' hown (hsend (fun e he => hown e (hrest he)) hk)⟩

/-! ## The whole push -/

/-- The phases of a push that returns. -/
theorem pushImage_ok {chan : Channel} {info : UInt32 × UInt32} {data : List UInt8} {crc : UInt32}
    {retries : ℕ} {k k' : Link} (h : pushImage chan info data crc retries k = .ok k') :
    ∃ tok k₁ k₂ k₃,
      ((k.drain).send chan .begn (begnPacket data.length.toUInt32 crc)).readToken
        [Reply.oker.bytes] = .ok (tok, k₁) ∧
      pushChunks chan data (min hostChunk info.2.toNat) retries k₁ = .ok k₂ ∧
      (k₂.send chan .end' Magic.end'.bytes).readToken [Reply.done.bytes, Reply.ecrc.bytes]
        = .ok (Reply.done.bytes, k₃) ∧
      k'.dev = (k₃.send chan .go Magic.go.bytes).dev ∧
      k'.log = (k₃.send chan .go Magic.go.bytes).log := by
  unfold pushImage at h
  simp only [bind, Except.bind, pure, Except.pure, throw, throwThe, MonadExceptOf.throw] at h
  split at h
  · cases h
  · cases hbegn : ((k.drain).send chan .begn (begnPacket data.length.toUInt32 crc)).readToken
      [Reply.oker.bytes] with
    | error e => rw [hbegn] at h; cases h
    | ok p =>
      obtain ⟨tok, k₁⟩ := p
      rw [hbegn] at h
      dsimp only at h
      split at h
      · cases h
      · cases hdata : pushChunks chan data (min hostChunk info.2.toNat) retries k₁ with
        | error e => rw [hdata] at h; cases h
        | ok k₂ =>
          rw [hdata] at h
          dsimp only at h
          cases hend : (k₂.send chan .end' Magic.end'.bytes).readToken
            [Reply.done.bytes, Reply.ecrc.bytes] with
          | error e => rw [hend] at h; cases h
          | ok p =>
            obtain ⟨tok', k₃⟩ := p
            rw [hend] at h
            dsimp only at h
            split at h
            · cases h
            · rename_i htok
              rw [ne_eq, Decidable.not_not] at htok
              subst htok
              refine ⟨tok, k₁, k₂, k₃, rfl, hdata, hend, ?_⟩
              split at h
              · rename_i hbye
                obtain ⟨_, _, _, hk⟩ := readToken_ok hbye
                obtain rfl := Except.ok.inj h
                rw [hk]
                exact ⟨rfl, rfl⟩
              · obtain rfl := Except.ok.inj h
                exact ⟨rfl, rfl⟩

/-- The `END!` exchange: the `DONE` the host reads is that of its own `END!`, which checked the
image against the host's header. -/
theorem Sending.verified {f₀ : Flash} {data : List UInt8} {k k' : Link}
    {frames : List Frame} (hmax : data.length ≤ appMaxSize.toNat)
    (hseq : (sectors f₀).maxSeq seqNat < 2 ^ 32 - 1) (h : Sending f₀ data k)
    (hdev : k'.dev = (execFrames k.dev frames).1)
    (hin : k'.inbox = k.inbox ++ (execFrames k.dev frames).2)
    (hread : ∀ fr ∈ frames, ∃ rx rest, readFrame rx = some (fr, rest))
    (hown : FramesOwn .end' frames) (hdone : Reply.done.bytes <:+: k'.inbox) :
    Verified data k'.dev.flash := by
  obtain ⟨l, tail, rfl, hl, htail⟩ := hown
  have hreadl : ∀ fr ∈ l, ∃ rx rest, readFrame rx = some (fr, rest) := by
    intro fr hfr
    exact hread fr (List.mem_append_left tail hfr)
  -- Up to the `END!` nothing has changed.
  obtain ⟨hlen, hcrc, hrec, stream, hsuf, hstream⟩ : Sending f₀ data
      { k with dev := (execFrames k.dev l).1, inbox := k.inbox ++ (execFrames k.dev l).2 } :=
    h.send rfl rfl hreadl hl
  rw [execFrames_append] at hdev hin
  generalize (execFrames k.dev l).1 = s at *
  rcases htail with rfl | ⟨n, rfl⟩
  · -- Without an `END!` there is no `DONE`.
    rw [execFrames, List.append_nil] at hin
    exact absurd (hin ▸ hdone) (no_done hsuf hstream)
  · rw [execFrames, execFrames_idle] at hdev hin
    dsimp only at hlen hcrc hrec hsuf hdev hin
    rw [List.append_nil, ← List.append_assoc] at hin
    cases hok : imageOk s with
    | false =>
      have hsuf' : k'.inbox <:+ stream ++ (execFrame s .end').2 := by
        obtain ⟨pre, hpre⟩ := hsuf
        exact ⟨pre, by rw [hin, ← List.append_assoc, hpre]⟩
      refine absurd hdone (no_done hsuf' ?_)
      rw [List.foldl_append]
      exact foldl_doneState_reply (Or.inr (Or.inr ⟨rfl, hok⟩)) hstream
    | true =>
      have hflash : k'.dev.flash = bootStateWrite s.flash (endRecord s) := by
        rw [hdev]
        simp [execFrame, hok]
      have hle : data.length.toUInt32 ≤ appMaxSize := by
        rw [UInt32.le_iff_toNat_le, Nat.toUInt32, UInt32.toNat_ofNat']
        exact Nat.le_trans (Nat.mod_le _ _) hmax
      rw [← hrec] at hseq
      obtain ⟨r, hr, hrlen, hrcrc, hvalid, _, _⟩ := bootStateRead_endRecord hseq
      rw [hflash]
      refine ⟨r, hr, hvalid, hrlen.trans hlen, hrcrc.trans hcrc, ?_⟩
      rw [slotBytes_bootStateWrite hle, ← hlen, ← hcrc]
      exact beq_iff_eq.mp hok

theorem execFrames_go {l : List Frame} (hl : ∀ fr ∈ l, fr = .idle ∨ fr = .go) (s : Recv) :
    (execFrames s l).1.flash = s.flash := by
  induction l generalizing s with
  | nil => rfl
  | cons fr l ih =>
    rw [execFrames]
    refine (ih (fun g hg => hl g (List.mem_cons_of_mem _ hg)) _).trans ?_
    rcases hl fr List.mem_cons_self with rfl | rfl <;> rfl

/-- **A push that returns has verified its own image**, over any channel that loses bytes of the
DATA phase, as long as the receiver takes nothing but the host's own commands for a header or
for `END!`. -/
theorem pushImage_verified {chan : Channel} {info : UInt32 × UInt32} {data : List UInt8}
    {retries : ℕ} {k k' : Link} (hchan : LosesInData chan)
    (hmax : data.length ≤ appMaxSize.toNat) (hup : k.dev.up = true) (hp : k.pending = [])
    (hseq : (sectors k.dev.flash).maxSeq seqNat < 2 ^ 32 - 1)
    (h : pushImage chan info data (zlibCrc32 data) retries k = .ok k')
    (hown : ∀ e ∈ k'.log, e.Own) : Verified data k'.dev.flash := by
  obtain ⟨tok, k₁, k₂, k₃, hbegn, hdata, hend, hdev, hlog⟩ := pushImage_ok h
  -- BEGN
  obtain ⟨hdev₁, _, hin₁⟩ := send_turn (k := k.drain) hup hp
    (hchan.control .begn (begnPacket data.length.toUInt32 (zlibCrc32 data)) (by simp))
    (readFrame_begn _ _)
  generalize (k.drain).send chan .begn _ = k₀ at hdev₁ hin₁ hbegn
  obtain ⟨_, _, hsuf, hk₁⟩ := readToken_ok hbegn
  have hsend₁ : Sending k.dev.flash data k₁ := by
    refine Sending.read ?_ hsuf hk₁
    have hrefl : (execFrame k.drain.dev (.begn data.length.toUInt32 (zlibCrc32 data))).2.foldl
        doneState 0 < 3 := foldl_doneState_reply (Or.inr (Or.inl ⟨_, _, rfl⟩)) (by decide)
    have hrec := sectors_execFrame (readFrame_begn data.length.toUInt32 (zlibCrc32 data) [])
      (s := k.drain.dev) rfl
    rw [← hdev₁] at hrec
    refine ⟨?_, ?_, hrec, _, ?_, hrefl⟩
    · rw [hdev₁, execFrame]
      split <;> rfl
    · rw [hdev₁, execFrame]
      split <;> rfl
    · rw [hin₁]
      exact List.suffix_refl _
  -- DATA
  obtain ⟨heard₃, frames, hlog₃, hfr₃, hdev₃, hin₃, hread₃⟩ :=
    send_frames chan .end' Magic.end'.bytes k₂
  obtain ⟨heard₄, goes, hlog₄, hfr₄, hdev₄, _, _⟩ := send_frames chan .go Magic.go.bytes k₃
  obtain ⟨_, hdone, _, hk₃⟩ := readToken_ok hend
  have hlog' : k'.log = k₂.log ++ [heard₃] ++ [heard₄] := by
    rw [hlog, hlog₄, hk₃]
    exact congrArg (· ++ [_]) hlog₃
  have hsend₂ : Sending k.dev.flash data k₂ := by
    refine (pushChunks_sending hdata).2 (fun e he => hown e ?_) hsend₁
    rw [hlog']
    exact List.mem_append_left _ (List.mem_append_left _ he)
  -- END!
  have hmem : heard₃ ∈ k'.log := by
    rw [hlog']
    exact List.mem_append_left _ (List.mem_append_right _ List.mem_cons_self)
  have hverified : Verified data (k₂.send chan .end' Magic.end'.bytes).dev.flash :=
    hsend₂.verified hmax hseq hdev₃ hin₃ hread₃ (hfr₃ (hown _ hmem)) hdone
  have hdev₂ : k₃.dev = (k₂.send chan .end' Magic.end'.bytes).dev := by
    rw [hk₃]
  -- GO!!
  have hgo : ∀ fr ∈ goes, fr = .idle ∨ fr = .go :=
    hfr₄ (hown heard₄ (by rw [hlog']; exact List.mem_append_right _ List.mem_cons_self))
  rw [hdev, hdev₄, execFrames_go hgo, hdev₂]
  exact hverified

/-- Each chunk's first attempt loses its last byte, and the receiver's read times out. -/
def lastByteLost : Channel := firstAttempt fun bs => sent bs.dropLast ++ [.timeout]

theorem lastByteLost_losesInData : LosesInData lastByteLost := by
  refine firstAttempt_losesInData fun bs => ?_
  have hrx : received (sent bs.dropLast ++ [.timeout]) = bs.dropLast := by
    rw [received, List.filterMap_append]
    exact (List.append_nil _).trans (received_sent _)
  rw [hrx]
  exact List.dropLast_sublist bs

/-- One byte: the first attempt is answered DNAK, the second lands it. -/
theorem pushImage_verified_lastByteLost : ∃ k', pushImage lastByteLost (appMaxSize, otaChunkSize)
    [0x2A] (zlibCrc32 [0x2A]) 2 ⟨Recv.start fun _ => 0xFF, [], [], []⟩ = .ok k' ∧
    Verified [0x2A] k'.dev.flash := by
  have hlog : (pushImage lastByteLost (appMaxSize, otaChunkSize) [0x2A] (zlibCrc32 [0x2A]) 2
      ⟨Recv.start fun _ => 0xFF, [], [], []⟩).toOption.map
        (fun k => k.log.map fun e => (e.site, readFrames e.rx))
      = some [(.begn, [.begn 1 (zlibCrc32 [0x2A])]), (.data 0 0, [.dataNak 0]),
        (.data 0 1, [.data 0 1 [0x2A]]), (.end', [.end']), (.go, [.go])] := by
    decide +kernel
  cases hpush : pushImage lastByteLost (appMaxSize, otaChunkSize) [0x2A] (zlibCrc32 [0x2A]) 2
      ⟨Recv.start fun _ => 0xFF, [], [], []⟩ with
  | error e => rw [hpush] at hlog; cases hlog
  | ok k' =>
    rw [hpush] at hlog
    have hseq : (sectors (fun _ => 0xFF)).maxSeq seqNat < 2 ^ 32 - 1 := by
      rw [maxSeq_eq_zero (by decide) (by decide)]
      decide
    have hzero : ¬ SpellsDone 0 := by decide
    refine ⟨k', rfl, pushImage_verified (k := ⟨Recv.start fun _ => 0xFF, [], [], []⟩)
      lastByteLost_losesInData (by decide) rfl rfl hseq hpush ?_⟩
    have hframes : k'.log.map (fun e => (e.site, readFrames e.rx)) = _ := Option.some.inj hlog
    have hall : ∀ p ∈ k'.log.map (fun e => (e.site, readFrames e.rx)), FramesOwn p.1 p.2 := by
      rw [hframes]
      simp [FramesOwn, Frame.Harmless, hzero]
      exact ⟨[], [.end'], rfl, by simp, Or.inr ⟨0, rfl⟩⟩
    exact fun e he => hall _ (List.mem_map_of_mem he)

end EthPanel
