import EthPanel.Bootloader.Boot
import EthPanel.Bootloader.RecoveryFlash
import EthPanel.Host.Flasher
import EthPanel.Ota.PowerFail

/-!
# A push lands the image

Host and receiver in lock-step over a channel that loses nothing. `Faithful` describes the
channel: what the host sends arrives whole, followed by any number of idle deadlines, except
that the payload of a DATA packet may arrive altered, and is then caught by its CRC; every
chunk arrives unaltered within its attempts.

Each exchange is one turn of the receiver: `send_turn` says what a whole packet does to the
link. The DATA phase keeps `Pushing n`: the first `n` bytes of the image are in the slot, and
the rest of what BEGN erased is still blank, so that programming the next chunk writes it.
-/

namespace EthPanel

/-- The bytes, then idle deadlines. -/
def Arrives (rx : List Rx) (bs : List UInt8) : Prop :=
  ∃ n, rx = sent bs ++ List.replicate n .timeout

/-- A channel that loses no byte of a push of `data`. -/
structure Faithful (chan : Channel) (data : List UInt8) (retries : ℕ) : Prop where
  control : ∀ site bs, (∀ off attempt, site ≠ .data off attempt) → Arrives (chan site bs) bs
  /-- A chunk arrives as it was sent, or with another payload that its CRC does not match. -/
  chunk : ∀ off ∈ pyRange data.length hostChunk, ∀ attempt, ∃ payload,
    Arrives (chan (.data off attempt) (dataPacket off (chunkAt data hostChunk off)))
      (dataHeader off.toUInt32 (chunkAt data hostChunk off).length.toUInt32
        (zlibCrc32 (chunkAt data hostChunk off)) ++ payload) ∧
    (payload = chunkAt data hostChunk off ∨
      payload.length = (chunkAt data hostChunk off).length ∧
        otaCrc32 payload ≠ zlibCrc32 (chunkAt data hostChunk off))
  /-- … and as it was sent in one of the attempts. -/
  intact : ∀ off ∈ pyRange data.length hostChunk, ∃ attempt < retries,
    Arrives (chan (.data off attempt) (dataPacket off (chunkAt data hostChunk off)))
      (dataPacket off (chunkAt data hostChunk off))

/-! ## One exchange -/

/-- **A whole packet is one turn of the receiver.** -/
theorem send_turn {chan : Channel} {site : Site} {bs : List UInt8} {k : Link} {fr : Frame}
    {arrived : List UInt8} (hup : k.dev.up = true) (hp : k.pending = [])
    (harr : Arrives (chan site bs) arrived)
    (hfr : ∀ rx, readFrame (sent arrived ++ rx) = some (fr, rx)) :
    (k.send chan site bs).dev = (execFrame k.dev fr).1 ∧ (k.send chan site bs).pending = [] ∧
      (k.send chan site bs).inbox = k.inbox ++ (execFrame k.dev fr).2 := by
  obtain ⟨n, hn⟩ := harr
  have hrest : ∃ frames, serve (execFrame k.dev fr).1 (List.replicate n .timeout)
      = ⟨(execFrame k.dev fr).1, frames, [], []⟩ := by
    cases hgo : (execFrame k.dev fr).1.up with
    | true => exact ⟨_, serve_timeouts hgo n⟩
    | false => exact ⟨_, serve_down _ hgo⟩
  obtain ⟨frames, hrest⟩ := hrest
  unfold Link.send
  rw [hp, List.nil_append, hn, serve_turn hup (hfr _), hrest]
  exact ⟨rfl, rfl, by rw [List.append_nil]⟩

theorem scanToken_reply {expected : List (List UInt8)} {r : Reply} (h : r.bytes ∈ expected)
    (rest : List UInt8) :
    Link.scanToken expected [] (r.bytes ++ rest) = some (r.bytes, rest) := by
  cases r <;> simp only [Reply.bytes] at h ⊢ <;> simp [Link.scanToken, h]

theorem readToken_reply (expected : List (List UInt8)) {r : Reply} {k : Link}
    {rest : List UInt8} (hin : k.inbox = r.bytes ++ rest) (h : r.bytes ∈ expected) :
    k.readToken expected = .ok (r.bytes, { k with inbox := rest }) := by
  unfold Link.readToken
  rw [hin, scanToken_reply h]

theorem readToken_only {expected : List (List UInt8)} {r : Reply} {k : Link}
    (hin : k.inbox = r.bytes) (h : r.bytes ∈ expected) :
    k.readToken expected = .ok (r.bytes, k.drain) :=
  readToken_reply expected (hin.trans (List.append_nil _).symm) h

theorem recvExact_append {k : Link} (bs : List UInt8) {rest : List UInt8}
    (hin : k.inbox = bs ++ rest) : k.recvExact bs.length = .ok (bs, { k with inbox := rest }) := by
  unfold Link.recvExact
  rw [hin, if_pos (by simp)]
  simp

theorem unpack32_le32 (v : UInt32) : unpack32 (le32 v) = v := ofLe32_le32 v

/-! ## The chunks -/

theorem mem_pyRange {stop step off : ℕ} (hs : 0 < step) :
    off ∈ pyRange stop step ↔ off < stop ∧ off % step = 0 := by
  simp only [pyRange, List.mem_map, List.mem_range]
  constructor
  · rintro ⟨i, hi, rfl⟩
    have hlt : i * step < stop := by
      have := (Nat.lt_div_iff_mul_lt hs).mp hi
      omega
    exact ⟨hlt, Nat.mul_mod_left i step⟩
  · rintro ⟨hlt, hmod⟩
    refine ⟨off / step, ?_, Nat.div_mul_cancel (Nat.dvd_of_mod_eq_zero hmod)⟩
    rw [Nat.lt_div_iff_mul_lt hs, Nat.div_mul_cancel (Nat.dvd_of_mod_eq_zero hmod)]
    omega

theorem length_chunkAt (data : List UInt8) (off : ℕ) :
    (chunkAt data hostChunk off).length = min 1024 (data.length - off) := by
  simp [chunkAt, hostChunk]

/-- What a chunk of the image looks like in its packet. -/
structure ChunkFields (data : List UInt8) (off : ℕ) : Prop where
  offset : off.toUInt32.toNat = off
  length : (chunkAt data hostChunk off).length.toUInt32.toNat = (chunkAt data hostChunk off).length
  accepted : dataRefused off.toUInt32 (chunkAt data hostChunk off).length.toUInt32 = false
  fits : off + (chunkAt data hostChunk off).length ≤ data.length

theorem chunkFields {data : List UInt8} {off : ℕ} (hmax : data.length ≤ appMaxSize.toNat)
    (hoff : off ∈ pyRange data.length hostChunk) : ChunkFields data off := by
  obtain ⟨hlt, _⟩ := (mem_pyRange (by decide)).mp hoff
  have hlen := length_chunkAt data off
  rw [appMaxSize_toNat] at hmax
  have h₁ : off.toUInt32.toNat = off := by
    rw [Nat.toUInt32, UInt32.toNat_ofNat']
    exact Nat.mod_eq_of_lt (by omega)
  have h₂ : (chunkAt data hostChunk off).length.toUInt32.toNat
      = (chunkAt data hostChunk off).length := by
    rw [Nat.toUInt32, UInt32.toNat_ofNat']
    exact Nat.mod_eq_of_lt (by omega)
  refine ⟨h₁, h₂, ?_, by omega⟩
  simp only [dataRefused, Bool.or_eq_false_iff, beq_eq_false_iff_ne, ne_eq,
    decide_eq_false_iff_not, gt_iff_lt, UInt32.not_lt, UInt32.le_iff_toNat_le,
    otaChunkSize_toNat, appMaxSize_toNat, UInt32.toNat_add, h₁, h₂]
  refine ⟨⟨fun h0 => ?_, by omega⟩, by omega⟩
  have := congrArg UInt32.toNat h0
  rw [h₂] at this
  have hzero : UInt32.toNat 0 = 0 := rfl
  omega

/-- The state of a push once the first `n` bytes of the image are programmed. -/
structure Pushing (f₀ : Flash) (data : List UInt8) (n : ℕ) (k : Link) : Prop where
  up : k.dev.up = true
  pending : k.pending = []
  inbox : k.inbox = []
  appLen : k.dev.appLen.toNat = data.length
  appCrc : k.dev.appCrc = zlibCrc32 data
  written : ∀ i (h : i < data.length), i < n → k.dev.flash (appOffset.toNat + i) = data[i]
  blank : ∀ i, n ≤ i → i < data.length → k.dev.flash (appOffset.toNat + i) = 0xFF
  records : sectors k.dev.flash = sectors f₀

theorem Arrives.eq {rx : List Rx} {bs cs : List UInt8} (h : Arrives rx bs) (h' : Arrives rx cs)
    (hlen : bs.length = cs.length) : bs = cs := by
  obtain ⟨n, hn⟩ := h
  obtain ⟨m, hm⟩ := h'
  have hsent : sent bs = sent cs := List.append_inj_left (hn.symm.trans hm) (by simp [hlen])
  exact (List.map_inj_right fun _ _ h => Rx.byte.inj h).mp hsent

/-- **The chunk that arrives is programmed and acknowledged.** -/
theorem Pushing.programmed {f₀ : Flash} {data : List UInt8} {off : ℕ} {k k' : Link}
    (hmax : data.length ≤ appMaxSize.toNat) (hoff : off ∈ pyRange data.length hostChunk)
    (h : Pushing f₀ data off k) (hdev : k'.dev = { k.dev with
      flash := (programChunk off.toUInt32 (chunkAt data hostChunk off)
        (chunkAt data hostChunk off).length.toUInt32).apply k.dev.flash })
    (hp : k'.pending = []) (hin : k'.inbox = []) : Pushing f₀ data (off + 1024) k' := by
  obtain ⟨h₁, h₂, h₃, h₄⟩ := chunkFields hmax hoff
  have hlen := length_chunkAt data off
  have happly := programChunk_apply off.toUInt32 k.dev.flash h₂.symm (by omega)
  simp only [h₁] at happly
  refine ⟨?_, hp, hin, ?_, ?_, ?_, ?_, ?_⟩
  · rw [hdev]
    exact h.up
  · rw [hdev]
    exact h.appLen
  · rw [hdev]
    exact h.appCrc
  · intro i hi hn
    rw [hdev]
    show (programChunk _ _ _).apply _ _ = _
    rw [happly]
    by_cases hlt : i < off
    · rw [dif_neg (by omega)]
      exact h.written i hi hlt
    · rw [dif_pos (by omega), h.blank i (by omega) hi]
      simp only [chunkAt, List.getElem_take, List.getElem_drop]
      rw [show (0xFF : UInt8) = -1 from rfl, UInt8.neg_one_and]
      congr 1
      omega
  · intro i hn hi
    rw [hdev]
    show (programChunk _ _ _).apply _ _ = _
    rw [happly, dif_neg (by omega)]
    exact h.blank i (by omega) hi
  · rw [hdev, ← h.records]
    refine sectors_congr fun i hi => ?_
    rw [appMaxSize_toNat] at hmax
    rw [bootstateAOffset_toNat] at hi
    obtain ⟨j, rfl⟩ : ∃ j, i = appOffset.toNat + j :=
      ⟨i - appOffset.toNat, by rw [appOffset_toNat]; omega⟩
    rw [appOffset_toNat] at hi
    exact (happly j).trans (dif_neg (by omega))

/-- **The retry loop ends with the chunk in the slot**, as long as one of the attempts left
arrives as it was sent. -/
theorem pushChunk_lands {chan : Channel} {data : List UInt8} {retries off : ℕ} {f₀ : Flash}
    (hmax : data.length ≤ appMaxSize.toNat) (hch : Faithful chan data retries)
    (hoff : off ∈ pyRange data.length hostChunk) :
    ∀ (left attempt : ℕ) (k : Link), Pushing f₀ data off k →
      (∃ a, attempt ≤ a ∧ a < attempt + left ∧
        Arrives (chan (.data off a) (dataPacket off (chunkAt data hostChunk off)))
          (dataPacket off (chunkAt data hostChunk off))) →
      ∃ k', pushChunk chan off (chunkAt data hostChunk off) left attempt k = .ok k' ∧
        Pushing f₀ data (off + 1024) k' := by
  intro left
  induction left with
  | zero => rintro attempt k _ ⟨a, h₁, h₂, _⟩; omega
  | succ left ih =>
    rintro attempt k h ⟨a, h₁, h₂, ha⟩
    obtain ⟨hoffNat, hlenNat, hacc, _⟩ := chunkFields hmax hoff
    obtain ⟨payload, harr, hpay⟩ := hch.chunk off hoff attempt
    have hlen : payload.length = (chunkAt data hostChunk off).length.toUInt32.toNat := by
      rw [hlenNat]
      rcases hpay with rfl | ⟨heq, _⟩
      · rfl
      · exact heq
    have hread := fun rx =>
      readFrame_data_sent (zlibCrc32 (chunkAt data hostChunk off)) hacc hlen rx
    -- The reply is eight bytes, and the host reads just these.
    have hreply : ∀ {k₁ : Link} (r : Reply), r = .dack ∨ r = .dnak →
        k₁.inbox = r.bytes ++ le32 off.toUInt32 →
        k₁.readToken [Reply.dack.bytes, Reply.dnak.bytes]
          = .ok (r.bytes, { k₁ with inbox := le32 off.toUInt32 }) ∧
        Link.recvExact 4 { k₁ with inbox := le32 off.toUInt32 }
          = .ok (le32 off.toUInt32, { k₁ with inbox := [] }) := by
      intro k₁ r hr hin
      refine ⟨readToken_reply _ hin (by rcases hr with rfl | rfl <;> simp), ?_⟩
      exact recvExact_append (le32 off.toUInt32) (List.append_nil _).symm
    rcases hpay with rfl | ⟨_, hcrc⟩
    · have hfr : ∀ rx, readFrame (sent (dataPacket off (chunkAt data hostChunk off)) ++ rx)
          = some (.data off.toUInt32 (chunkAt data hostChunk off).length.toUInt32
            (chunkAt data hostChunk off), rx) :=
        fun rx => (hread rx).trans (if_pos (zlibCrc32_eq _).symm)
      obtain ⟨hdev, hp, hin⟩ := send_turn h.up h.pending harr hfr
      rw [h.inbox, List.nil_append] at hin
      obtain ⟨htok, hrecv⟩ := hreply .dack (Or.inl rfl) hin
      refine ⟨{ k.send chan (.data off attempt) (dataPacket off (chunkAt data hostChunk off)) with
        inbox := [] }, ?_, h.programmed hmax hoff hdev hp rfl⟩
      simp only [pushChunk, htok, hrecv, bind, Except.bind, pure, Except.pure, unpack32_le32,
        hoffNat, and_self, if_true]
    · have hfr : ∀ rx, readFrame (sent (dataHeader off.toUInt32
          (chunkAt data hostChunk off).length.toUInt32 (zlibCrc32 (chunkAt data hostChunk off)) ++
            payload) ++ rx) = some (.dataNak off.toUInt32, rx) :=
        fun rx => (hread rx).trans (if_neg hcrc)
      obtain ⟨hdev, hp, hin⟩ := send_turn h.up h.pending harr hfr
      rw [h.inbox, List.nil_append] at hin
      obtain ⟨htok, hrecv⟩ := hreply .dnak (Or.inr rfl) hin
      -- This attempt is not the one that arrives, so that one is still to come.
      have hne : a ≠ attempt := by
        rintro rfl
        have heq := List.append_cancel_left (harr.eq ha (by
          simp only [List.length_append, hlen, hlenNat]))
        exact hcrc (heq ▸ (zlibCrc32_eq _).symm)
      have h' : Pushing f₀ data off { k.send chan (.data off attempt)
          (dataPacket off (chunkAt data hostChunk off)) with inbox := [] } :=
        ⟨by rw [hdev]; exact h.up, hp, rfl, by rw [hdev]; exact h.appLen,
          by rw [hdev]; exact h.appCrc, by rw [hdev]; exact h.written,
          by rw [hdev]; exact h.blank, by rw [hdev]; exact h.records⟩
      obtain ⟨k', hk', hpush⟩ := ih (attempt + 1) _ h' ⟨a, by omega, by omega, ha⟩
      refine ⟨k', ?_, hpush⟩
      have hdnak : Reply.dnak.bytes ≠ Reply.dack.bytes := by decide
      simp only [pushChunk, htok, hrecv, bind, Except.bind, hdnak, false_and, if_false]
      exact hk'

/-- **The DATA phase programs the whole image.** -/
theorem pushChunks_lands {chan : Channel} {data : List UInt8} {retries : ℕ} {f₀ : Flash}
    {k : Link} (hmax : data.length ≤ appMaxSize.toNat) (hch : Faithful chan data retries)
    (h : Pushing f₀ data 0 k) :
    ∃ k', pushChunks chan data hostChunk retries k = .ok k' ∧
      Pushing f₀ data ((data.length + 1023) / 1024 * 1024) k' := by
  have hprefix : ∀ j, j ≤ (data.length + 1023) / 1024 → ∃ k',
      ((List.range j).map (· * hostChunk)).foldlM
        (fun k off => pushChunk chan off (chunkAt data hostChunk off) retries 0 k) k = .ok k' ∧
      Pushing f₀ data (j * 1024) k' := by
    intro j
    induction j with
    | zero => exact fun _ => ⟨k, rfl, by rw [Nat.zero_mul]; exact h⟩
    | succ j ih =>
      intro hj
      obtain ⟨k₁, hk₁, hpush⟩ := ih (by omega)
      have hoff : j * hostChunk ∈ pyRange data.length hostChunk := by
        rw [mem_pyRange (by decide)]
        exact ⟨by rw [hostChunk]; omega, Nat.mul_mod_left j hostChunk⟩
      obtain ⟨a, ha, harr⟩ := hch.intact _ hoff
      obtain ⟨k₂, hk₂, hpush₂⟩ := pushChunk_lands hmax hch hoff retries 0 k₁ hpush
        ⟨a, Nat.zero_le a, by omega, harr⟩
      refine ⟨k₂, ?_, ?_⟩
      · rw [List.range_succ, List.map_append, List.foldlM_append, hk₁]
        simp only [List.map_cons, List.map_nil, List.foldlM_cons, List.foldlM_nil, bind,
          Except.bind, hk₂, pure, Except.pure]
      · rw [Nat.succ_mul]
        exact hpush₂
  exact hprefix _ (Nat.le_refl _)

/-! ## The whole session -/

theorem trySync_answered {chan : Channel} {k : Link} (hup : k.dev.up = true)
    (hp : k.pending = []) (harr : Arrives (chan .sync syncBytes) syncBytes) :
    ∃ k', trySync chan k = (some (appMaxSize, otaChunkSize), k') ∧ k'.dev = k.dev ∧
      k'.pending = [] ∧ k'.inbox = [] := by
  have hfr : ∀ rx, readFrame (sent syncBytes ++ rx) = some (.sync, rx) := readFrame_sync rfl
  obtain ⟨hdev, hpend, hin⟩ := send_turn (k := k.drain) hup hp harr hfr
  have hinbox : ((k.drain).send chan .sync syncBytes).inbox
      = Reply.blok.bytes ++ (le32 appMaxSize ++ le32 otaChunkSize) := by
    rw [hin]
    rfl
  have htok := readToken_reply [Reply.blok.bytes] hinbox (by simp)
  have hrecv := recvExact_append (k := { (k.drain).send chan .sync syncBytes with
    inbox := le32 appMaxSize ++ le32 otaChunkSize }) (le32 appMaxSize ++ le32 otaChunkSize)
    (List.append_nil _).symm
  refine ⟨{ (k.drain).send chan .sync syncBytes with inbox := [] }, ?_, hdev, hpend, rfl⟩
  unfold trySync
  simp only [htok]
  rw [show Link.recvExact 8 _ = _ from hrecv]
  rfl

theorem pushing_begn {data : List UInt8} {k k' : Link} (hlen : 1 ≤ data.length)
    (hmax : data.length ≤ appMaxSize.toNat) (hup : k.dev.up = true)
    (hdev : k'.dev = (execFrame k.dev (.begn data.length.toUInt32 (zlibCrc32 data))).1)
    (hp : k'.pending = []) (hin : k'.inbox = []) :
    begnRefused data.length.toUInt32 = false ∧ Pushing k.dev.flash data 0 k' := by
  have hnat : data.length.toUInt32.toNat = data.length := by
    rw [appMaxSize_toNat] at hmax
    rw [Nat.toUInt32, UInt32.toNat_ofNat']
    exact Nat.mod_eq_of_lt (by omega)
  have hle : data.length.toUInt32 ≤ appMaxSize := by
    rw [UInt32.le_iff_toNat_le, hnat]
    exact hmax
  have hok : begnRefused data.length.toUInt32 = false := by
    simp only [begnRefused, Bool.or_eq_false_iff, beq_eq_false_iff_ne, ne_eq,
      decide_eq_false_iff_not, gt_iff_lt, UInt32.not_lt]
    refine ⟨fun h0 => ?_, hle⟩
    have := congrArg UInt32.toNat h0
    rw [hnat, show UInt32.toNat 0 = 0 from rfl] at this
    omega
  have hexec : k'.dev = { k.dev with
      flash := applyOps (eraseSlot data.length.toUInt32) k.dev.flash
      appLen := data.length.toUInt32
      appCrc := zlibCrc32 data } := by
    rw [hdev]
    simp [execFrame, hok]
  refine ⟨hok, ?_, hp, hin, ?_, ?_, ?_, ?_, ?_⟩
  · rw [hexec]
    exact hup
  · rw [hexec]
    exact hnat
  · rw [hexec]
  · intro i _ hi
    exact absurd hi (Nat.not_lt_zero i)
  · intro i _ hi
    rw [hexec]
    exact eraseSlot_blank hle _ (by rw [hnat]; omega)
  · rw [hexec]
    exact sectors_congr fun i hi => applyOps_of_not_covers fun op hop =>
      (eraseSlot_inSlot hok hop).not_covers (Or.inr hi)

/-- What a push that returns has left on the device. -/
structure Landed (data : List UInt8) (f : Flash) : Prop where
  image : slotBytes f data.length.toUInt32 = data
  record : ∃ r, bootStateRead f = some r ∧ r.appLen.toNat = data.length ∧
    r.appCrc32 = zlibCrc32 data ∧ r.appValid = 1 ∧ r.appConfirmed = 0 ∧ r.bootAttempts = 0
  /-- With SCRATCH0 clear, the bootloader asks only for a sane vector table. -/
  boots : (decideBootApp 0 f).boots = appVectortableSane f

theorem bootStateRead_endRecord {s : Recv} (hseq : (sectors s.flash).maxSeq seqNat < 2 ^ 32 - 1) :
    ∃ r, bootStateRead (bootStateWrite s.flash (endRecord s)) = some r ∧ r.appLen = s.appLen ∧
      r.appCrc32 = s.appCrc ∧ r.appValid = 1 ∧ r.appConfirmed = 0 ∧ r.bootAttempts = 0 := by
  refine ⟨newRecord s.flash (endRecord s), ?_, rfl, rfl, rfl, rfl, rfl⟩
  rw [bootStateRead_eq, sectors_bootStateWrite]
  exact PingPong.Pair.newest_write _ (maxSeq_lt_newRecord _ hseq) .stored

/-- `END!` after the whole image: the image check passes, and its record is the newest. -/
theorem Pushing.landed {f₀ : Flash} {data : List UInt8} {n : ℕ} {k : Link}
    (hmax : data.length ≤ appMaxSize.toNat) (h : Pushing f₀ data n k) (hn : data.length ≤ n)
    (hseq : (sectors f₀).maxSeq seqNat < 2 ^ 32 - 1) :
    imageOk k.dev = true ∧ Landed data (bootStateWrite k.dev.flash (endRecord k.dev)) := by
  have hlen : k.dev.appLen = data.length.toUInt32 := by
    refine UInt32.toNat_inj.mp ?_
    rw [appMaxSize_toNat] at hmax
    rw [h.appLen, Nat.toUInt32, UInt32.toNat_ofNat']
    exact (Nat.mod_eq_of_lt (by omega)).symm
  have hle : data.length.toUInt32 ≤ appMaxSize := by
    rw [UInt32.le_iff_toNat_le, ← hlen, h.appLen]
    exact hmax
  have himage : slotBytes k.dev.flash data.length.toUInt32 = data := by
    rw [slotBytes, ← hlen, h.appLen, Mem.read_eq_iff]
    exact fun i hi => h.written i hi (by omega)
  have hok : imageOk k.dev = true := by
    rw [imageOk, hlen, himage, h.appCrc, beq_iff_eq]
    exact (zlibCrc32_eq data).symm
  have himage' : slotBytes (bootStateWrite k.dev.flash (endRecord k.dev)) data.length.toUInt32
      = data := (slotBytes_bootStateWrite hle).trans himage
  rw [← h.records] at hseq
  obtain ⟨r, hr, hrlen, hrcrc, hv, hc, ha⟩ := bootStateRead_endRecord hseq
  refine ⟨hok, himage', ⟨r, hr, by rw [hrlen, h.appLen], by rw [hrcrc, h.appCrc], hv, hc, ha⟩, ?_⟩
  cases hsane : appVectortableSane (bootStateWrite k.dev.flash (endRecord k.dev)) with
  | false =>
    have hs : ((0 : UInt32) == otaEnterUpdateMagic) = false := rfl
    simp [decideBootApp, hr, hsane, hs]
  | true =>
    have hst : Startable (bootStateWrite k.dev.flash (endRecord k.dev)) r := by
      refine ⟨by rw [hv]; decide, hsane, ?_⟩
      rw [hrlen, hrcrc, hlen, himage', h.appCrc]
      exact (zlibCrc32_eq data).symm
    rw [decideBootApp_trial hr hst hc (by rw [ha]; decide)]

/-- **An OTA push lands the exact image.** From any receiver at a command boundary, over any
channel that loses no byte, for every image that fits the slot. -/
theorem pushImage_lands {chan : Channel} {data : List UInt8} {retries : ℕ} {k : Link}
    (hlen : 1 ≤ data.length) (hmax : data.length ≤ appMaxSize.toNat)
    (hch : Faithful chan data retries) (hup : k.dev.up = true) (hp : k.pending = [])
    (hseq : (sectors k.dev.flash).maxSeq seqNat < 2 ^ 32 - 1) :
    ∃ info k₁ k₂, trySync chan k = (some info, k₁) ∧
      pushImage chan info data (zlibCrc32 data) retries k₁ = .ok k₂ ∧
      Landed data k₂.dev.flash := by
  obtain ⟨k₁, hsync, hdev₁, hp₁, _⟩ := trySync_answered hup hp
    (hch.control .sync syncBytes (by simp))
  -- BEGN
  obtain ⟨hdev₂, hp₂, hin₂⟩ := send_turn (k := k₁.drain) (hdev₁ ▸ hup) hp₁
    (hch.control .begn (begnPacket data.length.toUInt32 (zlibCrc32 data)) (by simp))
    (readFrame_begn _ _)
  obtain ⟨hok, hpush₂⟩ : begnRefused data.length.toUInt32 = false ∧ Pushing k₁.dev.flash data 0
      ((k₁.drain).send chan .begn (begnPacket data.length.toUInt32 (zlibCrc32 data))).drain :=
    pushing_begn hlen hmax (hdev₁ ▸ hup) hdev₂ hp₂ rfl
  rw [(execFrame_oker_iff _ _ _).mpr hok] at hin₂
  have hoker : Link.readToken [Reply.oker.bytes] _ = _ :=
    readToken_only (r := .oker) hin₂ List.mem_cons_self
  -- DATA
  obtain ⟨k₃, hchunks, hpush₃⟩ := pushChunks_lands hmax hch hpush₂
  -- END!
  obtain ⟨himage, hlanded⟩ := hpush₃.landed hmax (by omega) (show _ < _ from hdev₁ ▸ hseq)
  obtain ⟨hdev₄, hp₄, hin₄⟩ := send_turn hpush₃.up hpush₃.pending
    (hch.control .end' Magic.end'.bytes (by simp)) readFrame_end
  have hdone : (execFrame k₃.dev .end').2 = Reply.done.bytes :=
    (execFrame_done_iff _ _).mpr ⟨rfl, himage⟩
  have hexec : (execFrame k₃.dev .end').1
      = { k₃.dev with flash := bootStateWrite k₃.dev.flash (endRecord k₃.dev) } := by
    simp [execFrame, himage]
  rw [hdone, hpush₃.inbox, List.nil_append] at hin₄
  rw [hexec] at hdev₄
  have htok : Link.readToken [Reply.done.bytes, Reply.ecrc.bytes] _ = _ :=
    readToken_only (r := .done) hin₄ List.mem_cons_self
  -- GO!!
  have hup₄ : (k₃.send chan .end' Magic.end'.bytes).dev.up = true := by
    rw [hdev₄]
    exact hpush₃.up
  obtain ⟨hdev₅, _, hin₅⟩ := send_turn (k := (k₃.send chan .end' Magic.end'.bytes).drain) hup₄ hp₄
    (hch.control .go Magic.go.bytes (by simp)) readFrame_go
  have hbye : Link.readToken [Reply.bye.bytes] _ = _ :=
    readToken_only (r := .bye) hin₅ List.mem_cons_self
  refine ⟨(appMaxSize, otaChunkSize), k₁,
    (((k₃.send chan .end' Magic.end'.bytes).drain).send chan .go Magic.go.bytes).drain, hsync,
    ?_, ?_⟩
  · have hsize : ¬ data.length > appMaxSize.toNat := Nat.not_lt.mpr hmax
    have hchunk : min hostChunk otaChunkSize.toNat = hostChunk := rfl
    have hzero : ¬ hostChunk = 0 := by decide
    simp only [pushImage, hsize, if_false, hoker, hchunk, hzero, hchunks, htok, hbye, bind,
      Except.bind, pure, Except.pure, ne_eq, not_true_eq_false]
  · show Landed data (((k₃.send chan .end' Magic.end'.bytes).drain).send chan .go
      Magic.go.bytes).dev.flash
    rw [hdev₅]
    show Landed data (k₃.send chan .end' Magic.end'.bytes).dev.flash
    rw [hdev₄]
    exact hlanded

/-- A channel that alters the last byte of every chunk's first attempt. -/
def alteringChannel : Channel
  | .data _ 0, bs => sent (bs.dropLast ++ [0x2B])
  | _, bs => sent bs

theorem alteringChannel_faithful : Faithful alteringChannel [0x2A] 2 := by
  have hself : ∀ bs, Arrives (sent bs) bs := fun bs => ⟨0, by simp⟩
  have hoff : ∀ {off}, off ∈ pyRange [(0x2A : UInt8)].length hostChunk → off = 0 := by
    intro off h
    obtain ⟨hlt, _⟩ := (mem_pyRange (by decide)).mp h
    exact Nat.lt_one_iff.mp hlt
  refine ⟨?_, ?_, fun off h => ⟨1, by decide, hself _⟩⟩
  · intro site bs hs
    cases site with
    | data off attempt => exact absurd rfl (hs off attempt)
    | _ => exact hself bs
  · intro off h attempt
    obtain rfl := hoff h
    cases attempt with
    | zero => exact ⟨[0x2B], ⟨0, by decide +kernel⟩, Or.inr ⟨rfl, by decide +kernel⟩⟩
    | succ attempt => exact ⟨_, hself _, Or.inl rfl⟩

theorem pushImage_lands_altered : ∃ info k₁ k₂,
    trySync alteringChannel ⟨Recv.start fun _ => 0xFF, [], [], []⟩ = (some info, k₁) ∧
      pushImage alteringChannel info [0x2A] (zlibCrc32 [0x2A]) 2 k₁ = .ok k₂ ∧
      Landed [0x2A] k₂.dev.flash := by
  refine pushImage_lands (by decide) (by decide) alteringChannel_faithful rfl rfl ?_
  rw [maxSeq_eq_zero (by decide) (by decide)]
  decide

end EthPanel
