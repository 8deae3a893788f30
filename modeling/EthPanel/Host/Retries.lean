import EthPanel.Host.EnsureRecovery
import EthPanel.Host.Loss

/-!
# `tools/ota_flash.py`: `flash`

An attempt drives the device into recovery and pushes; one that raises is followed by another, on a
new connection and with whatever the last one has left.

A connection can break at any byte: of what the host sends at a site the device gets all, or the
beginning. A push over such a connection that returns has landed its image all the same
(`Link.Synced.push_ok`), since every step of it has seen its own reply. So `flash` returns with the
image landed however often its connections break (`flash_lands`), and it does return once one of
the attempts has connections that hold (`flash_returns`).
-/

namespace EthPanel

/-! ## The loop -/

/-- The default of `chunk_retries`. -/
def chunkRetries : ℕ := 25

structure Attempt where
  probes : List Probe
  /-- What the receiver has heard of the push, if it raised. -/
  heard : List Rx

/-- The body of the loop: has it returned, and the link it leaves. -/
def Attempt.run (inRecovery : Bool) (data : List UInt8) (a : Attempt) (k : Link) : Bool × Link :=
  match ensureRecovery inRecovery a.probes k with
  -- `TimeoutError`
  | (none, k) => (false, k)
  | (some (info, chan), k) =>
    match pushImage chan info data (zlibCrc32 data) chunkRetries k with
    | .ok k => (true, k)
    | .error _ => (false, k.hears a.heard)

/-- `flash(host, image, in_recovery, retries)`, an attempt for each turn of its loop. -/
def flash (inRecovery : Bool) (data : List UInt8) : List Attempt → Link → Bool × Link
  -- `RuntimeError`
  | [], k => (false, k)
  | a :: attempts, k =>
    if (a.run inRecovery data k).1 then a.run inRecovery data k
    else flash inRecovery data attempts (a.run inRecovery data k).2

/-! ## Connections that break -/

/-- A chunk that comes whole, or altered so that its CRC does not match. -/
def ComesThrough (rx : List Rx) (off : ℕ) (chunk : List UInt8) : Prop :=
  ∃ payload,
    Arrives rx (dataHeader off.toUInt32 chunk.length.toUInt32 (zlibCrc32 chunk) ++ payload) ∧
    (payload = chunk ∨ payload.length = chunk.length ∧ otaCrc32 payload ≠ zlibCrc32 chunk)

/-- A channel over which `data` can be pushed, but which can break at any byte. -/
structure Breakable (chan : Channel) (data : List UInt8) : Prop where
  control : ∀ site bs, (∀ off attempt, site ≠ .data off attempt) → Comes (chan site bs) bs
  chunk : ∀ off ∈ pyRange data.length hostChunk, ∀ attempt,
    Comes (chan (.data off attempt) (dataPacket off (chunkAt data hostChunk off)))
        (dataPacket off (chunkAt data hostChunk off)) ∨
      ComesThrough (chan (.data off attempt) (dataPacket off (chunkAt data hostChunk off))) off
        (chunkAt data hostChunk off)

theorem Faithful.breakable {chan : Channel} {data : List UInt8} {retries : ℕ}
    (h : Faithful chan data retries) : Breakable chan data where
  control := fun site bs hsite => (h.control site bs hsite).comes
  chunk := fun off hoff attempt => Or.inr (h.chunk off hoff attempt)

/-- The packet has come, or it has broken off and the receiver's read has timed out. -/
theorem Comes.cases {rx : List Rx} {bs : List UInt8} (h : Comes rx bs) : Arrives rx bs ∨
    ∃ pre n, pre <+: bs ∧ pre.length < bs.length ∧
      rx = sent pre ++ .timeout :: List.replicate n .timeout := by
  obtain ⟨pre, n, hpre, hquiet, rfl⟩ := h
  by_cases hall : pre = bs
  · exact Or.inl ⟨n, by rw [hall]⟩
  · obtain ⟨n, rfl⟩ := Nat.exists_eq_succ_of_ne_zero (Nat.ne_of_gt (hquiet.resolve_left hall))
    refine Or.inr ⟨pre, n, hpre, ?_, rfl⟩
    exact lt_of_le_of_ne hpre.length_le fun hlen => hall (hpre.eq_of_length hlen)

/-! ## Frames that break off -/

theorem prefix_append_cases {pre as bs : List UInt8} (h : pre <+: as ++ bs) :
    (pre <+: as ∧ pre.length < as.length) ∨ ∃ pre', pre = as ++ pre' ∧ pre' <+: bs := by
  rcases Nat.lt_or_ge pre.length as.length with hlt | hge
  · exact Or.inl ⟨List.prefix_of_prefix_length_le h (List.prefix_append as bs) (by omega), hlt⟩
  · obtain ⟨pre', rfl⟩ := List.prefix_of_prefix_length_le (List.prefix_append as bs) h hge
    exact Or.inr ⟨pre', rfl, (List.prefix_append_right_inj as).mp h⟩

theorem readFrame_cutMagic (m : Magic) {pre : List UInt8} (hpre : pre <+: m.bytes)
    (hlt : pre.length < m.bytes.length) (more : List Rx) :
    readFrame (sent pre ++ .timeout :: more) = some (.idle, more) := by
  have hparts : ∀ n < 4, readFrame (sent (m.bytes.take n) ++ [.timeout]) = some (.idle, []) := by
    cases m <;> decide
  have hfour : m.bytes.length = 4 := by
    cases m <;> rfl
  have hidle := hparts pre.length (by omega)
  rw [← List.prefix_iff_eq_take.mp hpre] at hidle
  rw [List.append_cons]
  exact readFrame_turns.whole hidle more

theorem readExact_cut {bs : List UInt8} {n : ℕ} (h : bs.length < n) (more : List Rx) :
    readExact n (sent bs ++ .timeout :: more) = .timedOut more := by
  induction bs generalizing n with
  | nil =>
    cases n with
    | zero => cases h
    | succ n => rfl
  | cons b bs ih =>
    cases n with
    | zero => cases h
    | succ n =>
      have hrest := ih (Nat.lt_of_succ_lt_succ h)
      rw [sent] at hrest
      rw [sent, List.map_cons, List.cons_append, readExact, hrest]

theorem readU32_cut {v : UInt32} {pre : List UInt8} (h : pre.length < (le32 v).length)
    (more : List Rx) : readU32 (sent pre ++ .timeout :: more) = .timedOut more := by
  unfold readU32
  rw [readExact_cut (show pre.length < 4 from h)]

/-- A BEGN that breaks off is not answered. -/
theorem readBegn_cut {len crc : UInt32} {pre : List UInt8} (hpre : pre <+: le32 len ++ le32 crc)
    (hlt : pre.length < (le32 len ++ le32 crc).length) (more : List Rx) :
    ∃ len, readBegn (sent pre ++ .timeout :: more) = some (.begnCut len, more) := by
  rcases prefix_append_cases hpre with ⟨-, hshort⟩ | ⟨pre, rfl, -⟩
  · exact ⟨none, by rw [readBegn, readU32_cut hshort]⟩
  · rw [List.length_append, List.length_append, Nat.add_lt_add_iff_left] at hlt
    refine ⟨some len, ?_⟩
    rw [readBegn, sent_append, List.append_assoc, readU32_sent]
    simp only [readU32_cut hlt]

/-- A DATA frame that breaks off is not answered, or refused. -/
theorem readData_cut {off len crc : UInt32} {payload pre : List UInt8}
    (hacc : dataRefused off len = false) (hlen : payload.length = len.toNat)
    (hpre : pre <+: le32 off ++ (le32 len ++ (le32 crc ++ payload)))
    (hlt : pre.length < (le32 off ++ (le32 len ++ (le32 crc ++ payload))).length)
    (more : List Rx) : readData (sent pre ++ .timeout :: more) = some (.dataCut, more) ∨
      readData (sent pre ++ .timeout :: more) = some (.dataNak off, more) := by
  rw [readData_eq]
  dsimp only
  rcases prefix_append_cases hpre with ⟨-, hshort⟩ | ⟨pre₁, rfl, hpre₁⟩
  · rw [readU32_cut hshort]
    exact Or.inl rfl
  rw [sent_append, List.append_assoc, readU32_sent]
  dsimp only [ReadResult.turn]
  rcases prefix_append_cases hpre₁ with ⟨-, hshort⟩ | ⟨pre₂, rfl, hpre₂⟩
  · rw [readU32_cut hshort]
    exact Or.inl rfl
  rw [sent_append, List.append_assoc, readU32_sent]
  dsimp only [ReadResult.turn]
  rcases prefix_append_cases hpre₂ with ⟨-, hshort⟩ | ⟨pre₃, rfl, -⟩
  · rw [readU32_cut hshort]
    exact Or.inl rfl
  rw [sent_append, List.append_assoc, readU32_sent]
  simp only [List.length_append, Nat.add_lt_add_iff_left] at hlt
  dsimp only [ReadResult.turn]
  rw [readPayload, hacc, if_neg Bool.false_ne_true, readExact_cut (by omega)]
  exact Or.inr rfl

/-! ## Packets that break off -/

/-- What the link is when a packet breaks off. -/
theorem send_cut {chan : Channel} {site : Site} {bs pre : List UInt8} {n : ℕ} {k : Link}
    {fr : Frame} (hup : k.dev.up = true)
    (hrx : chan site bs = sent pre ++ .timeout :: List.replicate n .timeout)
    (hfr : ∀ more, readFrame (k.pending ++ (sent pre ++ .timeout :: more)) = some (fr, more))
    (hgo : fr ≠ .go) :
    (k.send chan site bs).dev = (execFrame k.dev fr).1 ∧ (k.send chan site bs).pending = [] ∧
      (k.send chan site bs).inbox = k.inbox ++ (execFrame k.dev fr).2 := by
  have hup' : (execFrame k.dev fr).1.up = true := (execFrame_up hgo).trans hup
  unfold Link.send
  rw [hrx, serve_turn hup (hfr _), serve_timeouts hup' n]
  exact ⟨rfl, rfl, by rw [List.append_nil]⟩

/-- A command that breaks off does nothing. -/
theorem send_cutMagic {chan : Channel} {site : Site} {m : Magic} {pre : List UInt8} {n : ℕ}
    {k : Link} (hup : k.dev.up = true) (hp : k.pending = []) (hpre : pre <+: m.bytes)
    (hlt : pre.length < m.bytes.length)
    (hrx : chan site m.bytes = sent pre ++ .timeout :: List.replicate n .timeout) :
    (k.send chan site m.bytes).dev = k.dev ∧ (k.send chan site m.bytes).inbox = k.inbox := by
  have hidle : ∀ more, readFrame (k.pending ++ (sent pre ++ .timeout :: more)) =
      some (.idle, more) := fun more => by
    rw [hp]
    exact readFrame_cutMagic m hpre hlt more
  obtain ⟨hdev, -, hin⟩ := send_cut hup hrx hidle (by simp)
  exact ⟨hdev, hin.trans (List.append_nil _)⟩

theorem readToken_empty {k : Link} (hin : k.inbox = []) (expected : List (List UInt8)) :
    k.readToken expected = .error .timeout := by
  unfold Link.readToken
  rw [hin]
  rfl

/-- A BEGN that breaks off is not answered, also behind a part of a SYNC. -/
theorem Link.Synced.begn_cut {chan : Channel} {k₀ k : Link} (h : k₀.Synced k) {len crc : UInt32}
    {pre : List UInt8} {n : ℕ} (hpre : pre <+: begnPacket len crc)
    (hlt : pre.length < (begnPacket len crc).length) (hrx : chan .begn (begnPacket len crc) =
      sent pre ++ .timeout :: List.replicate n .timeout) :
    (k.send chan .begn (begnPacket len crc)).inbox = [] := by
  obtain ⟨i, hi, hpending⟩ := h.pending
  have hread : ∃ fr, (fr = .idle ∨ ∃ len, fr = .begnCut len) ∧
      ∀ more, readFrame (k.pending ++ (sent pre ++ .timeout :: more)) = some (fr, more) := by
    rw [hpending]
    unfold begnPacket at hpre hlt
    rw [List.append_assoc] at hpre hlt
    rcases prefix_append_cases hpre with ⟨hmagic, hshort⟩ | ⟨pre, rfl, hrest⟩
    · have hparts : ∀ i < 8, ∀ n < 4, readFrame (sent (syncBytes.drop (i + 1)) ++
          (sent (Magic.begn.bytes.take n) ++ [.timeout])) = some (.idle, []) := by
        decide +kernel
      refine ⟨.idle, Or.inl rfl, fun more => ?_⟩
      by_cases hlast : i ≤ 8
      · have hidle := hparts (i - 1) (by omega) pre.length hshort
        rw [← List.prefix_iff_eq_take.mp hmagic, Nat.sub_add_cancel hi] at hidle
        have hmore := readFrame_turns.whole hidle more
        rwa [List.append_assoc, List.append_assoc, List.singleton_append] at hmore
      · rw [syncRest_none (by omega)]
        exact readFrame_cutMagic .begn hmagic hshort more
    · rw [List.length_append, List.length_append, Nat.add_lt_add_iff_left] at hlt
      obtain ⟨len', hlen'⟩ := readBegn_cut hrest hlt []
      refine ⟨.begnCut len', Or.inr ⟨len', rfl⟩, fun more => ?_⟩
      have hbegn : ∀ more,
          readBegn (sent pre ++ .timeout :: more) = some (.begnCut len', more) := by
        intro more
        rw [List.append_cons]
        exact readBegn_turns.whole hlen' more
      rw [← List.append_assoc, ← sent_append, ← List.append_assoc, sent_append,
        List.append_assoc, readFrame, readCommand_begn_synced hi]
      exact hbegn more
  obtain ⟨fr, hfr, hread⟩ := hread
  have hsilent : fr ≠ .go ∧ (execFrame k.dev fr).2 = [] := by
    rcases hfr with rfl | ⟨len, rfl⟩
    · exact ⟨by simp, rfl⟩
    · refine ⟨by simp, ?_⟩
      cases len <;> rfl
  obtain ⟨-, -, hin⟩ := send_cut h.up hrx hread hsilent.1
  rw [hin, hsilent.2, h.inbox]
  rfl

/-! ## The push -/

/-- What an attempt to send a chunk leaves: the chunk and a DACK, or nothing and no DACK. -/
theorem Pushing.attempt {chan : Channel} {f₀ : Flash} {data : List UInt8} {off : ℕ} {k : Link}
    (hmax : data.length ≤ appMaxSize.toNat) (hch : Breakable chan data)
    (hoff : off ∈ pyRange data.length hostChunk) (h : Pushing f₀ data off k) (attempt : ℕ) :
    let k' := k.send chan (.data off attempt) (dataPacket off (chunkAt data hostChunk off))
    (Pushing f₀ data (off + 1024) { k' with inbox := [] } ∧
        k'.inbox = Reply.dack.bytes ++ le32 off.toUInt32) ∨
      Pushing f₀ data off { k' with inbox := [] } ∧
        (k'.inbox = [] ∨ k'.inbox = Reply.dnak.bytes ++ le32 off.toUInt32) := by
  intro k'
  obtain ⟨-, hlenNat, hacc, -⟩ := chunkFields hmax hoff
  have hkept : k'.dev = k.dev → k'.pending = [] → Pushing f₀ data off { k' with inbox := [] } := by
    intro hdev hp
    exact ⟨by rw [hdev]; exact h.up, hp, rfl, by rw [hdev]; exact h.appLen,
      by rw [hdev]; exact h.appCrc, by rw [hdev]; exact h.written, by rw [hdev]; exact h.blank,
      by rw [hdev]; exact h.records⟩
  have hcases : ComesThrough
      (chan (.data off attempt) (dataPacket off (chunkAt data hostChunk off)))
      off (chunkAt data hostChunk off) ∨ ∃ pre n,
        pre <+: dataPacket off (chunkAt data hostChunk off) ∧
        pre.length < (dataPacket off (chunkAt data hostChunk off)).length ∧
        chan (.data off attempt) (dataPacket off (chunkAt data hostChunk off)) =
          sent pre ++ .timeout :: List.replicate n .timeout := by
    rcases hch.chunk off hoff attempt with hcomes | hthrough
    · exact hcomes.cases.imp_left fun harr => ⟨_, harr, Or.inl rfl⟩
    · exact Or.inl hthrough
  rcases hcases with ⟨payload, harr, hpay⟩ | ⟨pre, n, hpre, hlt, hrx⟩
  · have hlen : payload.length = (chunkAt data hostChunk off).length.toUInt32.toNat := by
      rw [hlenNat]
      rcases hpay with rfl | ⟨heq, -⟩
      · rfl
      · exact heq
    have hread := fun rx =>
      readFrame_data_sent (zlibCrc32 (chunkAt data hostChunk off)) hacc hlen rx
    rcases hpay with rfl | ⟨-, hcrc⟩
    · obtain ⟨hdev, hp, hin⟩ := send_turn h.up h.pending harr
        fun rx => (hread rx).trans (if_pos (zlibCrc32_eq _).symm)
      rw [h.inbox, List.nil_append] at hin
      exact Or.inl ⟨h.programmed hmax hoff hdev hp rfl, hin⟩
    · obtain ⟨hdev, hp, hin⟩ := send_turn h.up h.pending harr
        fun rx => (hread rx).trans (if_neg hcrc)
      rw [h.inbox, List.nil_append] at hin
      exact Or.inr ⟨hkept hdev hp, Or.inr hin⟩
  · have hfr : ∃ fr, (fr = .idle ∨ fr = .dataCut ∨ fr = .dataNak off.toUInt32) ∧
        ∀ more, readFrame (sent pre ++ .timeout :: more) = some (fr, more) := by
      simp only [dataPacket, dataHeader, List.append_assoc] at hpre hlt
      rcases prefix_append_cases hpre with ⟨hmagic, hshort⟩ | ⟨pre, rfl, hrest⟩
      · exact ⟨.idle, Or.inl rfl, readFrame_cutMagic .data hmagic hshort⟩
      · rw [@List.length_append _ Magic.data.bytes, @List.length_append _ Magic.data.bytes,
          Nat.add_lt_add_iff_left] at hlt
        have hdata : ∀ more, readFrame (sent (Magic.data.bytes ++ pre) ++ .timeout :: more) =
            readData (sent pre ++ .timeout :: more) := by
          intro more
          rw [sent_append, List.append_assoc, readFrame, readCommand_sent]
        have hwhole : ∀ {fr}, readData (sent pre ++ [.timeout]) = some (fr, []) → ∀ more,
            readFrame (sent (Magic.data.bytes ++ pre) ++ .timeout :: more) = some (fr, more) := by
          intro fr hfr more
          rw [hdata, List.append_cons]
          exact readData_turns.whole hfr more
        rcases readData_cut hacc hlenNat.symm hrest hlt [] with hcut | hnak
        · exact ⟨.dataCut, Or.inr (Or.inl rfl), hwhole hcut⟩
        · exact ⟨_, Or.inr (Or.inr rfl), hwhole hnak⟩
    obtain ⟨fr, hfr, hread⟩ := hfr
    have hread' : ∀ more, readFrame (k.pending ++ (sent pre ++ .timeout :: more)) =
        some (fr, more) := by
      rw [h.pending]
      exact hread
    rcases hfr with rfl | rfl | rfl
    · obtain ⟨hdev, hp, hin⟩ := send_cut h.up hrx hread' (by simp)
      exact Or.inr ⟨hkept hdev hp, Or.inl (hin.trans (by rw [h.inbox]; rfl))⟩
    · obtain ⟨hdev, hp, hin⟩ := send_cut h.up hrx hread' (by simp)
      exact Or.inr ⟨hkept hdev hp, Or.inl (hin.trans (by rw [h.inbox]; rfl))⟩
    · obtain ⟨hdev, hp, hin⟩ := send_cut h.up hrx hread' (by simp)
      exact Or.inr ⟨hkept hdev hp, Or.inr (hin.trans (by rw [h.inbox]; rfl))⟩

/-- The retry loop ends with the chunk in the slot, or it raises. -/
theorem pushChunk_ok {chan : Channel} {f₀ : Flash} {data : List UInt8} {off : ℕ}
    (hmax : data.length ≤ appMaxSize.toNat) (hch : Breakable chan data)
    (hoff : off ∈ pyRange data.length hostChunk) {left attempt : ℕ} {k k' : Link}
    (h : Pushing f₀ data off k)
    (hpush : pushChunk chan off (chunkAt data hostChunk off) left attempt k = .ok k') :
    Pushing f₀ data (off + 1024) k' := by
  induction left generalizing attempt k with
  | zero => cases hpush
  | succ left ih =>
    have hoffNat := (chunkFields hmax hoff).offset
    have hattempt := h.attempt hmax hch hoff attempt
    dsimp only at hattempt
    simp only [pushChunk, bind, Except.bind] at hpush
    generalize k.send chan (.data off attempt) (dataPacket off (chunkAt data hostChunk off)) = k₁
      at hattempt hpush
    have hreply : ∀ r : Reply, r = .dack ∨ r = .dnak → k₁.inbox = r.bytes ++ le32 off.toUInt32 →
        k₁.readToken [Reply.dack.bytes, Reply.dnak.bytes]
          = .ok (r.bytes, { k₁ with inbox := le32 off.toUInt32 }) ∧
        Link.recvExact 4 { k₁ with inbox := le32 off.toUInt32 }
          = .ok (le32 off.toUInt32, { k₁ with inbox := [] }) := by
      intro r hr hin
      refine ⟨readToken_reply _ hin (by rcases hr with rfl | rfl <;> simp), ?_⟩
      exact recvExact_append (le32 off.toUInt32) (List.append_nil _).symm
    rcases hattempt with ⟨hdone, hin⟩ | ⟨hkept, hin | hin⟩
    · obtain ⟨htok, hrecv⟩ := hreply .dack (Or.inl rfl) hin
      simp only [htok, hrecv, unpack32_le32, hoffNat, and_self, if_true, pure, Except.pure,
        Except.ok.injEq] at hpush
      exact hpush ▸ hdone
    · rw [readToken_empty hin] at hpush
      cases hpush
    · obtain ⟨htok, hrecv⟩ := hreply .dnak (Or.inr rfl) hin
      have hdnak : Reply.dnak.bytes ≠ Reply.dack.bytes := by decide
      simp only [htok, hrecv, hdnak, false_and, if_false] at hpush
      exact ih hkept hpush

theorem pushChunks_ok {chan : Channel} {f₀ : Flash} {data : List UInt8} {retries : ℕ}
    {k k' : Link} (hmax : data.length ≤ appMaxSize.toNat) (hch : Breakable chan data)
    (h : Pushing f₀ data 0 k) (hpush : pushChunks chan data hostChunk retries k = .ok k') :
    Pushing f₀ data ((data.length + 1023) / 1024 * 1024) k' := by
  have hprefix : ∀ j ≤ (data.length + 1023) / 1024, ∀ k',
      ((List.range j).map (· * hostChunk)).foldlM
        (fun k off => pushChunk chan off (chunkAt data hostChunk off) retries 0 k) k = .ok k' →
      Pushing f₀ data (j * 1024) k' := by
    intro j
    induction j with
    | zero =>
      intro _ k' hk'
      obtain rfl : k = k' := Except.ok.inj hk'
      rw [Nat.zero_mul]
      exact h
    | succ j ih =>
      intro hj k' hk'
      have hoff : j * hostChunk ∈ pyRange data.length hostChunk := by
        rw [mem_pyRange (by decide)]
        exact ⟨by rw [hostChunk]; omega, Nat.mul_mod_left j hostChunk⟩
      rw [List.range_succ, List.map_append, List.foldlM_append] at hk'
      cases hfirst : ((List.range j).map (· * hostChunk)).foldlM
          (fun k off => pushChunk chan off (chunkAt data hostChunk off) retries 0 k) k with
      | error e =>
        rw [hfirst] at hk'
        cases hk'
      | ok k₁ =>
        rw [hfirst] at hk'
        cases hlast : pushChunk chan (j * hostChunk) (chunkAt data hostChunk (j * hostChunk))
            retries 0 k₁ with
        | error e =>
          simp [bind, Except.bind, hlast] at hk'
        | ok k₂ =>
          simp only [List.map_cons, List.map_nil, List.foldlM_cons, List.foldlM_nil, bind,
            Except.bind, hlast, pure, Except.pure, Except.ok.injEq] at hk'
          have hdone := pushChunk_ok hmax hch hoff (ih (by omega) k₁ hfirst) hlast
          rw [Nat.succ_mul]
          exact hk' ▸ hdone
  exact hprefix _ (Nat.le_refl _) k' hpush

/-- **A push that returns has landed its image**, also over a connection that can break. -/
theorem Link.Synced.push_ok {chan : Channel} {data : List UInt8} {retries : ℕ} {k₀ k k' : Link}
    (h : k₀.Synced k) (hlen : 1 ≤ data.length) (hmax : data.length ≤ appMaxSize.toNat)
    (hch : Breakable chan data) (hseq : (sectors k.dev.flash).maxSeq seqNat < 2 ^ 32 - 1)
    (hpush : pushImage chan (appMaxSize, otaChunkSize) data (zlibCrc32 data) retries k = .ok k') :
    Landed data k'.dev.flash := by
  obtain ⟨tok, k₁, k₂, k₃, hbegn, hdata, hend, hdev, -⟩ := pushImage_ok hpush
  -- BEGN
  have hdrain : k₀.Synced k.drain := ⟨h.up, h.dev, h.pending, rfl⟩
  have hbegun : Pushing k.dev.flash data 0 k₁ := by
    rcases (hch.control .begn (begnPacket data.length.toUInt32 (zlibCrc32 data)) (by simp)).cases
      with harr | ⟨pre, n, hpre, hlt, hrx⟩
    · obtain ⟨hdev₁, hp₁, hin₁⟩ := hdrain.send_begn harr
      obtain ⟨hok, hstarted⟩ : begnRefused data.length.toUInt32 = false ∧ Pushing k.dev.flash data 0
          ((k.drain).send chan .begn (begnPacket data.length.toUInt32 (zlibCrc32 data))).drain :=
        pushing_begn hlen hmax h.up hdev₁ hp₁ rfl
      rw [(execFrame_oker_iff _ _ _).mpr hok] at hin₁
      have hoker : Link.readToken [Reply.oker.bytes] _ = _ :=
        readToken_only (r := .oker) hin₁ List.mem_cons_self
      rw [hoker, Except.ok.injEq, Prod.mk.injEq] at hbegn
      exact hbegn.2 ▸ hstarted
    · rw [readToken_empty (hdrain.begn_cut hpre hlt hrx)] at hbegn
      cases hbegn
  -- DATA
  have hall := pushChunks_ok hmax hch hbegun hdata
  -- END!
  obtain ⟨himage, hlanded⟩ := hall.landed hmax (by omega) hseq
  have hended : k₃.dev.flash = bootStateWrite k₂.dev.flash (endRecord k₂.dev) ∧
      k₃.dev.up = true ∧ k₃.pending = [] := by
    rcases (hch.control .end' Magic.end'.bytes (by simp)).cases with harr | ⟨pre, n, hpre, hlt, hrx⟩
    · obtain ⟨hdev₃, hp₃, -⟩ := send_turn hall.up hall.pending harr readFrame_end
      have hexec : (execFrame k₂.dev .end').1 =
          { k₂.dev with flash := bootStateWrite k₂.dev.flash (endRecord k₂.dev) } := by
        simp [execFrame, himage]
      rw [hexec] at hdev₃
      obtain ⟨-, -, -, hk₃⟩ := readToken_ok hend
      rw [hk₃]
      refine ⟨congrArg Recv.flash hdev₃, ?_, hp₃⟩
      show (k₂.send chan .end' Magic.end'.bytes).dev.up = true
      rw [hdev₃]
      exact hall.up
    · have hsilent := (send_cutMagic hall.up hall.pending hpre hlt hrx).2
      rw [readToken_empty (hsilent.trans hall.inbox)] at hend
      cases hend
  -- GO!!
  have hgone : (k₃.send chan .go Magic.go.bytes).dev.flash = k₃.dev.flash := by
    rcases (hch.control .go Magic.go.bytes (by simp)).cases with harr | ⟨pre, n, hpre, hlt, hrx⟩
    · rw [(send_turn hended.2.1 hended.2.2 harr readFrame_go).1]
      rfl
    · rw [(send_cutMagic hended.2.1 hended.2.2 hpre hlt hrx).1]
  rw [hdev, hgone, hended.1]
  exact hlanded

/-! ## The attempts -/

/-- What a turn of the loop of `ensure_recovery` asks for, if it has a connection. -/
def Probe.CanBreak (data : List UInt8) : Probe → Prop
  | .refused => True
  | .opened _ chan _ => Breakable chan data

def Probe.Holds (data : List UInt8) : Probe → Prop
  | .refused => True
  | .opened _ chan _ => Faithful chan data chunkRetries

/-- Where an attempt's push begins, after the attempts before it. -/
def pushLink (inRecovery : Bool) (data : List UInt8) (before : List Attempt) (a : Attempt)
    (k : Link) :
    Link := (ensureRecovery inRecovery a.probes (flash inRecovery data before k).2).2

theorem Link.AtRest.ensureRecovery {k : Link} (h : k.AtRest) (inRecovery : Bool)
    (probes : List Probe) : (ensureRecovery inRecovery probes k).2.AtRest := by
  induction probes generalizing k with
  | nil => exact h
  | cons probe probes ih =>
    cases probe with
    | refused => exact ih h
    | opened heard chan trigger =>
      have hsync := Link.AtRest.trySync chan (k.hears heard)
      unfold EthPanel.ensureRecovery
      cases hfound : EthPanel.trySync chan (k.hears heard) with
      | mk found k₁ =>
        rw [hfound] at hsync
        cases found with
        | some info => exact hsync
        | none =>
          refine ih ?_
          cases inRecovery with
          | false => exact .hears k₁ _
          | true => exact hsync

section Attempts

variable {inRecovery : Bool} {data : List UInt8} {a : Attempt} {attempts : List Attempt} {k : Link}

/-- After an attempt that has not returned the receiver waits, or has left its loop. -/
theorem Attempt.run_atRest (hrest : k.AtRest) (h : (a.run inRecovery data k).1 = false) :
    (a.run inRecovery data k).2.AtRest := by
  have hprobed := hrest.ensureRecovery inRecovery a.probes
  unfold Attempt.run at h ⊢
  cases hfound : ensureRecovery inRecovery a.probes k with
  | mk found k₁ =>
    rw [hfound] at hprobed
    cases found with
    | none => exact hprobed
    | some p =>
      obtain ⟨info, chan⟩ := p
      rw [hfound] at h
      dsimp only at h ⊢
      cases hpush : pushImage chan info data (zlibCrc32 data) chunkRetries k₁ with
      | ok k' => simp [hpush] at h
      | error e => exact .hears k₁ _

theorem Attempt.run_ok (h : (a.run inRecovery data k).1 = true) : ∃ info chan,
    ensureRecovery inRecovery a.probes k =
      (some (info, chan), (ensureRecovery inRecovery a.probes k).2) ∧
    pushImage chan info data (zlibCrc32 data) chunkRetries
      (ensureRecovery inRecovery a.probes k).2 = .ok (a.run inRecovery data k).2 := by
  unfold Attempt.run at h ⊢
  cases hfound : ensureRecovery inRecovery a.probes k with
  | mk found k₁ =>
    rw [hfound] at h
    cases found with
    | none => cases h
    | some p =>
      obtain ⟨info, chan⟩ := p
      dsimp only at h ⊢
      cases hpush : pushImage chan info data (zlibCrc32 data) chunkRetries k₁ with
      | ok k' => exact ⟨info, chan, rfl, hpush⟩
      | error e => simp [hpush] at h

theorem flash_atRest (hrest : k.AtRest) (h : (flash inRecovery data attempts k).1 = false) :
    (flash inRecovery data attempts k).2.AtRest := by
  induction attempts generalizing k with
  | nil => exact hrest
  | cons a attempts ih =>
    unfold flash at h ⊢
    cases hone : (a.run inRecovery data k).1 with
    | true =>
      rw [hone, if_pos rfl, hone] at h
      cases h
    | false =>
      rw [hone, if_neg Bool.false_ne_true] at h
      rw [if_neg Bool.false_ne_true]
      exact ih (Attempt.run_atRest hrest hone) h

/-- Until one returns, an attempt follows another. -/
theorem flash_append (attempts later : List Attempt) (k : Link) :
    flash inRecovery data (attempts ++ later) k =
      if (flash inRecovery data attempts k).1 then flash inRecovery data attempts k
      else flash inRecovery data later (flash inRecovery data attempts k).2 := by
  induction attempts generalizing k with
  | nil => rfl
  | cons a attempts ih =>
    rw [List.cons_append, flash, flash, ih]
    cases hone : (a.run inRecovery data k).1 with
    | true => rw [if_pos rfl, if_pos rfl, hone, if_pos rfl]
    | false => rw [if_neg Bool.false_ne_true, if_neg Bool.false_ne_true]

/-- The attempt that returns. -/
theorem flash_ok {k' : Link} (hrest : k.AtRest)
    (h : flash inRecovery data attempts k = (true, k')) :
    ∃ before a after, attempts = before ++ a :: after ∧
      (flash inRecovery data before k).2.AtRest ∧
      a.run inRecovery data (flash inRecovery data before k).2 = (true, k') := by
  induction attempts generalizing k with
  | nil => cases h
  | cons a attempts ih =>
    unfold flash at h
    cases hone : (a.run inRecovery data k).1 with
    | true =>
      rw [hone, if_pos rfl] at h
      exact ⟨[], a, attempts, rfl, hrest, h⟩
    | false =>
      rw [hone, if_neg Bool.false_ne_true] at h
      obtain ⟨before, a', after, rfl, hbefore, hrun⟩ := ih (Attempt.run_atRest hrest hone) h
      have hcons : flash inRecovery data (a :: before) k =
          flash inRecovery data before (a.run inRecovery data k).2 := by
        rw [flash, hone, if_neg Bool.false_ne_true]
      exact ⟨a :: before, a', after, rfl, hcons ▸ hbefore, hcons ▸ hrun⟩

end Attempts

/-- **`flash` returns only with the image landed**, whatever the receiver was in the middle of and
wherever the connections break, as long as the sequence numbers of the records last. -/
theorem flash_lands (s : Recv) (heard : List Rx) {inRecovery : Bool} {data : List UInt8}
    {attempts : List Attempt} {k' : Link} (hlen : 1 ≤ data.length)
    (hmax : data.length ≤ appMaxSize.toNat)
    (hbreak : ∀ a ∈ attempts, ∀ probe ∈ a.probes, probe.CanBreak data)
    (hseq : ∀ before a after, attempts = before ++ a :: after →
      (sectors (pushLink inRecovery data before a
        (Link.hears heard ⟨s, [], [], []⟩)).dev.flash).maxSeq seqNat < 2 ^ 32 - 1)
    (h : flash inRecovery data attempts (Link.hears heard ⟨s, [], [], []⟩) = (true, k')) :
    Landed data k'.dev.flash := by
  obtain ⟨before, a, after, rfl, hrest, hrun⟩ := flash_ok (.hears _ heard) h
  obtain ⟨info, chan, hprobes, hpush⟩ := Attempt.run_ok (congrArg Prod.fst hrun)
  rw [hrun] at hpush
  obtain ⟨⟨heard', trigger, hmem⟩, k₀, hrest₀, hsync⟩ := ensureRecovery_some hrest hprobes
  have hchan : Breakable chan data := hbreak a (by simp) _ hmem
  obtain ⟨rfl, hsynced⟩ := trySync_some hrest₀ (hchan.control .sync syncBytes (by simp)) hsync
  exact hsynced.push_ok hlen hmax hchan (hseq before a after rfl) hpush

/-- **`flash` returns** by an attempt of which all connections hold and one is opened after a quiet
moment, whatever became of the attempts before it, unless the receiver has left its loop. -/
theorem flash_returns (s : Recv) (before : List Rx) (inRecovery : Bool) {data : List UInt8}
    (hlen : 1 ≤ data.length) (hmax : data.length ≤ appMaxSize.toNat) (earlier later : List Attempt)
    {early : List Probe} {heard : List Rx} {chan : Channel} {trigger : List UInt8 → List Rx}
    {a : Attempt} (ha : a.probes = early ++ [.opened (heard ++ [.timeout]) chan trigger])
    (hholds : ∀ probe ∈ a.probes, probe.Holds data)
    (hseq : (sectors (pushLink inRecovery data earlier a
      (Link.hears before ⟨s, [], [], []⟩)).dev.flash).maxSeq seqNat < 2 ^ 32 - 1) :
    (flash inRecovery data (earlier ++ a :: later) (Link.hears before ⟨s, [], [], []⟩)).1 = true ∨
      (pushLink inRecovery data earlier a (Link.hears before ⟨s, [], [], []⟩)).dev.up = false := by
  generalize hk : Link.hears before ⟨s, [], [], []⟩ = k at hseq ⊢
  have hrest : k.AtRest := hk ▸ .hears _ before
  rw [flash_append]
  cases hdone : (flash inRecovery data earlier k).1 with
  | true =>
    rw [if_pos rfl]
    exact Or.inl hdone
  | false =>
    have hstart := flash_atRest hrest hdone
    rw [if_neg Bool.false_ne_true]
    unfold pushLink at hseq ⊢
    generalize (flash inRecovery data earlier k).2 = k₁ at hstart hseq ⊢
    have hlast : Faithful chan data chunkRetries :=
      hholds (.opened (heard ++ [.timeout]) chan trigger) (by rw [ha]; simp)
    have hreturns := ensureRecovery_returns inRecovery early heard trigger
      (hlast.control .sync syncBytes (by simp)) k₁
    rw [← ha] at hreturns
    refine hreturns.imp_left fun hfound => ?_
    have hrun : (a.run inRecovery data k₁).1 = true := by
      unfold Attempt.run
      cases hprobes : ensureRecovery inRecovery a.probes k₁ with
      | mk found k₂ =>
        cases found with
        | none =>
          rw [hprobes] at hfound
          exact absurd rfl hfound
        | some p =>
          obtain ⟨info, chan'⟩ := p
          obtain ⟨⟨heard', trigger', hmem⟩, k₀, hrest₀, hsync⟩ := ensureRecovery_some hstart hprobes
          have hchan : Faithful chan' data chunkRetries := hholds _ hmem
          obtain ⟨rfl, hsynced⟩ := trySync_some hrest₀
            (hchan.control .sync syncBytes (by simp)).comes hsync
          rw [hprobes] at hseq
          obtain ⟨k', hpush, -⟩ := hsynced.push hlen hmax hchan hseq
          simp only [hpush]
    rw [flash, if_pos hrun]
    exact hrun

/-! ## A connection that breaks -/

/-- The connection breaks with the first chunk on the way. -/
def brokenChannel : Channel
  | .data _ _, bs => sent (bs.take 16) ++ [.timeout]
  | .end', _ | .go, _ => [.timeout]
  | .sync, bs | .begn, bs => sent bs

def brokenAttempt : Attempt := ⟨[.refused, .opened [.timeout] brokenChannel sent], []⟩

def lastAttempt : Attempt := ⟨[.opened [.timeout] alteringChannel sent], []⟩

/-- A receiver that was left on a cut frame. -/
def cutLink : Link := Link.hears cutFrame ⟨Recv.start fun _ => 0xFF, [], [], []⟩

theorem brokenChannel_breakable : Breakable brokenChannel [0x2A] := by
  refine ⟨?_, ?_⟩
  · intro site bs hsite
    cases site with
    | sync => exact ⟨bs, 0, List.prefix_rfl, Or.inl rfl, (List.append_nil _).symm⟩
    | begn => exact ⟨bs, 0, List.prefix_rfl, Or.inl rfl, (List.append_nil _).symm⟩
    | data off attempt => exact absurd rfl (hsite off attempt)
    | end' => exact ⟨[], 1, List.nil_prefix, Or.inr Nat.one_pos, rfl⟩
    | go => exact ⟨[], 1, List.nil_prefix, Or.inr Nat.one_pos, rfl⟩
  · intro off hoff attempt
    exact Or.inl ⟨_, 1, List.take_prefix 16 _, Or.inr Nat.one_pos, rfl⟩

theorem alteringChannel_holds : Faithful alteringChannel [0x2A] chunkRetries := by
  obtain ⟨hcontrol, hchunk, hintact⟩ := alteringChannel_faithful
  refine ⟨hcontrol, hchunk, fun off hoff => ?_⟩
  obtain ⟨attempt, hlt, harr⟩ := hintact off hoff
  have : chunkRetries = 25 := rfl
  exact ⟨attempt, by omega, harr⟩

theorem lastAttempt_seq :
    (sectors (pushLink true [0x2A] [brokenAttempt] lastAttempt cutLink).dev.flash).maxSeq seqNat <
      2 ^ 32 - 1 := by
  decide +kernel

theorem brokenAttempts_seq {before after : List Attempt} {a : Attempt}
    (h : [brokenAttempt, lastAttempt] = before ++ a :: after) :
    (sectors (pushLink true [0x2A] before a cutLink).dev.flash).maxSeq seqNat < 2 ^ 32 - 1 := by
  have hfirst : (sectors (pushLink true [0x2A] [] brokenAttempt cutLink).dev.flash).maxSeq seqNat <
      2 ^ 32 - 1 := by
    decide +kernel
  rcases before with _ | ⟨a₁, _ | ⟨a₂, before⟩⟩
  · obtain ⟨rfl, -⟩ := List.cons.inj h
    exact hfirst
  · obtain ⟨rfl, hrest⟩ := List.cons.inj h
    obtain ⟨rfl, -⟩ := List.cons.inj hrest
    exact lastAttempt_seq
  · simp at h

/-- The second attempt lands the image. -/
theorem flash_lands_broken : ∃ k',
    flash true [0x2A] [brokenAttempt, lastAttempt] cutLink = (true, k') ∧
    Landed [0x2A] k'.dev.flash := by
  have hreturned : (flash true [0x2A] [brokenAttempt, lastAttempt] cutLink).1 = true := by
    decide +kernel
  refine ⟨_, Prod.ext hreturned rfl, @flash_lands (Recv.start fun _ => 0xFF) cutFrame
    true [0x2A] [brokenAttempt, lastAttempt] _ (by decide) (by decide) ?_
    (fun _ _ _ => brokenAttempts_seq) (Prod.ext hreturned rfl)⟩
  intro a ha probe hprobe
  simp only [List.mem_cons, List.not_mem_nil, or_false] at ha
  rcases ha with rfl | rfl
  · simp only [brokenAttempt, List.mem_cons, List.not_mem_nil, or_false] at hprobe
    rcases hprobe with rfl | rfl
    · trivial
    · exact brokenChannel_breakable
  · obtain rfl := List.mem_singleton.mp hprobe
    exact alteringChannel_holds.breakable

theorem flash_returns_broken :
    (flash true [0x2A] [brokenAttempt, lastAttempt] cutLink).1 = true := by
  have hreturns := @flash_returns (Recv.start fun _ => 0xFF) cutFrame true [0x2A] (by decide)
    (by decide) [brokenAttempt] [] [] [] alteringChannel sent lastAttempt rfl
    (fun probe hprobe => by
      obtain rfl := List.mem_singleton.mp hprobe
      exact alteringChannel_holds) lastAttempt_seq
  refine hreturns.resolve_right ?_
  show ¬ (pushLink true [0x2A] [brokenAttempt] lastAttempt cutLink).dev.up = false
  decide +kernel

end EthPanel
