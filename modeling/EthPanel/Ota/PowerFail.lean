import EthPanel.Lib.Run
import EthPanel.Ota.BootState

/-!
# The boot-state survives power cuts

Any sequence of `boot_state_write` calls, each run to its end or cut at any point, seen as a run
of flash contents. The store's value is decided by the ping-pong law of `Lib/PingPong.lean`;
the only thing that law asks is that a new record be newer than everything stored, and that is
where the 32-bit sequence number comes in: it holds until the counter is about to wrap, so for
fewer than `2^32 - 1` writes from an empty store.
-/

namespace EthPanel

open PingPong

/-- One call of `boot_state_write`, and whether the power went during it. -/
structure BootWrite where
  st : BootState
  cut : Bool

inductive BootWriteStep : Flash → BootWrite → Flash → Prop
  | completed (f : Flash) (st : BootState) :
      BootWriteStep f ⟨st, false⟩ (bootStateWrite f st)
  | cut {f f' : Flash} {st : BootState} (h : CutWrite f st f') : BootWriteStep f ⟨st, true⟩ f'

/-- What the store promises of one write from `f` to `f'`. -/
structure WriteLaw (f : Flash) (w : BootWrite) (f' : Flash) : Prop where
  completed : w.cut = false → bootStateRead f' = some (newRecord f w.st)
  cut : w.cut = true →
    bootStateRead f' = some (newRecord f w.st) ∨ bootStateRead f' = bootStateRead f
  /-- No operation of the write reaches the sector that holds the current record. -/
  keeps : ∀ off, bootStateSource f = some off → ∀ op ∈ bootStateWriteOps f w.st,
    ∀ i, off.toNat ≤ i → i < off.toNat + flashSector.toNat → ¬ op.Covers i

/-! ## One write -/

theorem bootStateSource_eq {f : Flash} {off : UInt32} (h : bootStateSource f = some off) :
    off = slotOffset ((sectors f).target seqNat).other := by
  unfold bootStateSource at h
  unfold sectors sector Pair.target
  cases hav : recValid f bootstateAOffset <;> cases hbv : recValid f bootstateBOffset <;>
    simp only [hav, hbv] at h ⊢
  · simp at h
  · exact (Option.some.inj h).symm
  · exact (Option.some.inj h).symm
  · simp only [UInt32.le_iff_toNat_le, ge_iff_le, Bool.and_self, if_true,
      Option.some.injEq] at h ⊢
    rw [← h]
    split <;> rfl

theorem bootStateWriteOps_covers {f : Flash} {st : BootState} {op : FlashOp}
    (hop : op ∈ bootStateWriteOps f st) {i : ℕ} (hi : op.Covers i) :
    (bootStateTarget f).2.toNat ≤ i ∧ i < (bootStateTarget f).2.toNat + 4096 := by
  simp only [bootStateWriteOps, List.mem_cons, List.not_mem_nil, or_false] at hop
  rcases hop with rfl | rfl <;>
    simp only [FlashOp.Covers, FlashOp.lo, FlashOp.size, flashSector_toNat, recordPage,
      List.length_append, BootState.length_bytes, List.length_replicate] at hi <;> omega

theorem BootWriteStep.sectors_eq {f f' : Flash} {w : BootWrite} (h : BootWriteStep f w f') :
    ∃ o, sectors f' = (sectors f).write seqNat (newRecord f w.st) o ∧
      (w.cut = false → o = .stored) := by
  cases h with
  | completed st => exact ⟨.stored, sectors_bootStateWrite f st, fun _ => rfl⟩
  | cut hc =>
    obtain ⟨o, ho, _⟩ := hc.sectors_eq
    exact ⟨o, ho, fun h => absurd h (by simp)⟩

theorem maxSeq_lt_newRecord {f : Flash} (st : BootState)
    (h : (sectors f).maxSeq seqNat < 2 ^ 32 - 1) :
    (sectors f).maxSeq seqNat < seqNat (newRecord f st) := by
  rw [newRecord_seq st h]
  exact Nat.lt_succ_self _

/-- **The law of one write**, as long as the sequence number does not wrap. -/
theorem BootWriteStep.law {f f' : Flash} {w : BootWrite} (h : BootWriteStep f w f')
    (hseq : (sectors f).maxSeq seqNat < 2 ^ 32 - 1) : WriteLaw f w f' := by
  obtain ⟨o, ho, hcomp⟩ := h.sectors_eq
  have hread : bootStateRead f' = if o = .stored then some (newRecord f w.st)
      else bootStateRead f := by
    rw [bootStateRead_eq, ho, Pair.newest_write _ (maxSeq_lt_newRecord w.st hseq), bootStateRead_eq]
  refine ⟨?_, ?_, ?_⟩
  · intro hc
    rw [hread, if_pos (hcomp hc)]
  · intro _
    by_cases hs : o = .stored
    · exact Or.inl (by rw [hread, if_pos hs])
    · exact Or.inr (by rw [hread, if_neg hs])
  · intro off hoff op hop i h₁ h₂ hcov
    obtain ⟨h₃, h₄⟩ := bootStateWriteOps_covers hop hcov
    rw [bootStateTarget_snd] at h₃ h₄
    rw [bootStateSource_eq hoff] at h₁ h₂
    exact slotOffset_other_disjoint _ h₃ h₄ h₁ h₂ rfl

/-- A write raises the highest sequence number by one or not at all; a completed one raises it
to that of its record. -/
theorem BootWriteStep.maxSeq {f f' : Flash} {w : BootWrite} (h : BootWriteStep f w f')
    (hseq : (sectors f).maxSeq seqNat < 2 ^ 32 - 1) :
    (sectors f).maxSeq seqNat ≤ (sectors f').maxSeq seqNat ∧
      (sectors f').maxSeq seqNat ≤ (sectors f).maxSeq seqNat + 1 ∧
      (w.cut = false → (sectors f').maxSeq seqNat = seqNat (newRecord f w.st)) := by
  obtain ⟨o, ho, hcomp⟩ := h.sectors_eq
  have hnew := newRecord_seq w.st hseq
  have hmax : (sectors f').maxSeq seqNat = if o = .stored then seqNat (newRecord f w.st)
      else (sectors f).maxSeq seqNat := by
    rw [ho, Pair.maxSeq_write _ (maxSeq_lt_newRecord w.st hseq)]
  refine ⟨?_, ?_, fun hc => by rw [hmax, if_pos (hcomp hc)]⟩
  · rw [hmax]; split <;> omega
  · rw [hmax]; split <;> omega

/-! ## Completed writes alternate -/

/-- A store whose next write goes to slot `s` under the sequence number `n + 1`. -/
structure NextWrite (f : Flash) (s : Slot) (n : ℕ) : Prop where
  target : (sectors f).target seqNat = s
  maxSeq : (sectors f).maxSeq seqNat = n

theorem NextWrite.write {f : Flash} {s : Slot} {n : ℕ} (h : NextWrite f s n)
    (hn : n < 2 ^ 32 - 1) (st : BootState) :
    (newRecord f st).seq.toNat = n + 1 ∧
      bootStateRead (bootStateWrite f st) = some (newRecord f st) ∧
      NextWrite (bootStateWrite f st) s.other (n + 1) := by
  have hmax : (sectors f).maxSeq seqNat < 2 ^ 32 - 1 := h.maxSeq ▸ hn
  have hlt := maxSeq_lt_newRecord st hmax
  have hseq : seqNat (newRecord f st) = n + 1 := by rw [newRecord_seq st hmax, h.maxSeq]
  refine ⟨hseq, ?_, ?_, ?_⟩
  · rw [bootStateRead_eq, sectors_bootStateWrite]
    exact Pair.newest_write _ hlt .stored
  · rw [sectors_bootStateWrite, Pair.target_write _ hlt, h.target]
  · rw [sectors_bootStateWrite, Pair.maxSeq_write _ hlt]
    exact hseq

/-! ## A run of writes -/

/-- Over a run the highest sequence number grows, and by at most one a write. -/
theorem maxSeq_run {f f' : Flash} {ws : List BootWrite} (r : Lts.Run BootWriteStep f ws f') :
    (sectors f).maxSeq seqNat + ws.length ≤ 2 ^ 32 - 1 →
    (sectors f).maxSeq seqNat ≤ (sectors f').maxSeq seqNat ∧
      (sectors f').maxSeq seqNat ≤ (sectors f).maxSeq seqNat + ws.length := by
  induction r with
  | nil f => intro _; simp
  | cons h _ ih =>
    intro hlen
    rw [List.length_cons] at hlen ⊢
    obtain ⟨h₁, h₂, _⟩ := h.maxSeq (by omega)
    obtain ⟨h₃, h₄⟩ := ih (by omega)
    omega

theorem maxSeq_eq_zero {f : Flash} (ha : recValid f bootstateAOffset = false)
    (hb : recValid f bootstateBOffset = false) : (sectors f).maxSeq seqNat = 0 := by
  simp [sectors, sector, ha, hb, Pair.maxSeq, Pair.newest]

/-- **The boot-state is power-fail-safe.** From two sectors with no valid record, over any
sequence of fewer than `2^32 - 1` writes, completed or cut: every write obeys `WriteLaw`, and
the sequence numbers of completed writes strictly increase. -/
theorem bootState_powerFailSafe {f₀ : Flash} {ws : List BootWrite}
    (ha : recValid f₀ bootstateAOffset = false) (hb : recValid f₀ bootstateBOffset = false)
    (hlen : ws.length < 2 ^ 32 - 1) :
    (∀ pre w post f₁ f₂, ws = pre ++ w :: post → Lts.Run BootWriteStep f₀ pre f₁ →
      BootWriteStep f₁ w f₂ → WriteLaw f₁ w f₂) ∧
    (∀ pre w mid w' post f₁ f₂ f₃, ws = pre ++ w :: (mid ++ w' :: post) →
      Lts.Run BootWriteStep f₀ pre f₁ → BootWriteStep f₁ w f₂ → w.cut = false →
      Lts.Run BootWriteStep f₂ mid f₃ → w'.cut = false →
      (newRecord f₁ w.st).seq < (newRecord f₃ w'.st).seq) := by
  have hzero := maxSeq_eq_zero ha hb
  constructor
  · intro pre w post f₁ f₂ hws hpre hstep
    have hl : ws.length = pre.length + (post.length + 1) := by rw [hws]; simp
    obtain ⟨_, hmax⟩ := maxSeq_run hpre (by omega)
    exact hstep.law (by omega)
  · intro pre w mid w' post f₁ f₂ f₃ hws hpre hstep hw hmid _
    have hl : ws.length = pre.length + (mid.length + (post.length + 1) + 1) := by rw [hws]; simp
    obtain ⟨_, hmax⟩ := maxSeq_run hpre (by omega)
    obtain ⟨_, hone, hdone⟩ := hstep.maxSeq (by omega)
    obtain ⟨hgrow, hmax'⟩ := maxSeq_run hmid (by omega)
    rw [UInt32.lt_iff_toNat_lt]
    calc seqNat (newRecord f₁ w.st) = (sectors f₂).maxSeq seqNat := (hdone hw).symm
      _ ≤ (sectors f₃).maxSeq seqNat := hgrow
      _ < seqNat (newRecord f₃ w'.st) := maxSeq_lt_newRecord w'.st (by omega)

theorem bootState_powerFailSafe_erased :
    ∃ f₁ f₂ f₃ : Flash, WriteLaw (fun _ => 0xFF) ⟨.zero, false⟩ f₁ ∧
      WriteLaw f₁ ⟨{ BootState.zero with appLen := 7 }, true⟩ f₂ ∧
      WriteLaw f₂ ⟨{ BootState.zero with appLen := 9 }, false⟩ f₃ := by
  have ha : recValid (fun _ => 0xFF) bootstateAOffset = false := by decide
  have hb : recValid (fun _ => 0xFF) bootstateBOffset = false := by decide
  have h₁ := BootWriteStep.completed (fun _ => 0xFF) .zero
  have h₂ : BootWriteStep (bootStateWrite (fun _ => 0xFF) .zero)
      ⟨{ BootState.zero with appLen := 7 }, true⟩ (bootStateWrite (fun _ => 0xFF) .zero) :=
    .cut ⟨fun _ _ => rfl, Or.inl rfl⟩
  have h₃ := BootWriteStep.completed (bootStateWrite (fun _ => 0xFF) .zero)
    { BootState.zero with appLen := 9 }
  have hall := @bootState_powerFailSafe (fun _ => 0xFF) [⟨.zero, false⟩,
    ⟨{ BootState.zero with appLen := 7 }, true⟩, ⟨{ BootState.zero with appLen := 9 }, false⟩]
    ha hb (by decide)
  exact ⟨_, _, _, hall.1 [] _ _ _ _ rfl (.nil _) h₁, hall.1 [_] _ _ _ _ rfl (.single h₁) h₂,
    hall.1 [_, _] _ [] _ _ rfl (.cons h₁ (.single h₂)) h₃⟩

end EthPanel
