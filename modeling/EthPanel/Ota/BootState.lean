import EthPanel.Lib.PingPong
import EthPanel.Ota.Crc32
import EthPanel.Ota.Flash

/-!
# `ota/boot_state.c`

The ping-pong boot-state: two sectors, a record valid when its magic and its CRC are, the
newest valid one the state.

The functions are transcribed over flash contents. Above them sits the reading that every
later argument uses: `sectors f` is the pair of what the two sectors hold, a record or nothing,
and over it `boot_state_read` is `Pair.newest` (`bootStateRead_eq`) and `boot_state_write`, cut
or not, is `Pair.write` (`sectors_bootStateWrite`, `CutWrite.sectors_eq`). After that no proof
looks at a byte of a record again.
-/

namespace EthPanel

open PingPong

/-- `*at(off)`: the record whose bytes start at `off`. -/
def recAt (f : Flash) (off : UInt32) : BootState where
  magic := wordAt f off.toNat
  seq := wordAt f (off.toNat + 4)
  appLen := wordAt f (off.toNat + 8)
  appCrc32 := wordAt f (off.toNat + 12)
  appValid := f (off.toNat + 16)
  appConfirmed := f (off.toNat + 17)
  bootAttempts := f (off.toNat + 18)
  pad := f (off.toNat + 19)
  crc32 := wordAt f (off.toNat + 20)

def recValid (f : Flash) (off : UInt32) : Bool :=
  if (recAt f off).magic != bootStateMagic then false
  else otaCrc32 (Mem.read f off.toNat 20) == (recAt f off).crc32

def bootStateRead (f : Flash) : Option BootState :=
  let a := recAt f bootstateAOffset
  let b := recAt f bootstateBOffset
  let av := recValid f bootstateAOffset
  let bv := recValid f bootstateBOffset
  if av && bv then some (if a.seq ≥ b.seq then a else b)
  else if av then some a
  else if bv then some b
  else none

/-- The sector `boot_state_read` copies its answer from. -/
def bootStateSource (f : Flash) : Option UInt32 :=
  let av := recValid f bootstateAOffset
  let bv := recValid f bootstateBOffset
  if av && bv then
    some (if (recAt f bootstateAOffset).seq ≥ (recAt f bootstateBOffset).seq
      then bootstateAOffset else bootstateBOffset)
  else if av then some bootstateAOffset
  else if bv then some bootstateBOffset
  else none

/-- `maxseq` and `target`, as `boot_state_write` settles them: the older or invalid sector. -/
def bootStateTarget (f : Flash) : UInt32 × UInt32 :=
  let a := recAt f bootstateAOffset
  let b := recAt f bootstateBOffset
  let av := recValid f bootstateAOffset
  let bv := recValid f bootstateBOffset
  if av && bv then
    let aNewer : Bool := a.seq ≥ b.seq
    (if aNewer then a.seq else b.seq, if aNewer then bootstateBOffset else bootstateAOffset)
  else if av then (a.seq, bootstateBOffset)
  else if bv then (b.seq, bootstateAOffset)
  else (0, bootstateAOffset)

/-- `*in` after the three assignments of `boot_state_write`. -/
def newRecord (f : Flash) (st : BootState) : BootState :=
  let st := { st with magic := bootStateMagic, seq := (bootStateTarget f).1 + 1 }
  { st with crc32 := otaCrc32 st.body }

/-- The page buffer: the record, then `0xFF` to the end. -/
def recordPage (r : BootState) : List UInt8 := r.bytes ++ List.replicate 232 0xFF

/-- The two flash operations of `boot_state_write(&st)`. -/
def bootStateWriteOps (f : Flash) (st : BootState) : List FlashOp :=
  [.erase (bootStateTarget f).2 flashSector,
   .program (bootStateTarget f).2 (recordPage (newRecord f st))]

def bootStateWrite (f : Flash) (st : BootState) : Flash := applyOps (bootStateWriteOps f st) f

/-! ## What a sector holds -/

/-- The valid record of a sector, if it has one. -/
def sector (f : Flash) (off : UInt32) : Option BootState :=
  if recValid f off then some (recAt f off) else none

/-- The flash offset of a slot of the pair. -/
def slotOffset : Slot → UInt32
  | .a => bootstateAOffset
  | .b => bootstateBOffset

def sectors (f : Flash) : Pair BootState := ⟨sector f bootstateAOffset, sector f bootstateBOffset⟩

abbrev seqNat (r : BootState) : ℕ := r.seq.toNat

theorem bootStateRead_eq (f : Flash) : bootStateRead f = (sectors f).newest seqNat := by
  unfold bootStateRead sectors sector Pair.newest
  cases recValid f bootstateAOffset <;> cases recValid f bootstateBOffset <;>
    simp [UInt32.le_iff_toNat_le]
  split <;> rfl

theorem bootStateTarget_snd (f : Flash) :
    (bootStateTarget f).2 = slotOffset ((sectors f).target seqNat) := by
  unfold bootStateTarget sectors sector Pair.target
  cases recValid f bootstateAOffset <;> cases recValid f bootstateBOffset <;>
    simp [slotOffset, UInt32.le_iff_toNat_le]
  split <;> rfl

theorem bootStateTarget_fst (f : Flash) :
    (bootStateTarget f).1.toNat = (sectors f).maxSeq seqNat := by
  unfold bootStateTarget Pair.maxSeq Pair.newest sectors sector
  cases recValid f bootstateAOffset <;> cases recValid f bootstateBOffset <;>
    simp [UInt32.le_iff_toNat_le]
  split <;> rfl

theorem get_sectors (f : Flash) (s : Slot) : (sectors f).get s = sector f (slotOffset s) := by
  cases s <;> rfl

theorem slotOffset_other_disjoint (s : Slot) {i j : ℕ} (hi : (slotOffset s).toNat ≤ i)
    (hi' : i < (slotOffset s).toNat + 4096) (hj : (slotOffset s.other).toNat ≤ j)
    (hj' : j < (slotOffset s.other).toNat + 4096) : i ≠ j := by
  cases s <;> simp only [slotOffset, Slot.other, bootstateAOffset_toNat, bootstateBOffset_toNat]
    at hi hi' hj hj' <;> omega

theorem slotOffset_ge (s : Slot) : bootstateAOffset.toNat ≤ (slotOffset s).toNat := by
  cases s <;> simp [slotOffset]

theorem recAt_congr {f f' : Flash} {off : UInt32}
    (h : ∀ i, off.toNat ≤ i → i < off.toNat + 24 → f i = f' i) : recAt f off = recAt f' off := by
  have hw : ∀ k, k ≤ 20 → wordAt f (off.toNat + k) = wordAt f' (off.toNat + k) :=
    fun k hk => wordAt_congr fun i h₁ h₂ => h i (by omega) (by omega)
  unfold recAt
  rw [show wordAt f off.toNat = wordAt f' off.toNat from hw 0 (by omega), hw 4 (by omega),
    hw 8 (by omega), hw 12 (by omega), hw 20 (by omega), h _ (by omega) (by omega),
    h _ (by omega) (by omega), h _ (by omega) (by omega), h _ (by omega) (by omega)]

theorem sector_congr {f f' : Flash} {off : UInt32}
    (h : ∀ i, off.toNat ≤ i → i < off.toNat + 24 → f i = f' i) : sector f off = sector f' off := by
  have hread : Mem.read f off.toNat 20 = Mem.read f' off.toNat 20 :=
    Mem.read_congr fun i h₁ h₂ => h i h₁ (by omega)
  unfold sector recValid
  rw [recAt_congr h, hread]

theorem sectors_congr {f f' : Flash}
    (h : ∀ i, bootstateAOffset.toNat ≤ i → f i = f' i) : sectors f = sectors f' := by
  unfold sectors
  rw [sector_congr fun i hi _ => h i hi,
    sector_congr fun i hi _ => h i (Nat.le_trans (by decide) hi)]

/-! ## A record written is the record read -/

theorem recAt_of_bytes {f : Flash} {off : UInt32} {r : BootState}
    (h : ∀ k (hk : k < r.bytes.length), f (off.toNat + k) = r.bytes[k]) : recAt f off = r := by
  have hb : ∀ k (hk : k < 24), f (off.toNat + k) = r.bytes[k] := fun k hk => h k hk
  obtain ⟨magic, seq, appLen, appCrc32, appValid, appConfirmed, bootAttempts, pad, crc32⟩ := r
  have h₀ := hb 0 (by omega)
  rw [Nat.add_zero] at h₀
  simp only [recAt, wordAt, Nat.add_assoc, h₀, hb 1 (by omega), hb 2 (by omega), hb 3 (by omega),
    hb 4 (by omega), hb 5 (by omega), hb 6 (by omega), hb 7 (by omega), hb 8 (by omega),
    hb 9 (by omega), hb 10 (by omega), hb 11 (by omega), hb 12 (by omega), hb 13 (by omega),
    hb 14 (by omega), hb 15 (by omega), hb 16 (by omega), hb 17 (by omega), hb 18 (by omega),
    hb 19 (by omega), hb 20 (by omega), hb 21 (by omega), hb 22 (by omega), hb 23 (by omega),
    Nat.reduceAdd, BootState.bytes, BootState.body, le32, List.cons_append, List.nil_append,
    List.getElem_cons_zero, List.getElem_cons_succ, ofLe32_le32]

theorem newRecord_magic (f : Flash) (st : BootState) : (newRecord f st).magic = bootStateMagic :=
  rfl

theorem newRecord_crc32 (f : Flash) (st : BootState) :
    (newRecord f st).crc32 = otaCrc32 (newRecord f st).body := rfl

/-- Flash after a completed write: the page in the target sector, `0xFF` in the rest of it,
everything else as before. -/
theorem bootStateWrite_of_notMem {f : Flash} {st : BootState} {i : ℕ}
    (h : i < (bootStateTarget f).2.toNat ∨ (bootStateTarget f).2.toNat + 4096 ≤ i) :
    bootStateWrite f st i = f i := by
  refine applyOps_of_not_covers fun op hop => ?_
  simp only [bootStateWriteOps, List.mem_cons, List.not_mem_nil, or_false] at hop
  rcases hop with rfl | rfl
  · simp only [FlashOp.Covers, FlashOp.lo, FlashOp.size, flashSector_toNat]
    omega
  · simp only [FlashOp.Covers, FlashOp.lo, FlashOp.size, recordPage, List.length_append,
      BootState.length_bytes, List.length_replicate]
    omega

theorem bootStateWrite_target (f : Flash) (st : BootState) (k : ℕ)
    (hk : k < (newRecord f st).bytes.length) :
    bootStateWrite f st ((bootStateTarget f).2.toNat + k) = (newRecord f st).bytes[k] := by
  have hlt : k < (recordPage (newRecord f st)).length := by
    simp only [recordPage, List.length_append]; omega
  have hk24 : k < 24 := hk
  show Mem.merge (· &&& ·) (bootStateTarget f).2.toNat (recordPage (newRecord f st))
    (Mem.fill 0xFF (bootStateTarget f).2.toNat 4096 f) _ = _
  rw [Mem.merge_blank (fun b => show (0xFF : UInt8) &&& b = b from UInt8.neg_one_and)
    (fun i h₁ h₂ => ?_) (by omega) (by rwa [Nat.add_sub_cancel_left])]
  · simp only [Nat.add_sub_cancel_left, recordPage]
    exact List.getElem_append_left hk
  · refine Mem.fill_of_mem h₁ ?_
    simp only [recordPage, List.length_append, BootState.length_bytes,
      List.length_replicate] at h₂
    omega

theorem sector_bootStateWrite (f : Flash) (st : BootState) :
    sector (bootStateWrite f st) (bootStateTarget f).2 = some (newRecord f st) := by
  have hrec : recAt (bootStateWrite f st) (bootStateTarget f).2 = newRecord f st :=
    recAt_of_bytes fun k hk => bootStateWrite_target f st k hk
  have hbody : Mem.read (bootStateWrite f st) (bootStateTarget f).2.toNat 20
      = (newRecord f st).body := by
    rw [show 20 = (newRecord f st).body.length from rfl, Mem.read_eq_iff]
    intro k hk
    rw [bootStateWrite_target f st k (Nat.lt_of_lt_of_le hk (by simp))]
    exact List.getElem_append_left hk
  have hvalid : recValid (bootStateWrite f st) (bootStateTarget f).2 = true := by
    unfold recValid
    rw [hrec, hbody, newRecord_magic, newRecord_crc32]
    simp
  unfold sector
  rw [if_pos hvalid, hrec]

/-- **A completed write puts the new record in the target slot of the pair.** -/
theorem sectors_bootStateWrite (f : Flash) (st : BootState) :
    sectors (bootStateWrite f st)
      = (sectors f).write seqNat (newRecord f st) .stored := by
  have hin := sector_bootStateWrite f st
  have hout : sector (bootStateWrite f st) (slotOffset ((sectors f).target seqNat).other)
      = sector f (slotOffset ((sectors f).target seqNat).other) := by
    refine sector_congr fun i h₁ h₂ => bootStateWrite_of_notMem ?_
    rw [bootStateTarget_snd]
    by_contra hmem
    exact slotOffset_other_disjoint ((sectors f).target seqNat) (i := i) (j := i)
      (by omega) (by omega) h₁ (by omega) rfl
  rw [bootStateTarget_snd] at hin
  unfold Pair.write
  cases ht : (sectors f).target seqNat <;> rw [ht] at hin hout
  · exact congrArg₂ Pair.mk hin hout
  · exact congrArg₂ Pair.mk hout hin

/-! ## Cut writes -/

/-- What flash holds when the power goes during `boot_state_write(&st)`: only the target sector
is concerned, and it keeps its old contents, fails the magic or CRC check, or holds the
complete new record. -/
structure CutWrite (f : Flash) (st : BootState) (f' : Flash) : Prop where
  frame : ∀ i, i < (bootStateTarget f).2.toNat ∨ (bootStateTarget f).2.toNat + 4096 ≤ i →
    f' i = f i
  torn : f' = f ∨ recValid f' (bootStateTarget f).2 = false ∨
    sector f' (bootStateTarget f).2 = some (newRecord f st)

/-- What a cut write left, as an outcome of the ping-pong write. -/
theorem CutWrite.sectors_eq {f f' : Flash} {st : BootState} (h : CutWrite f st f') :
    ∃ o, sectors f' = (sectors f).write seqNat (newRecord f st) o ∧
      (o = .stored → sector f' (bootStateTarget f).2 = some (newRecord f st)) := by
  have hout : sector f' (slotOffset ((sectors f).target seqNat).other)
      = sector f (slotOffset ((sectors f).target seqNat).other) := by
    refine sector_congr fun i h₁ h₂ => h.frame i ?_
    rw [bootStateTarget_snd]
    by_contra hmem
    exact slotOffset_other_disjoint ((sectors f).target seqNat) (i := i) (j := i)
      (by omega) (by omega) h₁ (by omega) rfl
  have hset : ∀ x, sector f' (bootStateTarget f).2 = x →
      sectors f' = (sectors f).set ((sectors f).target seqNat) x := by
    intro x hx
    rw [bootStateTarget_snd] at hx
    cases ht : (sectors f).target seqNat <;> rw [ht] at hx hout
    · exact congrArg₂ Pair.mk hx hout
    · exact congrArg₂ Pair.mk hout hx
  rcases h.torn with heq | hbad | hnew
  · subst heq
    exact ⟨.kept, rfl, fun h => absurd h (by simp)⟩
  · refine ⟨.lost, hset none ?_, fun h => absurd h (by simp)⟩
    unfold sector
    rw [hbad]
    rfl
  · exact ⟨.stored, hset _ hnew, fun _ => hnew⟩

/-- A completed write is the third way a cut write can end. -/
theorem CutWrite.of_complete (f : Flash) (st : BootState) : CutWrite f st (bootStateWrite f st) :=
  ⟨fun _ h => bootStateWrite_of_notMem h, Or.inr (Or.inr (sector_bootStateWrite f st))⟩

theorem CutWrite.below {f f' : Flash} {st : BootState} (h : CutWrite f st f') {i : ℕ}
    (hi : i < bootstateAOffset.toNat) : f' i = f i := by
  refine h.frame i (Or.inl ?_)
  rw [bootStateTarget_snd]
  exact Nat.lt_of_lt_of_le hi (slotOffset_ge _)

theorem slotBytes_bootStateWrite {f : Flash} {st : BootState} {len : UInt32}
    (h : len ≤ appMaxSize) : slotBytes (bootStateWrite f st) len = slotBytes f len :=
  slotBytes_congr h fun _ _ hi => (CutWrite.of_complete f st).below hi

theorem newRecord_seq {f : Flash} (st : BootState) (h : (sectors f).maxSeq seqNat < 2 ^ 32 - 1) :
    seqNat (newRecord f st) = (sectors f).maxSeq seqNat + 1 := by
  show ((bootStateTarget f).1 + 1).toNat = _
  rw [UInt32.toNat_add, bootStateTarget_fst]
  exact Nat.mod_eq_of_lt (by have : UInt32.toNat 1 = 1 := rfl; omega)

end EthPanel
