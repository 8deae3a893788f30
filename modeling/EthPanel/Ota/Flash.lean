import EthPanel.Lib.Nor
import EthPanel.Ota.Layout

/-!
# The flash chip, as the Pico SDK shows it

`flash_range_erase` and `flash_range_program` are the only two ways this program changes
flash: an erase sets a range to `0xFF`, a program ANDs bytes into one. Reads go through XIP and
have no effect. The contents are a function of the offset from the start of flash; what lies
beyond the chip is not described by the source, and is whatever the function says there.

An operation is a value (`FlashOp`) rather than only its effect, because two questions are
about the operations themselves: which ranges a program asks for, and what flash holds when
the power goes between two of them or during one (`CutOps`, `FlashOp.Torn`).
-/

namespace EthPanel

abbrev Flash := ℕ → UInt8

inductive FlashOp
  /-- `flash_range_erase(off, count)` -/
  | erase (off count : UInt32)
  /-- `flash_range_program(off, data, len)` -/
  | program (off : UInt32) (data : List UInt8)
  deriving DecidableEq, Repr

namespace FlashOp

/-- First flash offset of the range. -/
def lo : FlashOp → ℕ
  | erase off _ => off.toNat
  | program off _ => off.toNat

def size : FlashOp → ℕ
  | erase _ count => count.toNat
  | program _ data => data.length

def Covers (op : FlashOp) (i : ℕ) : Prop := op.lo ≤ i ∧ i < op.lo + op.size

def apply : FlashOp → Flash → Flash
  | erase off count, f => Mem.fill 0xFF off.toNat count.toNat f
  | program off data, f => Mem.merge (· &&& ·) off.toNat data f

theorem apply_of_not_covers {op : FlashOp} {f : Flash} {i : ℕ} (h : ¬ op.Covers i) :
    op.apply f i = f i := by
  unfold Covers at h
  cases op with
  | erase off count => exact Mem.fill_of_notMem (by simp only [lo, size] at h; omega)
  | program off data => exact Mem.merge_of_notMem (by simp only [lo, size] at h; omega)

/-- The power goes while the operation runs: each bit of the range has moved or has not. An
erase raises bits towards `1`, a program lowers towards `0` those its data has clear. -/
def Torn : FlashOp → Flash → Flash → Prop
  | erase off count, f, f' => ∀ i, (i < off.toNat ∨ off.toNat + count.toNat ≤ i → f' i = f i) ∧
      ∃ mask, f' i = f i ||| mask
  | program off data, f, f' => ∀ i, ∃ mask,
      f' i = Mem.merge (fun cell b => cell &&& (b ||| mask)) off.toNat data f i

theorem Torn.of_not_covers {op : FlashOp} {f f' : Flash} (h : op.Torn f f') {i : ℕ}
    (hi : ¬ op.Covers i) : f' i = f i := by
  unfold Covers at hi
  cases op with
  | erase off count => exact (h i).1 (by simp only [lo, size] at hi; omega)
  | program off data =>
    obtain ⟨mask, hm⟩ := h i
    rw [hm]
    exact Mem.merge_of_notMem (by simp only [lo, size] at hi; omega)

/-- The operation leaves the cell as it is, whether it completes or is cut. -/
def Keeps (op : FlashOp) (i : ℕ) : Prop :=
  ∀ f, op.apply f i = f i ∧ ∀ f', op.Torn f f' → f' i = f i

theorem keeps_of_not_covers {op : FlashOp} {i : ℕ} (h : ¬ op.Covers i) : op.Keeps i :=
  fun _ => ⟨apply_of_not_covers h, fun _ ht => ht.of_not_covers h⟩

/-- Programming `0xFF` moves no bit: a cell whose data byte is blank stays, even when cut. -/
theorem keeps_program {off : UInt32} {data : List UInt8} {i : ℕ}
    (h : ∀ (hi : i - off.toNat < data.length), off.toNat ≤ i → data[i - off.toNat] = 0xFF) :
    (program off data).Keeps i := by
  refine fun f => ⟨Mem.merge_of_identity (fun b => UInt8.and_neg_one) h, fun f' ht => ?_⟩
  obtain ⟨mask, hm⟩ := ht i
  rw [hm]
  refine Mem.merge_of_identity (fun b => ?_) h
  rw [show (0xFF : UInt8) ||| mask = 0xFF from UInt8.neg_one_or]
  exact UInt8.and_neg_one

end FlashOp

/-- Run a list of operations, in order. -/
def applyOps (ops : List FlashOp) (f : Flash) : Flash := ops.foldl (fun f op => op.apply f) f

@[simp] theorem applyOps_nil (f : Flash) : applyOps [] f = f := rfl

@[simp] theorem applyOps_cons (op : FlashOp) (ops : List FlashOp) (f : Flash) :
    applyOps (op :: ops) f = applyOps ops (op.apply f) := rfl

theorem applyOps_of_keeps {ops : List FlashOp} {i : ℕ} :
    ∀ {f : Flash}, (∀ op ∈ ops, op.Keeps i) → applyOps ops f i = f i := by
  induction ops with
  | nil => intro _ _; rfl
  | cons op ops ih =>
    intro f h
    rw [applyOps_cons, ih fun o ho => h o (List.mem_cons_of_mem _ ho)]
    exact (h op List.mem_cons_self f).1

/-- **The frame law**: a list of operations changes no byte outside their ranges. -/
theorem applyOps_of_not_covers {ops : List FlashOp} {f : Flash} {i : ℕ}
    (h : ∀ op ∈ ops, ¬ op.Covers i) : applyOps ops f i = f i :=
  applyOps_of_keeps fun op hop => FlashOp.keeps_of_not_covers (h op hop)

/-- What flash holds when the power goes during a list of operations: some of them done, and
the next one, if any, perhaps torn. -/
inductive CutOps : List FlashOp → Flash → Flash → Prop
  | before (ops : List FlashOp) (f : Flash) : CutOps ops f f
  | torn {op : FlashOp} (rest : List FlashOp) {f f' : Flash} (h : op.Torn f f') :
      CutOps (op :: rest) f f'
  | after {op : FlashOp} {rest : List FlashOp} {f f' : Flash} (h : CutOps rest (op.apply f) f') :
      CutOps (op :: rest) f f'

theorem CutOps.of_keeps {ops : List FlashOp} {f f' : Flash} (h : CutOps ops f f') {i : ℕ}
    (hi : ∀ op ∈ ops, op.Keeps i) : f' i = f i := by
  induction h with
  | before _ _ => rfl
  | torn rest h => exact (hi _ List.mem_cons_self _).2 _ h
  | after _ ih =>
    rw [ih fun op hop => hi op (List.mem_cons_of_mem _ hop)]
    exact (hi _ List.mem_cons_self _).1

/-- The cuts that come once the first operation has begun. -/
def CutWithin : List FlashOp → Flash → Flash → Prop
  | [], _, _ => False
  | op :: rest, f, f' => op.Torn f f' ∨ CutOps rest (op.apply f) f'

theorem CutWithin.cutOps {ops : List FlashOp} {f f' : Flash} (h : CutWithin ops f f') :
    CutOps ops f f' := by
  cases ops with
  | nil => cases h
  | cons op rest => exact h.elim (.torn rest) .after

/-! ## Words and ranges -/

/-- The little-endian word at an offset. -/
def wordAt (f : Flash) (off : ℕ) : UInt32 :=
  ofLe32 (f off) (f (off + 1)) (f (off + 2)) (f (off + 3))

theorem wordAt_congr {f f' : Flash} {off : ℕ} (h : ∀ i, off ≤ i → i < off + 4 → f i = f' i) :
    wordAt f off = wordAt f' off := by
  unfold wordAt
  rw [h off (by omega) (by omega), h (off + 1) (by omega) (by omega),
    h (off + 2) (by omega) (by omega), h (off + 3) (by omega) (by omega)]

/-- The first `len` bytes of the slot, as the CRC re-checks read them. -/
def slotBytes (f : Flash) (len : UInt32) : List UInt8 := Mem.read f appOffset.toNat len.toNat

theorem slotBytes_congr {f f' : Flash} {len : UInt32} (hlen : len ≤ appMaxSize)
    (h : ∀ i, appOffset.toNat ≤ i → i < bootstateAOffset.toNat → f i = f' i) :
    slotBytes f len = slotBytes f' len := by
  refine Mem.read_congr fun i h₁ h₂ => h i h₁ ?_
  have := UInt32.le_iff_toNat_le.mp hlen
  simp only [appMaxSize_toNat, appOffset_toNat, bootstateAOffset_toNat] at *
  omega

end EthPanel
