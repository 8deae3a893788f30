import Mathlib.Tactic.Common

/-!
# Memories whose cells only move one way

A memory is a function from addresses to cells. Two operations act on a range of it: `fill`
sets every cell of the range to one value, and `merge` combines each cell with the next value
of a list through an operation `op`. A NOR flash is the instance where `fill` is the erase to
all ones and `op` is bitwise AND; nothing here is about bits, only about an `op` with a left
identity `blank`, the cell that an erase leaves behind.

The facts are the frame lemmas (an operation moves no cell outside its range), what a range
reads back, and the one law that makes programming useful: over a blank range, `merge` writes
what it is given.
-/

namespace Mem

variable {β : Type*}

/-- Set the `n` cells from `off` on to `v`. -/
def fill (v : β) (off n : ℕ) (m : ℕ → β) : ℕ → β :=
  fun i => if off ≤ i ∧ i < off + n then v else m i

/-- Combine the cells from `off` on with the values `bs`, one by one. -/
def merge (op : β → β → β) (off : ℕ) (bs : List β) (m : ℕ → β) : ℕ → β :=
  fun i => if off ≤ i then
    match bs[i - off]? with
    | some b => op (m i) b
    | none => m i
  else m i

/-- The `n` cells from `off` on, in order. -/
def read (m : ℕ → β) (off n : ℕ) : List β := (List.range n).map fun i => m (off + i)

/-! ## Frame lemmas -/

theorem fill_of_mem {v : β} {off n i : ℕ} {m : ℕ → β} (h₁ : off ≤ i) (h₂ : i < off + n) :
    fill v off n m i = v :=
  if_pos ⟨h₁, h₂⟩

theorem fill_of_notMem {v : β} {off n i : ℕ} {m : ℕ → β} (h : i < off ∨ off + n ≤ i) :
    fill v off n m i = m i :=
  if_neg fun ⟨h₁, h₂⟩ => by omega

theorem merge_of_notMem {op : β → β → β} {off i : ℕ} {bs : List β} {m : ℕ → β}
    (h : i < off ∨ off + bs.length ≤ i) : merge op off bs m i = m i := by
  unfold merge
  split
  · rename_i hle
    have hge : bs.length ≤ i - off := by omega
    rw [List.getElem?_eq_none hge]
  · rfl

theorem merge_of_mem {op : β → β → β} {off i : ℕ} {bs : List β} {m : ℕ → β}
    (h₁ : off ≤ i) (h₂ : i - off < bs.length) :
    merge op off bs m i = op (m i) bs[i - off] := by
  unfold merge
  rw [if_pos h₁, List.getElem?_eq_getElem h₂]

theorem merge_of_identity {op : β → β → β} {blank : β} (hid : ∀ b, op b blank = b)
    {off i : ℕ} {bs : List β} {m : ℕ → β}
    (h : ∀ (hi : i - off < bs.length), off ≤ i → bs[i - off] = blank) :
    merge op off bs m i = m i := by
  by_cases hle : off ≤ i
  · by_cases hlt : i - off < bs.length
    · rw [merge_of_mem hle hlt, h hlt hle, hid]
    · exact merge_of_notMem (Or.inr (by omega))
  · exact merge_of_notMem (Or.inl (by omega))

/-! ## Reading a range back -/

@[simp] theorem length_read (m : ℕ → β) (off n : ℕ) : (read m off n).length = n := by
  simp [read]

@[simp] theorem getElem_read (m : ℕ → β) (off n i : ℕ) (h : i < (read m off n).length) :
    (read m off n)[i] = m (off + i) := by
  simp [read]

theorem read_congr {m m' : ℕ → β} {off n : ℕ} (h : ∀ i, off ≤ i → i < off + n → m i = m' i) :
    read m off n = read m' off n := by
  refine List.map_congr_left fun i hi => h _ (by omega) ?_
  have := List.mem_range.mp hi
  omega

theorem read_add (m : ℕ → β) (off n k : ℕ) :
    read m off (n + k) = read m off n ++ read m (off + n) k := by
  simp [read, List.range_add, List.map_append, Function.comp_def, Nat.add_assoc]

theorem read_eq_iff {m : ℕ → β} {off : ℕ} {bs : List β} :
    read m off bs.length = bs ↔ ∀ i (h : i < bs.length), m (off + i) = bs[i] := by
  constructor
  · intro heq i h
    have hi : i < (read m off bs.length).length := by simpa using h
    rw [← getElem_read m off bs.length i hi]
    exact List.getElem_of_eq heq hi
  · intro hall
    refine List.ext_getElem (by simp) fun i h₁ h₂ => ?_
    rw [getElem_read]
    exact hall i h₂

/-- **Programming a blank range writes what it is given.** -/
theorem merge_blank {op : β → β → β} {blank : β} (hid : ∀ b, op blank b = b)
    {off : ℕ} {bs : List β} {m : ℕ → β} (hb : ∀ i, off ≤ i → i < off + bs.length → m i = blank)
    {i : ℕ} (h₁ : off ≤ i) (h₂ : i - off < bs.length) :
    merge op off bs m i = bs[i - off] := by
  rw [merge_of_mem h₁ h₂, hb i h₁ (by omega), hid]

end Mem
