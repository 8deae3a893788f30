import Mathlib.Data.List.Basic
import Mathlib.Logic.Function.Basic
import Mathlib.Tactic.Common

/-!
# Ring buffers

A queue in `n` slots: `tail` is the oldest element, `head` the slot for the next one, and the two
are equal when there is nothing in it, so one slot is always free. `contents` is the queue.

A writer owns `head` and a reader `tail`. Each may look at the other's index at one moment and use
what it saw at a later one: the queue has only grown at its end since then, or shrunk at its
front. A reader that drops everything up to an index it has seen drops a front part of the queue
(`contents_split`).
-/

namespace RingBuffer

variable {α : Type*} {n : ℕ}

/-- The slot after a slot. -/
def next (n i : ℕ) : ℕ := (i + 1) % n

/-- How many elements there are from `tail` to `head`. -/
def unread (n tail head : ℕ) : ℕ := (head + n - tail) % n

/-- The elements from `tail` to `head`, the oldest first. -/
def contents (n : ℕ) (slots : ℕ → α) (tail head : ℕ) : List α :=
  (List.range (unread n tail head)).map fun k => slots ((tail + k) % n)

/-! ## Indices -/

/-- Once around at most. -/
theorem mod_of_lt_two_mul {x : ℕ} (h : x < 2 * n) : x % n = if x < n then x else x - n := by
  split
  · rename_i hlt
    exact Nat.mod_eq_of_lt hlt
  · rename_i hge
    rw [Nat.mod_eq_sub_mod (Nat.not_lt.mp hge), Nat.mod_eq_of_lt (by omega)]

theorem next_lt {i : ℕ} (hi : i < n) : next n i < n := Nat.mod_lt _ (Nat.zero_lt_of_lt hi)

variable {tail head mid : ℕ}

theorem next_cases {i : ℕ} (hi : i < n) :
    i + 1 < n ∧ next n i = i + 1 ∨ i + 1 = n ∧ next n i = 0 := by
  rw [next, mod_of_lt_two_mul (by omega)]
  split <;> omega

theorem unread_cases (htail : tail < n) (hhead : head < n) :
    tail ≤ head ∧ unread n tail head = head - tail ∨
      head < tail ∧ unread n tail head = head + n - tail := by
  rw [unread, mod_of_lt_two_mul (by omega)]
  split <;> omega

theorem unread_lt (htail : tail < n) : unread n tail head < n :=
  Nat.mod_lt _ (Nat.zero_lt_of_lt htail)

theorem unread_eq_zero (htail : tail < n) (hhead : head < n) :
    unread n tail head = 0 ↔ tail = head := by
  have hunread := unread_cases htail hhead
  omega

/-- There is room for one more. -/
theorem unread_next (htail : tail < n) (hhead : head < n) (hroom : next n head ≠ tail) :
    unread n tail (next n head) = unread n tail head + 1 := by
  have hold := unread_cases htail hhead
  have hnew := unread_cases htail (next_lt hhead)
  have hnext := next_cases hhead
  omega

/-- There is none: all slots but one are taken. -/
theorem unread_full (htail : tail < n) (hhead : head < n) (hfull : next n head = tail) :
    unread n tail head = n - 1 := by
  have hunread := unread_cases htail hhead
  have hnext := next_cases hhead
  omega

theorem unread_next_tail (htail : tail < n) (hhead : head < n) (hne : tail ≠ head) :
    unread n tail head = unread n (next n tail) head + 1 := by
  have hold := unread_cases htail hhead
  have hnew := unread_cases (next_lt htail) hhead
  have hnext := next_cases htail
  omega

/-- An index between the two. -/
theorem unread_add (htail : tail < n) (hhead : head < n) (hmid : mid < n)
    (h : unread n tail mid ≤ unread n tail head) :
    unread n tail mid + unread n mid head = unread n tail head := by
  have hall := unread_cases htail hhead
  have hfront := unread_cases htail hmid
  have hrest := unread_cases hmid hhead
  omega

theorem add_unread (htail : tail < n) (hmid : mid < n) :
    (tail + unread n tail mid) % n = mid := by
  have hunread := unread_cases htail hmid
  rw [mod_of_lt_two_mul (by omega)]
  split <;> omega

theorem slot_injective {k k' : ℕ} (htail : tail < n) (hk : k < n) (hk' : k' < n)
    (h : (tail + k) % n = (tail + k') % n) : k = k' := by
  rw [mod_of_lt_two_mul (by omega), mod_of_lt_two_mul (by omega)] at h
  split at h <;> split at h <;> omega

/-! ## The queue -/

variable {slots : ℕ → α}

@[simp] theorem length_contents : (contents n slots tail head).length = unread n tail head := by
  simp [contents]

theorem contents_eq_nil (htail : tail < n) (hhead : head < n) :
    contents n slots tail head = [] ↔ tail = head := by
  rw [← List.length_eq_zero_iff, length_contents, unread_eq_zero htail hhead]

/-- **Writing.** -/
theorem contents_push (htail : tail < n) (hhead : head < n) (hroom : next n head ≠ tail) (a : α) :
    contents n (Function.update slots head a) tail (next n head) =
      contents n slots tail head ++ [a] := by
  rw [contents, unread_next htail hhead hroom, List.range_succ, List.map_append,
    List.map_singleton, add_unread htail hhead, Function.update_self]
  refine congrArg (· ++ [a]) (List.map_congr_left fun k hk => ?_)
  have hlt := List.mem_range.mp hk
  have hmax : unread n tail head < n := unread_lt htail
  refine Function.update_of_ne (fun heq => ?_) _ _
  rw [← add_unread htail hhead] at heq
  have := slot_injective htail (by omega) hmax heq
  omega

/-- **Reading.** -/
theorem contents_pop (htail : tail < n) (hhead : head < n) (hne : tail ≠ head) :
    contents n slots tail head = slots tail :: contents n slots (next n tail) head := by
  rw [contents, unread_next_tail htail hhead hne, List.range_succ_eq_map, List.map_cons,
    List.map_map, Nat.add_zero, Nat.mod_eq_of_lt htail, contents]
  refine congrArg (slots tail :: ·) (List.map_congr_left fun k _ => ?_)
  show slots ((tail + (k + 1)) % n) = slots ((next n tail + k) % n)
  rw [next, Nat.mod_add_mod, Nat.add_assoc, Nat.add_comm 1 k]

theorem contents_split (htail : tail < n) (hhead : head < n) (hmid : mid < n)
    (h : unread n tail mid ≤ unread n tail head) :
    contents n slots tail mid ++ contents n slots mid head = contents n slots tail head := by
  have hadd := unread_add htail hhead hmid h
  rw [contents, contents, contents, ← hadd, List.range_add, List.map_append, List.map_map]
  refine congrArg (_ ++ ·) (List.map_congr_left fun k _ => ?_)
  show slots ((mid + k) % n) = slots ((tail + (unread n tail mid + k)) % n)
  conv_lhs => rw [← add_unread htail hmid, Nat.mod_add_mod, Nat.add_assoc]

end RingBuffer
