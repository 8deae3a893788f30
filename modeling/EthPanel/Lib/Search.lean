import Mathlib.Data.List.Basic
import Mathlib.Data.List.TakeWhile
import Mathlib.Tactic.Common

/-!
# Substring search, and words in quotes

`find pat s` is what is left of `s` from the first place on where `pat` occurs: C's `strstr`.

A text may hold words between delimiters `q`, none of which contains one. Searching such a text
for a word with its delimiters (`quoted q w`) goes past what holds no delimiter (`find_raw`), stops
at the word itself (`find_quoted_self`), and goes past any other word (`find_quoted_ne`), provided
that what follows the other word's closing delimiter cannot be taken for the rest of the pattern. By
the same token `suffix_quoted` and `suffix_raw` say where in a text a word in quotes can stand.
-/

namespace Search

variable {α : Type*} {q : α}

/-! ## Words in quotes -/

/-- A word between its delimiters. -/
def quoted (q : α) (w : List α) : List α := q :: (w ++ [q])

theorem quoted_append (w s : List α) : quoted q w ++ s = q :: (w ++ q :: s) := by
  simp [quoted]

/-- Of two words without a delimiter, each up to one, neither is a part of the other. -/
theorem prefix_word_iff {w w' s : List α} (hw : q ∉ w) (hw' : q ∉ w') :
    w ++ [q] <+: w' ++ q :: s ↔ w = w' := by
  constructor
  · intro h
    induction w generalizing w' with
    | nil =>
      cases w' with
      | nil => rfl
      | cons c w' =>
        obtain rfl := (List.cons_prefix_cons.mp h).1
        exact absurd List.mem_cons_self hw'
    | cons c w ih =>
      rw [List.mem_cons, not_or] at hw
      cases w' with
      | nil => exact absurd (List.cons_prefix_cons.mp h).1.symm hw.1
      | cons c' w' =>
        rw [List.mem_cons, not_or] at hw'
        obtain ⟨rfl, hrest⟩ := List.cons_prefix_cons.mp h
        rw [ih hw.2 hw'.2 hrest]
  · rintro rfl
    rw [show q :: s = [q] ++ s from rfl, ← List.append_assoc]
    exact List.prefix_append _ _

/-! ## Where a text can begin with a word in quotes -/

/-- Nowhere in what holds no delimiter. -/
theorem suffix_raw {raw x s : List α} (h : q ∉ raw) : q :: x <:+ raw ++ s ↔ q :: x <:+ s := by
  induction raw with
  | nil => rfl
  | cons c raw ih =>
    rw [List.mem_cons, not_or] at h
    rw [List.cons_append, List.suffix_cons_iff, ih h.2]
    constructor
    · rintro (heq | hs)
      · exact absurd (List.cons.inj heq).1 h.1
      · exact hs
    · exact Or.inr

theorem word_inj {w w' r s : List α} (hw : q ∉ w) (hw' : q ∉ w')
    (h : w ++ q :: r = w' ++ q :: s) : w = w' ∧ r = s := by
  have hpre : w ++ [q] <+: w' ++ q :: s := ⟨r, by simpa using h⟩
  obtain rfl := (prefix_word_iff hw hw').mp hpre
  exact ⟨rfl, by simpa using h⟩

/-- Where another word stands only with that word itself, unless what comes after the closing
delimiter can be taken for it. -/
theorem suffix_quoted {w w' r s : List α} (hw : q ∉ w) (hw' : q ∉ w')
    (hs : ¬ w ++ [q] <+: s) (h : quoted q w ++ r <:+ quoted q w' ++ s) :
    w = w' ∧ r = s ∨ quoted q w ++ r <:+ s := by
  rw [quoted_append, quoted_append] at h
  rcases List.suffix_cons_iff.mp h with heq | h
  · exact Or.inl (word_inj hw hw' (List.cons.inj heq).2)
  · rw [suffix_raw hw'] at h
    rcases List.suffix_cons_iff.mp h with heq | h
    · refine absurd ⟨r, ?_⟩ hs
      simpa using (List.cons.inj heq).2
    · rw [quoted_append]
      exact Or.inr h

/-! ## Search -/

variable [DecidableEq α]

/-- The rest of `s` from the first occurrence of `pat` on. -/
def find (pat : List α) : List α → Option (List α)
  | [] => if pat = [] then some [] else none
  | c :: s => if pat.isPrefixOf (c :: s) then some (c :: s) else find pat s

theorem find_of_prefix {pat s : List α} (h : pat <+: s) : find pat s = some s := by
  cases s with
  | nil => rw [find, if_pos (List.prefix_nil.mp h)]
  | cons c s => rw [find, if_pos (List.isPrefixOf_iff_prefix.mpr h)]

theorem find_cons {pat : List α} {c : α} {s : List α} (h : ¬ pat <+: c :: s) :
    find pat (c :: s) = find pat s := by
  rw [find, if_neg fun hp => h (List.isPrefixOf_iff_prefix.mp hp)]

/-- What is found begins with the pattern and ends the text. -/
theorem find_some {pat s p : List α} (h : find pat s = some p) : pat <+: p ∧ p <:+ s := by
  induction s with
  | nil =>
    rw [find] at h
    split at h
    · rename_i hnil
      obtain rfl := Option.some.inj h
      exact ⟨hnil ▸ List.nil_prefix, List.suffix_rfl⟩
    · cases h
  | cons c s ih =>
    rw [find] at h
    split at h
    · rename_i hp
      obtain rfl := Option.some.inj h
      exact ⟨List.isPrefixOf_iff_prefix.mp hp, List.suffix_rfl⟩
    · obtain ⟨h₁, h₂⟩ := ih h
      exact ⟨h₁, h₂.trans (List.suffix_cons c s)⟩

/-! ## Search among words in quotes -/

/-- Nothing begins where there is no delimiter. -/
theorem find_raw {raw : List α} (h : q ∉ raw) (w s : List α) :
    find (quoted q w) (raw ++ s) = find (quoted q w) s := by
  induction raw with
  | nil => rfl
  | cons c raw ih =>
    rw [List.mem_cons, not_or] at h
    rw [List.cons_append, find_cons, ih h.2]
    intro hp
    exact h.1 (List.cons_prefix_cons.mp hp).1

theorem find_quoted_self (w s : List α) :
    find (quoted q w) (quoted q w ++ s) = some (quoted q w ++ s) :=
  find_of_prefix (List.prefix_append _ _)

/-- Another word is gone past, closing delimiter and all. -/
theorem find_quoted_ne {w w' s : List α} (hw : q ∉ w) (hw' : q ∉ w') (hne : w ≠ w')
    (hs : ¬ w ++ [q] <+: s) :
    find (quoted q w) (quoted q w' ++ s) = find (quoted q w) s := by
  have hopen : ¬ quoted q w <+: q :: (w' ++ q :: s) := by
    intro h
    exact hne ((prefix_word_iff hw hw').mp (List.cons_prefix_cons.mp h).2)
  rw [quoted_append, find_cons hopen, find_raw hw', find_cons]
  intro h
  exact hs (List.cons_prefix_cons.mp h).2

end Search
