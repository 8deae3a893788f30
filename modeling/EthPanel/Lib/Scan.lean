import Mathlib.Data.List.Infix
import Mathlib.Tactic.Common

/-!
# Scanning a stream for a token

A `Scanner` takes a stream letter by letter and stops when its state says so. What its state says
is a matter of what has been read so far: a scanner that stops just when this ends with a token
(`Spots`) returns the token that ends first and leaves what comes after it unread
(`Spots.run_eq_some`), and goes on for as long as the stream holds none (`Spots.run_eq_none`). It
does not matter what the letters before the token are, or how much of a token they look like
(`Spots.run_junk`).

The tokens are the `t : β` with `P t`, spelled `spell t`.
-/

namespace Scan

variable {α σ β : Type*}

structure Scanner (α σ β : Type*) where
  next : σ → α → σ
  hit : σ → Option β

/-- Of the ways to begin `s`, `read` is the shortest that ends with a token; `t` is the token. -/
structure Leftmost (P : β → Prop) (spell : β → List α) (s read : List α) (t : β)
    (rest : List α) : Prop where
  split : s = read ++ rest
  token : P t
  ends : spell t <:+ read
  first : ∀ p, p <+: s → ∀ t', P t' → spell t' <:+ p → read.length ≤ p.length

namespace Scanner

variable (m : Scanner α σ β)

/-- Read up to the first hit. -/
def run : σ → List α → Option (β × List α)
  | _, [] => none
  | w, a :: s =>
    match m.hit (m.next w a) with
    | some t => some (t, s)
    | none => run (m.next w a) s

/-- The state after some letters. -/
def after (w : σ) (s : List α) : σ := s.foldl m.next w

theorem after_concat (w : σ) (s : List α) (a : α) :
    m.after w (s ++ [a]) = m.next (m.after w s) a := by
  simp [after]

theorem run_eq_none {w : σ} {s : List α} :
    m.run w s = none ↔ ∀ p, p <+: s → p ≠ [] → m.hit (m.after w p) = none := by
  induction s generalizing w with
  | nil =>
    refine ⟨fun _ p hp hne => absurd (List.prefix_nil.mp hp) hne, fun _ => rfl⟩
  | cons a s ih =>
    rw [run]
    constructor
    · intro h p hp hne
      cases hhit : m.hit (m.next w a) with
      | some t =>
        rw [hhit] at h
        cases h
      | none =>
        rw [hhit] at h
        cases p with
        | nil => exact absurd rfl hne
        | cons b p =>
          obtain ⟨rfl, hps⟩ := List.cons_prefix_cons.mp hp
          by_cases hnil : p = []
          · rw [hnil]
            exact hhit
          · exact ih.mp h p hps hnil
    · intro h
      have hone := h [a] (by simp) (by simp)
      rw [show m.hit (m.next w a) = none from hone]
      refine ih.mpr fun p hp hne => ?_
      exact h (a :: p) (List.cons_prefix_cons.mpr ⟨rfl, hp⟩) (by simp)

/-- **Where it stops**: at the first letter with which its state is a hit. -/
theorem run_eq_some {w : σ} {s rest : List α} {t : β} :
    m.run w s = some (t, rest) ↔ ∃ p a, s = p ++ a :: rest ∧
      m.hit (m.after w (p ++ [a])) = some t ∧ m.run w p = none := by
  induction s generalizing w with
  | nil =>
    constructor
    · intro h
      cases h
    · rintro ⟨p, a, heq, _⟩
      exact absurd heq.symm (by simp)
  | cons b s ih =>
    rw [run]
    constructor
    · intro h
      cases hhit : m.hit (m.next w b) with
      | some t' =>
        rw [hhit, Option.some.injEq, Prod.mk.injEq] at h
        obtain ⟨rfl, rfl⟩ := h
        exact ⟨[], b, rfl, hhit, rfl⟩
      | none =>
        rw [hhit] at h
        obtain ⟨p, a, rfl, hstop, hmiss⟩ := ih.mp h
        refine ⟨b :: p, a, rfl, hstop, ?_⟩
        rw [run, hhit]
        exact hmiss
    · rintro ⟨p, a, heq, hstop, hmiss⟩
      cases p with
      | nil =>
        obtain ⟨rfl, rfl⟩ := List.cons.inj heq
        rw [show m.hit (m.next w b) = some t from hstop]
      | cons c p =>
        obtain ⟨rfl, rfl⟩ := List.cons.inj heq
        rw [run] at hmiss
        cases hhit : m.hit (m.next w b) with
        | some t' =>
          rw [hhit] at hmiss
          cases hmiss
        | none =>
          rw [hhit] at hmiss
          exact ih.mpr ⟨p, a, rfl, hstop, hmiss⟩

/-- From the state `w` on, the scanner stops just when what it has read ends with a token. -/
structure Spots (w : σ) (P : β → Prop) (spell : β → List α) : Prop where
  hit_iff : ∀ s t, m.hit (m.after w s) = some t ↔ P t ∧ spell t <:+ s
  ne_nil : ∀ t, P t → spell t ≠ []

variable {m} {w : σ} {P : β → Prop} {spell : β → List α} (h : m.Spots w P spell)

include h

theorem Spots.hit_none_iff (s : List α) :
    m.hit (m.after w s) = none ↔ ∀ t, P t → ¬ spell t <:+ s := by
  rw [Option.eq_none_iff_forall_not_mem]
  refine forall_congr' fun t => ?_
  rw [Option.mem_def, h.hit_iff, not_and]

/-- **It goes on if there is no token.** -/
theorem Spots.run_eq_none {s : List α} : m.run w s = none ↔ ∀ t, P t → ¬ spell t <:+: s := by
  rw [m.run_eq_none]
  constructor
  · intro hmiss t ht hinfix
    obtain ⟨p, rest, heq⟩ := hinfix
    have hne : p ++ spell t ≠ [] := by
      intro hnil
      exact h.ne_nil t ht (List.append_eq_nil_iff.mp hnil).2
    exact (h.hit_none_iff _).mp (hmiss (p ++ spell t) ⟨rest, heq⟩ hne) t ht
      (List.suffix_append p (spell t))
  · intro hnone p hp _
    rw [h.hit_none_iff]
    exact fun t ht hsuf => hnone t ht (hsuf.isInfix.trans hp.isInfix)

/-- **It returns the token that ends first**, and what comes after it is left. -/
theorem Spots.run_eq_some {s rest : List α} {t : β} :
    m.run w s = some (t, rest) ↔ ∃ read, Leftmost P spell s read t rest := by
  rw [m.run_eq_some]
  constructor
  · rintro ⟨p, a, rfl, hhit, hmiss⟩
    obtain ⟨ht, hends⟩ := (h.hit_iff _ _).mp hhit
    refine ⟨p ++ [a], by simp, ht, hends, fun q hq t' ht' hsuf => ?_⟩
    by_contra hlt
    rw [List.length_append, List.length_singleton] at hlt
    have hqp : q <+: p :=
      List.prefix_of_prefix_length_le hq (List.prefix_append p (a :: rest)) (by omega)
    exact h.run_eq_none.mp hmiss t' ht' (hsuf.isInfix.trans hqp.isInfix)
  · rintro ⟨read, hfirst⟩
    obtain ⟨rfl, ht, hends, hmin⟩ := hfirst
    obtain rfl | ⟨p, a, rfl⟩ := List.eq_nil_or_concat' read
    · exact absurd (List.suffix_nil.mp hends) (h.ne_nil t ht)
    refine ⟨p, a, by simp, (h.hit_iff _ _).mpr ⟨ht, hends⟩,
      h.run_eq_none.mpr fun t' ht' hinfix => ?_⟩
    obtain ⟨q, r, heq⟩ := hinfix
    have hprefix : q ++ spell t' <+: p ++ [a] ++ rest :=
      ⟨r ++ ([a] ++ rest), by rw [← List.append_assoc, heq, List.append_assoc]⟩
    have hle := hmin _ hprefix t' ht' (List.suffix_append q (spell t'))
    have hlen := congrArg List.length heq
    simp only [List.length_append, List.length_singleton] at hle hlen
    omega

/-- **Junk before a token is skipped**, if no token ends before this one does. -/
theorem Spots.run_junk {junk : List α} {t : β} (ht : P t)
    (hjunk : ∀ p, p <+: junk ++ spell t → ∀ t', P t' → spell t' <:+ p → p = junk ++ spell t)
    (rest : List α) : m.run w (junk ++ (spell t ++ rest)) = some (t, rest) := by
  refine h.run_eq_some.mpr ⟨junk ++ spell t, by simp, ht, List.suffix_append junk (spell t), ?_⟩
  intro p hp t' ht' hsuf
  by_contra hlt
  rw [← List.append_assoc] at hp
  have hshort : p <+: junk ++ spell t :=
    List.prefix_of_prefix_length_le hp (List.prefix_append _ rest) (by omega)
  rw [hjunk p hshort t' ht' hsuf] at hlt
  omega

end Scanner

end Scan
