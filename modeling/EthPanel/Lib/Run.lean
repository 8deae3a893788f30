import Mathlib.Tactic.Common

/-!
# Runs of a labelled transition system

A system is a step relation `step : σ → ε → σ → Prop`: from a state, under a label, to a
state. `Run step s l t` is a finite run from `s` to `t` whose labels, oldest first, are `l`.

Four rules do the work of every run argument:

* `Run.invariant`: what one step preserves, a run preserves;
* `Run.countP_le`: a potential that every step labelled `p` lowers bounds how many such
  labels a run can have;
* `Run.simulate`: what can follow every step of a system can follow its runs;
* `Guarded`: the runs all of whose steps meet a condition are the runs of the guarded
  relation, so a conditional law is an unconditional law about another step relation.
-/

namespace Lts

variable {σ ε : Type*} {step : σ → ε → σ → Prop}

inductive Run (step : σ → ε → σ → Prop) : σ → List ε → σ → Prop
  | nil (s : σ) : Run step s [] s
  | cons {s t u : σ} {e : ε} {l : List ε} (h : step s e t) (r : Run step t l u) :
      Run step s (e :: l) u

/-- The step relation restricted to the steps that meet `ok`, a condition on the state before
the step and its label. -/
def Guarded (step : σ → ε → σ → Prop) (ok : σ → ε → Prop) : σ → ε → σ → Prop :=
  fun s e t => step s e t ∧ ok s e

theorem Run.single {s t : σ} {e : ε} (h : step s e t) : Run step s [e] t :=
  .cons h (.nil t)

theorem Run.eq_of_nil {s t : σ} (r : Run step s [] t) : t = s := by
  cases r
  rfl

theorem Run.of_single {s t : σ} {e : ε} (r : Run step s [e] t) : step s e t := by
  cases r with
  | cons h r => exact r.eq_of_nil ▸ h

theorem Run.append {s t u : σ} {l k : List ε} (r : Run step s l t) (q : Run step t k u) :
    Run step s (l ++ k) u := by
  induction r with
  | nil _ => exact q
  | cons h _ ih => exact .cons h (ih q)

theorem Run.snoc {s t u : σ} {l : List ε} {e : ε} (r : Run step s l t) (h : step t e u) :
    Run step s (l ++ [e]) u :=
  r.append (.single h)

theorem Run.mono {step' : σ → ε → σ → Prop} (h : ∀ s e t, step s e t → step' s e t) {s t : σ}
    {l : List ε} (r : Run step s l t) : Run step' s l t := by
  induction r with
  | nil s => exact .nil s
  | cons hs _ ih => exact .cons (h _ _ _ hs) ih

theorem Run.split {s u : σ} {k : List ε} : ∀ {l : List ε}, Run step s (l ++ k) u →
    ∃ t, Run step s l t ∧ Run step t k u := by
  intro l
  induction l generalizing s with
  | nil => intro r; exact ⟨s, .nil s, r⟩
  | cons e l ih =>
    intro r
    cases r with
    | cons h r =>
      obtain ⟨t, r₁, r₂⟩ := ih r
      exact ⟨t, .cons h r₁, r₂⟩

theorem Run.eq_of_deterministic (hdet : ∀ s e t t', step s e t → step s e t' → t = t')
    {s t t' : σ} {l : List ε} (r : Run step s l t) (r' : Run step s l t') : t = t' := by
  induction r with
  | nil _ => cases r'; rfl
  | cons h _ ih =>
    cases r' with
    | cons h' r' => exact ih (hdet _ _ _ _ h h' ▸ r')

theorem Run.step_of_mem {s t : σ} {l : List ε} {e : ε} (r : Run step s l t) (h : e ∈ l) :
    ∃ pre post s' t', l = pre ++ e :: post ∧ Run step s pre s' ∧ step s' e t' ∧
      Run step t' post t := by
  obtain ⟨pre, post, rfl⟩ := List.append_of_mem h
  obtain ⟨s', r₁, r₂⟩ := r.split
  cases r₂ with
  | cons hs r₂ => exact ⟨pre, post, s', _, rfl, r₁, hs, r₂⟩

/-- A step relation that is a function can be run. -/
theorem Run.of_foldlM {next : σ → ε → Option σ} {l : List ε} {s t : σ}
    (h : l.foldlM next s = some t) : Run (fun s e t => next s e = some t) s l t := by
  induction l generalizing s with
  | nil =>
    obtain rfl := Option.some.inj h
    exact .nil s
  | cons e l ih =>
    rw [List.foldlM_cons, Option.bind_eq_bind, Option.bind_eq_some_iff] at h
    obtain ⟨u, hu, h⟩ := h
    exact .cons hu (ih h)

/-- So can one that is a function under a condition, and what it comes to can be looked at. -/
theorem Run.of_foldlM_any {next : σ → ε → σ} {ok : σ → ε → Prop} [∀ s e, Decidable (ok s e)]
    {l : List ε} {s : σ} {p : σ → Bool}
    (h : (l.foldlM (fun s e => if ok s e then some (next s e) else none) s).any p = true) :
    ∃ t, Run (fun s e t => ok s e ∧ t = next s e) s l t ∧ p t = true := by
  induction l generalizing s with
  | nil => exact ⟨s, .nil s, h⟩
  | cons e l ih =>
    rw [List.foldlM_cons] at h
    by_cases hok : ok s e
    · rw [if_pos hok] at h
      obtain ⟨t, r, ht⟩ := ih h
      exact ⟨t, .cons ⟨hok, rfl⟩ r, ht⟩
    · rw [if_neg hok] at h
      cases h

/-- **The invariant rule.** -/
theorem Run.invariant {I : σ → Prop} (hstep : ∀ s e t, I s → step s e t → I t)
    {s t : σ} {l : List ε} (r : Run step s l t) (h : I s) : I t := by
  induction r with
  | nil _ => exact h
  | cons hs _ ih => exact ih (hstep _ _ _ h hs)

theorem Run.invariant_of_forall {I : σ → Prop} {ok : ε → Prop}
    (hstep : ∀ s e t, I s → ok e → step s e t → I t)
    {s t : σ} {l : List ε} (r : Run step s l t) (hl : ∀ e ∈ l, ok e) (h : I s) : I t := by
  induction r with
  | nil _ => exact h
  | cons hs _ ih =>
    exact ih (fun e he => hl e (List.mem_cons_of_mem _ he))
      (hstep _ _ _ h (hl _ List.mem_cons_self) hs)

/-- **The potential rule.** Under an invariant, if no step raises the potential and every step
whose label satisfies `p` lowers it, a run has at most as many such labels as the potential it
starts with. -/
theorem Run.countP_le {I : σ → Prop} {ok : ε → Prop} {p : ε → Bool} (pot : σ → ℕ)
    (hstep : ∀ s e t, I s → ok e → step s e t →
      I t ∧ pot t + (if p e = true then 1 else 0) ≤ pot s)
    {s t : σ} {l : List ε} (r : Run step s l t) (hl : ∀ e ∈ l, ok e) (h : I s) :
    l.countP p + pot t ≤ pot s := by
  induction r with
  | nil _ => simp
  | @cons s t u e l hs _ ih =>
    obtain ⟨hI, hp⟩ := hstep _ _ _ h (hl _ List.mem_cons_self) hs
    have hrest := ih (fun e he => hl e (List.mem_cons_of_mem _ he)) hI
    rw [List.countP_cons]
    omega

/-- **The simulation rule.** A system that can follow every step of another, keep up with it as `R`
says and show the same of it can follow its runs. -/
theorem Run.simulate {τ κ ω : Type*} {step' : τ → κ → τ → Prop} {R : σ → τ → Prop}
    {f : ε → List ω} {g : κ → List ω}
    (hstep : ∀ s e t u, R s u → step s e t →
      ∃ k v, Run step' u k v ∧ k.flatMap g = f e ∧ R t v)
    {s t : σ} {u : τ} {l : List ε} (r : Run step s l t) (h : R s u) :
    ∃ k v, Run step' u k v ∧ k.flatMap g = l.flatMap f ∧ R t v := by
  induction r generalizing u with
  | nil _ => exact ⟨[], u, .nil u, rfl, h⟩
  | cons hs _ ih =>
    obtain ⟨k, v, r, hobs, hv⟩ := hstep _ _ _ u h hs
    obtain ⟨k', w, q, hobs', hw⟩ := ih hv
    refine ⟨k ++ k', w, r.append q, ?_, hw⟩
    rw [List.flatMap_append, hobs, hobs', List.flatMap_cons]

/-! ## Logs

A state may keep a log of what has happened, and a step adds to its end. -/

section Log

variable {α : Type*} {log l before after : List α} {e : α}

/-- An entry is an old one or a new one. -/
theorem split_append (h : log ++ l = before ++ e :: after) :
    (∃ rest, after = rest ++ l ∧ log = before ++ e :: rest) ∨
      ∃ rest, before = log ++ rest ∧ l = rest ++ e :: after := by
  rcases List.append_eq_append_iff.mp h with ⟨rest, hbefore, hl⟩ | ⟨rest, hlog, hafter⟩
  · exact Or.inr ⟨rest, hbefore, hl⟩
  · cases rest with
    | nil =>
      rw [List.append_nil] at hlog
      rw [List.nil_append] at hafter
      exact Or.inr ⟨[], by rw [hlog, List.append_nil], hafter.symm⟩
    | cons e' rest =>
      obtain ⟨rfl, rfl⟩ := List.cons.inj hafter
      exact Or.inl ⟨rest, rfl, hlog⟩

theorem split_append_old (he : e ∉ l) (h : log ++ l = before ++ e :: after) :
    ∃ rest, after = rest ++ l ∧ log = before ++ e :: rest := by
  rcases split_append h with hold | ⟨rest, _, hl⟩
  · exact hold
  · exact absurd (by rw [hl]; simp) he

end Log

end Lts
