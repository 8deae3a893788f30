import Mathlib.Tactic.Common

/-!
# Bounded queues

A queue with room for `cap` elements, which loses what it has no room for. Elements leave it at the
front, one or more at a time. What leaves and what is lost is kept account of, so a system that
does to its queue what `Queue.run` does neither loses nor repeats anything else.
-/

namespace BoundedQueue

variable {α : Type*}

structure Queue (α : Type*) where
  waiting : List α
  gone : List α
  lost : List α

inductive Op (α : Type*)
  | push (a : α)
  /-- The first `n` leave. -/
  | take (n : ℕ)

def Queue.next (cap : ℕ) (q : Queue α) : Op α → Queue α
  | .push a =>
    if q.waiting.length < cap then { q with waiting := q.waiting ++ [a] }
    else { q with lost := q.lost ++ [a] }
  | .take n => { q with waiting := q.waiting.drop n, gone := q.gone ++ q.waiting.take n }

def Queue.run (cap : ℕ) (q : Queue α) (ops : List (Op α)) : Queue α := ops.foldl (Queue.next cap) q

def Queue.empty : Queue α := ⟨[], [], []⟩

variable {cap : ℕ} {q : Queue α}

theorem Queue.run_append (ops ops' : List (Op α)) :
    q.run cap (ops ++ ops') = (q.run cap ops).run cap ops' := List.foldl_append

theorem Queue.push_room {a : α} (h : q.waiting.length < cap) :
    q.next cap (.push a) = { q with waiting := q.waiting ++ [a] } := if_pos h

theorem Queue.push_full {a : α} (h : ¬ q.waiting.length < cap) :
    q.next cap (.push a) = { q with lost := q.lost ++ [a] } := if_neg h

/-- With nothing waiting an element can go right through. -/
theorem Queue.push_take {a : α} (hcap : 0 < cap) (hempty : q.waiting = []) :
    q.run cap [.push a, .take 1] = { q with gone := q.gone ++ [a] } := by
  have hroom : q.waiting.length < cap := by
    rw [hempty]
    exact hcap
  rw [run, List.foldl_cons, push_room hroom, List.foldl_cons, List.foldl_nil, next, hempty]
  rfl

/-- A front part leaves. -/
theorem Queue.take_all (cap : ℕ) {front rest : List α} (h : q.waiting = front ++ rest) :
    q.next cap (.take front.length) = { q with waiting := rest, gone := q.gone ++ front } := by
  rw [next, h, List.drop_left, List.take_left]

end BoundedQueue
