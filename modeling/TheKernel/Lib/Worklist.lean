import TheKernel.Lib.Outcome

namespace TheKernel.Worklist

open Outcome

variable {ε α σ : Type}

/-- `while let Some(x) = queue.pop_front()` with a body that updates a state
and returns what it pushed back, in order. Running out of turns is a panic. -/
def drain (body : α → σ → Outcome ε (σ × List α)) : Nat → List α → σ → Outcome ε σ
  | _, [], s => .ok s
  | 0, _ :: _, _ => .panic
  | turns + 1, x :: queue, s => do
      let (s, pushed) ← body x s
      drain body turns (queue ++ pushed) s

variable {body : α → σ → Outcome ε (σ × List α)}

@[simp] theorem drain_nil (turns : Nat) (s : σ) : drain body turns [] s = .ok s := by
  cases turns <;> rfl

theorem drain_cons (turns : Nat) (x : α) (queue : List α) (s : σ) :
    drain body (turns + 1) (x :: queue) s = (body x s >>= fun r => drain body turns (queue ++ r.2) r.1) := rfl

/-- The rule for a drained queue: an invariant of the queue and the state that
every successful turn keeps. -/
theorem drain_invariant (P : List α → σ → Prop)
    (hbody : ∀ x queue s s' pushed, P (x :: queue) s → body x s = .ok (s', pushed) → P (queue ++ pushed) s')
    {turns : Nat} {queue : List α} {s t : σ} (hs : P queue s) (h : drain body turns queue s = .ok t) : P [] t := by
  induction turns generalizing queue s with
  | zero =>
      cases queue with
      | nil =>
          rw [drain_nil, ok.injEq] at h
          exact h ▸ hs
      | cons x queue => cases h
  | succ turns ih =>
      cases queue with
      | nil =>
          rw [drain_nil, ok.injEq] at h
          exact h ▸ hs
      | cons x queue =>
          rw [drain_cons, bind_eq_ok] at h
          obtain ⟨⟨s', pushed⟩, hb, hrest⟩ := h
          exact ih (hbody x queue s s' pushed hs hb) hrest

/-- Once there are more turns than a bound that every successful turn lowers,
further ones change nothing. -/
theorem drain_enough (P : List α → σ → Prop) (bound : List α → σ → Nat)
    (hbody : ∀ x queue s s' pushed, P (x :: queue) s → body x s = .ok (s', pushed) →
      P (queue ++ pushed) s' ∧ bound (queue ++ pushed) s' < bound (x :: queue) s)
    {turns more : Nat} {queue : List α} {s : σ} (hs : P queue s) (hb : bound queue s < turns) (hm : turns ≤ more) :
    drain body more queue s = drain body turns queue s := by
  induction turns generalizing more queue s with
  | zero => exact absurd hb (Nat.not_lt_zero _)
  | succ turns ih =>
      obtain ⟨more, rfl⟩ : ∃ k, more = k + 1 := ⟨more - 1, by omega⟩
      cases queue with
      | nil => rw [drain_nil, drain_nil]
      | cons x queue =>
          rw [drain_cons, drain_cons]
          cases hx : body x s with
          | ok r =>
              obtain ⟨hP, hlt⟩ := hbody x queue s r.1 r.2 hs hx
              exact ih hP (by omega) (by omega)
          | err e => rfl
          | panic => rfl

end TheKernel.Worklist
