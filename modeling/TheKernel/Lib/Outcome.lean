import Mathlib.Algebra.Order.Ring.Int

namespace TheKernel

/-- What a Rust call can do: return a value, return an error, or panic. -/
inductive Outcome (ε α : Type) where
  | ok (value : α)
  | err (error : ε)
  | panic
  deriving DecidableEq

namespace Outcome

variable {ε α β σ : Type}

def bind (x : Outcome ε α) (f : α → Outcome ε β) : Outcome ε β :=
  match x with
  | .ok a => f a
  | .err e => .err e
  | .panic => .panic

instance : Monad (Outcome ε) where
  pure := .ok
  bind := bind

@[simp] theorem pure_eq (a : α) : (pure a : Outcome ε α) = .ok a := rfl

@[simp] theorem ok_bind (a : α) (f : α → Outcome ε β) : (Outcome.ok a >>= f) = f a := rfl

@[simp] theorem err_bind (e : ε) (f : α → Outcome ε β) : (Outcome.err e >>= f) = .err e := rfl

@[simp] theorem panic_bind (f : α → Outcome ε β) : ((Outcome.panic : Outcome ε α) >>= f) = .panic := rfl

theorem bind_eq_ok {x : Outcome ε α} {f : α → Outcome ε β} {b : β} :
    (x >>= f) = .ok b ↔ ∃ a, x = .ok a ∧ f a = .ok b := by
  cases x <;> simp

theorem unit_bind_eq_ok {x : Outcome ε Unit} {f : Unit → Outcome ε β} {b : β} :
    (x >>= f) = .ok b ↔ x = .ok () ∧ f () = .ok b := by
  rw [bind_eq_ok]
  exact ⟨fun ⟨_, h⟩ => h, fun h => ⟨(), h⟩⟩

theorem guard_eq_ok {c : Prop} [Decidable c] {e : ε} {x : Outcome ε α} {a : α} :
    (if c then .err e else x) = .ok a ↔ ¬ c ∧ x = .ok a := by
  split <;> simp_all

theorem guard_ne_panic {c : Prop} [Decidable c] {e : ε} {x : Outcome ε α} (h : x ≠ .panic) :
    (if c then .err e else x) ≠ .panic := by
  split
  · simp
  · exact h

theorem bind_ne_panic {x : Outcome ε α} {f : α → Outcome ε β} (hx : x ≠ .panic) (hf : ∀ a, x = .ok a → f a ≠ .panic) :
    (x >>= f) ≠ .panic := by
  cases x with
  | ok a => exact hf a rfl
  | err e => simp
  | panic => exact absurd rfl hx

theorem foldlM_ne_panic {f : σ → α → Outcome ε σ} (hf : ∀ s x, f s x ≠ .panic) (xs : List α) (s : σ) :
    xs.foldlM f s ≠ .panic := by
  induction xs generalizing s with
  | nil => simp
  | cons x xs ih =>
      rw [List.foldlM_cons]
      exact bind_ne_panic (hf s x) fun t _ => ih t

theorem forM_eq_ok {f : α → Outcome ε PUnit} (xs : List α) : xs.forM f = .ok () ↔ ∀ x ∈ xs, f x = .ok () := by
  induction xs with
  | nil => simp
  | cons x xs ih =>
      have hcons : (x :: xs).forM f = (f x >>= fun _ => xs.forM f) := rfl
      rw [hcons, unit_bind_eq_ok, ih]
      simp

theorem forM_ne_panic {f : α → Outcome ε PUnit} (hf : ∀ x, f x ≠ .panic) (xs : List α) : xs.forM f ≠ .panic := by
  induction xs with
  | nil => simp
  | cons x xs ih => exact bind_ne_panic (hf x) fun _ _ => ih

def isOk : Outcome ε α → Bool
  | .ok _ => true
  | _ => false

@[simp] theorem isOk_ok (a : α) : (Outcome.ok a : Outcome ε α).isOk = true := rfl

@[simp] theorem isOk_err (e : ε) : (Outcome.err e : Outcome ε α).isOk = false := rfl

@[simp] theorem isOk_panic : (Outcome.panic : Outcome ε α).isOk = false := rfl

theorem isOk_iff {x : Outcome ε α} : x.isOk = true ↔ ∃ a, x = .ok a := by
  cases x <;> simp

def toOption : Outcome ε α → Option α
  | .ok a => some a
  | _ => none

@[simp] theorem toOption_ok (a : α) : (Outcome.ok a : Outcome ε α).toOption = some a := rfl

@[simp] theorem toOption_err (e : ε) : (Outcome.err e : Outcome ε α).toOption = none := rfl

@[simp] theorem toOption_panic : (Outcome.panic : Outcome ε α).toOption = none := rfl

@[simp] theorem toOption_bind (x : Outcome ε α) (f : α → Outcome ε β) :
    (x >>= f).toOption = x.toOption.bind (fun a => (f a).toOption) := by
  cases x <;> rfl

theorem toOption_eq_some {x : Outcome ε α} {a : α} : x.toOption = some a ↔ x = .ok a := by
  cases x <;> simp

theorem isSome_toOption (x : Outcome ε α) : x.toOption.isSome = x.isOk := by
  cases x <;> rfl

def mapErr {δ : Type} (f : ε → δ) : Outcome ε α → Outcome δ α
  | .ok a => .ok a
  | .err e => .err (f e)
  | .panic => .panic

theorem mapErr_eq_ok {δ : Type} {f : ε → δ} {x : Outcome ε α} {a : α} : x.mapErr f = .ok a ↔ x = .ok a := by
  cases x <;> simp [mapErr]

/-- `for (index, x) in xs.iter().enumerate()`, threading a mutable state and
stopping at the first error or panic. -/
def forEnum (f : Nat → α → σ → Outcome ε σ) : Nat → List α → σ → Outcome ε σ
  | _, [], s => .ok s
  | i, x :: xs, s => f i x s >>= forEnum f (i + 1) xs

@[simp] theorem forEnum_nil (f : Nat → α → σ → Outcome ε σ) (i : Nat) (s : σ) :
    forEnum f i [] s = .ok s := rfl

@[simp] theorem forEnum_cons (f : Nat → α → σ → Outcome ε σ) (i : Nat) (x : α) (xs : List α) (s : σ) :
    forEnum f i (x :: xs) s = (f i x s >>= forEnum f (i + 1) xs) := rfl

theorem forEnum_ne_panic {f : Nat → α → σ → Outcome ε σ} (hf : ∀ i x s, f i x s ≠ .panic) (xs : List α)
    (i : Nat) (s : σ) : forEnum f i xs s ≠ .panic := by
  induction xs generalizing i s with
  | nil => simp
  | cons x xs ih =>
      rw [forEnum_cons]
      exact bind_ne_panic (hf i x s) fun t _ => ih (i + 1) t

/-- The loop rule for a completed enumeration: an invariant indexed by the
number of processed items that every successful body keeps. -/
theorem forEnum_invariant (f : Nat → α → σ → Outcome ε σ) (P : Nat → σ → Prop)
    (start : Nat) (xs : List α) (s t : σ)
    (hbody : ∀ i x s s', xs[i]? = some x → P (start + i) s → f (start + i) x s = .ok s' →
      P (start + i + 1) s')
    (hs : P start s) (h : forEnum f start xs s = .ok t) : P (start + xs.length) t := by
  induction xs generalizing start s with
  | nil =>
      simp only [forEnum_nil, ok.injEq] at h
      simpa [h] using hs
  | cons x xs ih =>
      rw [forEnum_cons, bind_eq_ok] at h
      obtain ⟨s', hf, hrest⟩ := h
      have hs' : P (start + 1) s' := hbody 0 x s s' rfl hs hf
      have hnext := ih (start + 1) s' (fun i y u u' hi hu hy => by
        have := hbody (i + 1) y u u' (by simpa using hi)
        simp only [show start + (i + 1) = start + 1 + i from by omega] at this
        exact this hu hy) hs' hrest
      simpa [Nat.add_assoc, Nat.add_comm 1] using hnext

/-- The loop rule for success: a body that succeeds and keeps the invariant
takes the loop to its end. -/
theorem forEnum_completes (f : Nat → α → σ → Outcome ε σ) (P : Nat → σ → Prop)
    (start : Nat) (xs : List α) (s : σ)
    (hbody : ∀ i x s, xs[i]? = some x → P (start + i) s → ∃ s', f (start + i) x s = .ok s' ∧ P (start + i + 1) s')
    (hs : P start s) : ∃ t, forEnum f start xs s = .ok t ∧ P (start + xs.length) t := by
  induction xs generalizing start s with
  | nil => exact ⟨s, rfl, hs⟩
  | cons x xs ih =>
      obtain ⟨s', hf, hs'⟩ := hbody 0 x s rfl hs
      have hrest : ∀ i y u, xs[i]? = some y → P (start + 1 + i) u →
          ∃ u', f (start + 1 + i) y u = .ok u' ∧ P (start + 1 + i + 1) u' := by
        intro i y u hy hu
        have hnext := hbody (i + 1) y u (by simpa using hy)
        rw [show start + (i + 1) = start + 1 + i from by omega] at hnext
        exact hnext hu
      obtain ⟨t, ht, hend⟩ := ih (start + 1) s' hrest hs'
      refine ⟨t, by rw [forEnum_cons, bind_eq_ok]; exact ⟨s', hf, ht⟩, ?_⟩
      rwa [List.length_cons, show start + (xs.length + 1) = start + 1 + xs.length from by omega]

/-- Loops whose bodies accept the same items with the same new state accept
the same lists. -/
theorem forEnum_toOption_congr {δ : Type} (f : Nat → α → σ → Outcome ε σ) (g : Nat → α → σ → Outcome δ σ)
    (start : Nat) (xs : List α) (s : σ)
    (h : ∀ i x s, xs[i]? = some x → (f (start + i) x s).toOption = (g (start + i) x s).toOption) :
    (forEnum f start xs s).toOption = (forEnum g start xs s).toOption := by
  induction xs generalizing start s with
  | nil => rfl
  | cons x xs ih =>
      simp only [forEnum_cons, toOption_bind]
      rw [show (f start x s).toOption = (g start x s).toOption from h 0 x s rfl]
      congr 1
      funext t
      apply ih (start + 1) t
      intro i y u hy
      have := h (i + 1) y u (by simpa using hy)
      rwa [show start + (i + 1) = start + 1 + i from by omega] at this

/-- A stateless check passes over a list exactly when it passes at every
index. -/
theorem forEnum_check (f : Nat → α → Outcome ε Unit) (start : Nat) (xs : List α) :
    forEnum (fun i x _ => f i x) start xs () = .ok () ↔
      ∀ i x, xs[i]? = some x → f (start + i) x = .ok () := by
  induction xs generalizing start with
  | nil => simp
  | cons x xs ih =>
      rw [forEnum_cons, bind_eq_ok]
      constructor
      · rintro ⟨u, hx, hrest⟩ i y hy
        cases i with
        | zero =>
            simp only [List.getElem?_cons_zero, Option.some.injEq] at hy
            subst hy
            exact hx
        | succ i =>
            have := (ih (start + 1)).mp hrest i y (by simpa using hy)
            rwa [show start + (i + 1) = start + 1 + i from by omega]
      · intro h
        refine ⟨(), h 0 x rfl, (ih (start + 1)).mpr ?_⟩
        intro i y hy
        have := h (i + 1) y (by simpa using hy)
        rwa [show start + (i + 1) = start + 1 + i from by omega] at this

/-- A loop that appends one result per item returns them in order. -/
theorem forEnum_collect (f : Nat → α → Outcome ε β) (xs : List α) {ys : List β}
    (h : forEnum (fun i x acc => do
      let y ← f i x
      .ok (acc ++ [y])) 0 xs [] = .ok ys) :
    ys.length = xs.length ∧ ∀ i x, xs[i]? = some x → ∃ y, ys[i]? = some y ∧ f i x = .ok y := by
  have hinv := forEnum_invariant _ (fun k acc => acc.length = k ∧
    ∀ i x, i < k → xs[i]? = some x → ∃ y, acc[i]? = some y ∧ f i x = .ok y) 0 xs [] ys ?_ ⟨rfl, by simp⟩ h
  · simp only [Nat.zero_add] at hinv
    refine ⟨hinv.1, fun i x hx => hinv.2 i x ?_ hx⟩
    exact (List.getElem?_eq_some_iff.mp hx).1
  · intro i x acc acc' hx hacc hbody
    simp only [Nat.zero_add] at hacc hbody ⊢
    rw [bind_eq_ok] at hbody
    obtain ⟨y, hy, hacc'⟩ := hbody
    rw [ok.injEq] at hacc'
    subst hacc'
    refine ⟨by simp [hacc.1], ?_⟩
    intro j z hj hz
    rcases Nat.lt_succ_iff_lt_or_eq.mp hj with hj | rfl
    · obtain ⟨w, hw, hfw⟩ := hacc.2 j z hj hz
      exact ⟨w, by rw [List.getElem?_append_left (hacc.1 ▸ hj)]; exact hw, hfw⟩
    · rw [hx, Option.some.injEq] at hz
      subst hz
      exact ⟨y, by simp [← hacc.1], hy⟩

/-- Every error the call can return satisfies `P`. -/
def ErrIn (P : ε → Prop) (x : Outcome ε α) : Prop := ∀ e, x = .err e → P e

variable {P : ε → Prop}

@[simp] theorem errIn_ok (a : α) : ErrIn P (.ok a : Outcome ε α) := fun _ h => nomatch h

@[simp] theorem errIn_panic : ErrIn P (.panic : Outcome ε α) := fun _ h => nomatch h

@[simp] theorem errIn_err (e : ε) : ErrIn P (.err e : Outcome ε α) ↔ P e := by
  constructor
  · intro h
    exact h e rfl
  · rintro h _ ⟨⟩
    exact h

theorem errIn_bind {x : Outcome ε α} {f : α → Outcome ε β} (hx : ErrIn P x)
    (hf : ∀ a, x = .ok a → ErrIn P (f a)) : ErrIn P (x >>= f) := by
  cases x with
  | ok a => exact hf a rfl
  | err e =>
      rw [err_bind, errIn_err]
      exact hx e rfl
  | panic => exact errIn_panic

/-- The call returns a value with `P` or an error with `E`; it does not panic. -/
def Yields (E : ε → Prop) (P : α → Prop) : Outcome ε α → Prop
  | .ok a => P a
  | .err e => E e
  | .panic => False

namespace Yields

variable {E : ε → Prop} {P : α → Prop} {Q : β → Prop}

theorem bind {x : Outcome ε α} {f : α → Outcome ε β} (hx : x.Yields E P) (hf : ∀ a, P a → (f a).Yields E Q) :
    (x >>= f).Yields E Q := by
  cases x with
  | ok a => exact hf a hx
  | err e => exact hx
  | panic => exact hx.elim

theorem mono {Q : α → Prop} {E' : ε → Prop} {x : Outcome ε α} (h : x.Yields E P) (hE : ∀ e, E e → E' e)
    (hP : ∀ a, P a → Q a) : x.Yields E' Q := by
  cases x with
  | ok a => exact hP a h
  | err e => exact hE e h
  | panic => exact h.elim

theorem imp {Q : α → Prop} {x : Outcome ε α} (h : x.Yields E P) (hP : ∀ a, P a → Q a) : x.Yields E Q :=
  h.mono (fun _ => id) hP

theorem of_eq {x : Outcome ε α} {a : α} (h : x = .ok a) (ha : P a) : x.Yields E P := by
  rw [h]
  exact ha

end Yields

end Outcome

end TheKernel
