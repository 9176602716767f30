import TheKernel.Lib.Outcome

namespace TheKernel

/-- A method on `&mut self`: its result, and the object as it stands when the
method returns, also when it fails. -/
def Act (σ ε α : Type) : Type := σ → Outcome ε α × σ

namespace Act

variable {σ ε α β : Type}

def bind (x : Act σ ε α) (f : α → Act σ ε β) : Act σ ε β := fun s =>
  match x s with
  | (.ok a, t) => f a t
  | (.err e, t) => (.err e, t)
  | (.panic, t) => (.panic, t)

instance : Monad (Act σ ε) where
  pure a := fun s => (.ok a, s)
  bind := bind

def get : Act σ ε σ := fun s => (.ok s, s)

def set (t : σ) : Act σ ε Unit := fun _ => (.ok (), t)

def modify (f : σ → σ) : Act σ ε Unit := fun s => (.ok (), f s)

def lift (x : Outcome ε α) : Act σ ε α := fun s => (x, s)

def fail (e : ε) : Act σ ε α := fun s => (.err e, s)

def onCopy (x : Act σ ε α) (s : σ) : Outcome ε σ :=
  match x s with
  | (.ok _, t) => .ok t
  | (.err e, _) => .err e
  | (.panic, _) => .panic

def zoom {τ : Type} (view : σ → τ) (update : τ → σ → σ) (x : Act τ ε α) : Act σ ε α := fun s =>
  ((x (view s)).1, update (x (view s)).2 s)

def mapErr {δ : Type} (f : ε → δ) (x : Act σ ε α) : Act σ δ α := fun s => ((x s).1.mapErr f, (x s).2)

@[simp] theorem pure_apply (a : α) (s : σ) : (pure a : Act σ ε α) s = (.ok a, s) := rfl

@[simp] theorem get_apply (s : σ) : (get : Act σ ε σ) s = (.ok s, s) := rfl

@[simp] theorem set_apply (t s : σ) : (set t : Act σ ε Unit) s = (.ok (), t) := rfl

@[simp] theorem modify_apply (f : σ → σ) (s : σ) : (modify f : Act σ ε Unit) s = (.ok (), f s) := rfl

@[simp] theorem lift_apply (x : Outcome ε α) (s : σ) : (lift x : Act σ ε α) s = (x, s) := rfl

@[simp] theorem fail_apply (e : ε) (s : σ) : (fail e : Act σ ε α) s = (.err e, s) := rfl

theorem bind_apply (x : Act σ ε α) (f : α → Act σ ε β) (s : σ) :
    (x >>= f) s = match x s with
      | (.ok a, t) => f a t
      | (.err e, t) => (.err e, t)
      | (.panic, t) => (.panic, t) := rfl

/-- A last step that only computes the result leaves the object alone. -/
theorem bind_pure_snd (x : Act σ ε α) (f : α → β) (s : σ) : ((x >>= fun a => pure (f a)) s).2 = (x s).2 := by
  rw [bind_apply]
  rcases x s with ⟨o, t⟩
  cases o <;> rfl

@[simp] theorem get_bind (f : σ → Act σ ε β) (s : σ) : (get >>= f) s = f s s := rfl

@[simp] theorem lift_ok_bind (a : α) (f : α → Act σ ε β) (s : σ) : (lift (.ok a) >>= f) s = f a s := rfl

@[simp] theorem lift_err_bind (e : ε) (f : α → Act σ ε β) (s : σ) : (lift (.err e) >>= f) s = (.err e, s) := rfl

@[simp] theorem lift_panic_bind (f : α → Act σ ε β) (s : σ) :
    ((lift .panic : Act σ ε α) >>= f) s = (.panic, s) := rfl

@[simp] theorem set_bind (t : σ) (f : Unit → Act σ ε β) (s : σ) : (set t >>= f) s = f () t := rfl

@[simp] theorem modify_bind (g : σ → σ) (f : Unit → Act σ ε β) (s : σ) : (modify g >>= f) s = f () (g s) := rfl

theorem bind_eq_ok {x : Act σ ε α} {f : α → Act σ ε β} {s t : σ} {b : β} :
    (x >>= f) s = (.ok b, t) ↔ ∃ a u, x s = (.ok a, u) ∧ f a u = (.ok b, t) := by
  rw [bind_apply]
  constructor
  · intro h
    split at h
    · exact ⟨_, _, ‹_›, h⟩
    · cases h
    · cases h
  · rintro ⟨a, u, hx, hf⟩
    rw [hx]
    exact hf

theorem onCopy_eq_ok {x : Act σ ε α} {s t : σ} : x.onCopy s = .ok t ↔ ∃ a, x s = (.ok a, t) := by
  rw [onCopy]
  rcases x s with ⟨o, u⟩
  cases o <;> simp

theorem eq_ok_of_isOk {x : Act σ ε α} {s : σ} (h : (x s).1.isOk = true) : ∃ a, x s = (.ok a, (x s).2) := by
  rcases hres : x s with ⟨o, u⟩
  rw [hres] at h
  cases o with
  | ok a => exact ⟨a, rfl⟩
  | err e => cases h
  | panic => cases h

def ReadOnly (x : Act σ ε α) : Prop := ∀ s, (x s).2 = s

/-- The method changes the object only when it returns. -/
def Atomic (x : Act σ ε α) : Prop := ∀ s, (x s).1.isOk = false → (x s).2 = s

theorem readOnly_pure (a : α) : ReadOnly (pure a : Act σ ε α) := fun _ => rfl

theorem readOnly_get : ReadOnly (get : Act σ ε σ) := fun _ => rfl

theorem readOnly_lift (x : Outcome ε α) : ReadOnly (lift x : Act σ ε α) := fun _ => rfl

theorem readOnly_fail (e : ε) : ReadOnly (fail e : Act σ ε α) := fun _ => rfl

theorem ReadOnly.atomic {x : Act σ ε α} (h : ReadOnly x) : Atomic x := fun s _ => h s

theorem atomic_set (t : σ) : Atomic (set t : Act σ ε Unit) := fun _ h => by cases h

theorem atomic_modify (f : σ → σ) : Atomic (modify f : Act σ ε Unit) := fun _ h => by cases h

theorem atomic_fail (e : ε) : Atomic (fail e : Act σ ε α) := (readOnly_fail e).atomic

/-- Everything that can fail comes before the first change. -/
theorem Atomic.bind {x : Act σ ε α} {f : α → Act σ ε β} (hx : ReadOnly x) (hf : ∀ a, Atomic (f a)) :
    Atomic (x >>= f) := by
  intro s h
  have hs := hx s
  rw [bind_apply] at h ⊢
  rcases hres : x s with ⟨o, t⟩
  rw [hres] at h hs
  simp only at hs
  subst hs
  cases o with
  | ok a => exact hf a _ h
  | err e => rfl
  | panic => rfl

theorem atomic_ite {c : Prop} [Decidable c] {x y : Act σ ε α} (hx : Atomic x) (hy : Atomic y) :
    Atomic (if c then x else y) := by
  split
  · exact hx
  · exact hy

/-- `ok_or`, followed by `?`. -/
def okOr (o : Option α) (e : ε) : Act σ ε α := fun s =>
  match o with
  | some a => (.ok a, s)
  | none => (.err e, s)

/-- `expect` and `assert!`. -/
def expect (o : Option α) : Act σ ε α := fun s =>
  match o with
  | some a => (.ok a, s)
  | none => (.panic, s)

/-- `for x in xs`. -/
def each (f : α → Act σ ε Unit) : List α → Act σ ε Unit
  | [] => pure ()
  | x :: xs => f x >>= fun _ => each f xs

@[simp] theorem expect_some (a : α) (s : σ) : (expect (some a) : Act σ ε α) s = (.ok a, s) := rfl

@[simp] theorem expect_none (s : σ) : (expect none : Act σ ε α) s = (.panic, s) := rfl

/-- Run from `s`, the method returns only as `ok` says, fails only as `err`
says, and panics only if `panic` holds. -/
def Ensures (x : Act σ ε α) (s : σ) (ok : α → σ → Prop) (err : ε → σ → Prop) (panic : Prop) : Prop :=
  match x s with
  | (.ok a, t) => ok a t
  | (.err e, t) => err e t
  | (.panic, _) => panic

section Rules

variable {s t : σ} {p p' : α → σ → Prop} {q q' : ε → σ → Prop} {r r' : Prop} {x : Act σ ε α}

theorem Ensures.ok_of (h : Ensures x s p q r) {a : α} (hx : x s = (.ok a, t)) : p a t := by
  rw [Ensures, hx] at h
  exact h

theorem Ensures.err_of (h : Ensures x s p q r) {e : ε} (hx : x s = (.err e, t)) : q e t := by
  rw [Ensures, hx] at h
  exact h

theorem Ensures.panic_of (h : Ensures x s p q r) (hx : (x s).1 = .panic) : r := by
  rw [Ensures] at h
  rcases hres : x s with ⟨o, u⟩
  rw [hres] at h hx
  cases hx
  exact h

theorem Ensures.mono (h : Ensures x s p q r) (hok : ∀ a t, p a t → p' a t) (herr : ∀ e t, q e t → q' e t)
    (hpanic : r → r') : Ensures x s p' q' r' := by
  rw [Ensures] at h ⊢
  rcases hres : x s with ⟨o, u⟩
  rw [hres] at h
  cases o with
  | ok a => exact hok a u h
  | err e => exact herr e u h
  | panic => exact hpanic h

/-- A method that cannot fail, where failing would be allowed. -/
theorem Ensures.imp (h : Ensures x s p (fun _ _ => False) r) (hok : ∀ a t, p a t → p' a t)
    (hpanic : r → r') : Ensures x s p' q r' :=
  h.mono hok (fun _ _ => False.elim) hpanic

theorem Ensures.bind {f : α → Act σ ε β} {post : β → σ → Prop} (h : Ensures x s p q r)
    (hf : ∀ a t, p a t → Ensures (f a) t post q r) : Ensures (x >>= f) s post q r := by
  rw [Ensures] at h ⊢
  rw [bind_apply]
  rcases hres : x s with ⟨o, u⟩
  rw [hres] at h
  cases o with
  | ok a => exact hf a u h
  | err e => exact h
  | panic => exact h

theorem ensures_of_eq {a : α} (hx : x s = (.ok a, t)) (h : p a t) : Ensures x s p q r := by
  rw [Ensures, hx]
  exact h

theorem ensures_bind_of_eq {f : α → Act σ ε β} {post : β → σ → Prop} {a : α} (hx : x s = (.ok a, t))
    (h : Ensures (f a) t post q r) : Ensures (x >>= f) s post q r := by
  rw [Ensures, bind_apply, hx]
  exact h

theorem Ensures.final {p : σ → Prop} (h : Ensures x s (fun _ t => p t) (fun _ t => p t) False) : p (x s).2 := by
  rw [Ensures] at h
  rcases hres : x s with ⟨o, u⟩
  rw [hres] at h
  cases o with
  | ok a => exact h
  | err e => exact h
  | panic => exact h.elim

/-- A method that can neither fail nor panic returns. -/
theorem Ensures.returns (h : Ensures x s p (fun _ _ => False) False) : ∃ a t, x s = (.ok a, t) ∧ p a t := by
  rw [Ensures] at h
  rcases hres : x s with ⟨o, u⟩
  rw [hres] at h
  cases o with
  | ok a => exact ⟨a, u, rfl, h⟩
  | err e => exact h.elim
  | panic => exact h.elim

theorem ensures_pure {a : α} (h : p a s) : Ensures (pure a : Act σ ε α) s p q r := h

theorem ensures_fail {e : ε} (h : q e s) : Ensures (fail e : Act σ ε α) s p q r := h

theorem ensures_modify {f : σ → σ} {p : Unit → σ → Prop} (h : p () (f s)) :
    Ensures (modify f : Act σ ε Unit) s p q r := h

theorem ensures_get_bind {f : σ → Act σ ε β} {post : β → σ → Prop} (h : Ensures (f s) s post q r) :
    Ensures (get >>= f) s post q r := h

theorem ensures_set {p : Unit → σ → Prop} (h : p () t) : Ensures (set t : Act σ ε Unit) s p q r := h

theorem ensures_set_bind {f : Unit → Act σ ε β} {post : β → σ → Prop} (h : Ensures (f ()) t post q r) :
    Ensures (set t >>= f) s post q r := h

theorem ensures_modify_bind {g : σ → σ} {f : Unit → Act σ ε β} {post : β → σ → Prop}
    (h : Ensures (f ()) (g s) post q r) : Ensures (modify g >>= f) s post q r := h

theorem ensures_okOr_bind {o : Option α} {e : ε} {f : α → Act σ ε β} {post : β → σ → Prop}
    (hsome : ∀ a, o = some a → Ensures (f a) s post q r) (hnone : o = none → q e s) :
    Ensures (okOr o e >>= f) s post q r := by
  cases o with
  | some a => exact hsome a rfl
  | none => exact hnone rfl

theorem ensures_lift_bind {o : Outcome ε α} {f : α → Act σ ε β} {post : β → σ → Prop}
    (hok : ∀ a, o = .ok a → Ensures (f a) s post q r) (herr : ∀ e, o = .err e → q e s) (hpanic : o = .panic → r) :
    Ensures (lift o >>= f) s post q r := by
  cases o with
  | ok a => exact hok a rfl
  | err e => exact herr e rfl
  | panic => exact hpanic rfl

theorem ensures_lift {o : Outcome ε α} (hok : ∀ a, o = .ok a → p a s) (herr : ∀ e, o = .err e → q e s)
    (hpanic : o = .panic → r) : Ensures (lift o : Act σ ε α) s p q r := by
  rw [Ensures, lift_apply]
  cases o with
  | ok a => exact hok a rfl
  | err e => exact herr e rfl
  | panic => exact hpanic rfl

/-- A method called on a local object, of which only the result is kept. -/
theorem Ensures.lift_fst {τ : Type} {y : Act τ ε α} {u : τ} {p : α → Prop} {q : ε → Prop}
    (h : Ensures y u (fun a _ => p a) (fun e _ => q e) r) :
    Ensures (lift (y u).1 : Act σ ε α) s (fun a t => t = s ∧ p a) (fun e t => t = s ∧ q e) r := by
  rw [Ensures] at h ⊢
  rw [lift_apply]
  rcases hres : y u with ⟨o, v⟩
  rw [hres] at h
  cases o with
  | ok a => exact ⟨rfl, h⟩
  | err e => exact ⟨rfl, h⟩
  | panic => exact h

theorem Ensures.mapErr {δ : Type} {f : ε → δ} {q : δ → σ → Prop} (h : Ensures x s p (fun e t => q (f e) t) r) :
    Ensures (x.mapErr f) s p q r := by
  rw [Ensures] at h ⊢
  rw [Act.mapErr]
  rcases hres : x s with ⟨o, u⟩
  rw [hres] at h
  cases o with
  | ok a => exact h
  | err e => exact h
  | panic => exact h

/-- The loop rule: an invariant of the items done and the items left. -/
theorem ensures_each {f : α → Act σ ε Unit} {I : List α → List α → σ → Prop} (xs : List α) (h : I [] xs s)
    (hstep : ∀ done y rest t, I done (y :: rest) t →
      Ensures (f y) t (fun _ u => I (done ++ [y]) rest u) q r) :
    Ensures (each f xs) s (fun _ t => I xs [] t) q r := by
  suffices h' : ∀ rest done t, I done rest t → Ensures (each f rest) t (fun _ u => I (done ++ rest) [] u) q r by
    exact h' xs [] s h
  intro rest
  induction rest with
  | nil =>
      intro done t ht
      exact ensures_pure (by simpa using ht)
  | cons y rest ih =>
      intro done t ht
      refine (hstep done y rest t ht).bind fun _ u hu => ?_
      have hrest := ih (done ++ [y]) u hu
      simpa using hrest

/-- `for` with an early `return true`. -/
theorem ensures_anyM {f : β → Act σ ε Bool} {D : β → Prop} (xs : List β)
    (h : ∀ y ∈ xs, ∀ t, Ensures (f y) t (fun b _ => b = true ↔ D y) q r) :
    Ensures (xs.anyM f) s (fun b _ => b = true ↔ ∃ y ∈ xs, D y) q r := by
  induction xs generalizing s with
  | nil => exact ensures_pure (by simp)
  | cons y ys ih =>
      refine (h y (by simp) s).bind fun b t hb => ?_
      cases b with
      | true => exact ensures_pure (by simpa using .inl (hb.mp rfl))
      | false =>
          have hy : ¬ D y := by simpa using hb
          simpa [hy] using ih (fun z hz => h z (by simp [hz]))

/-- `for` with an accumulator: an invariant of the items done. -/
theorem ensures_foldlM {f : α → β → Act σ ε α} {I : List β → α → σ → Prop} {init : α} (xs : List β) (h : I [] init s)
    (hstep : ∀ done y a t, (∃ rest, xs = done ++ y :: rest) → I done a t →
      Ensures (f a y) t (fun b u => I (done ++ [y]) b u) q r) :
    Ensures (xs.foldlM f init) s (fun a t => I xs a t) q r := by
  suffices h' : ∀ rest done a t, xs = done ++ rest → I done a t →
      Ensures (rest.foldlM f a) t (fun b u => I (done ++ rest) b u) q r by
    exact h' xs [] init s rfl h
  intro rest
  induction rest with
  | nil =>
      intro done a t _ ha
      exact ensures_pure (by simpa using ha)
  | cons y rest ih =>
      intro done a t hxs ha
      refine (hstep done y a t ⟨rest, hxs⟩ ha).bind fun b u hb => ?_
      have hrest := ih (done ++ [y]) b u (by simp [hxs]) hb
      simpa using hrest

end Rules

def Keeps (p : σ → Prop) (x : Act σ ε α) : Prop := ∀ s, p s → p (x s).2

section Keeps

variable {p : σ → Prop}

theorem keeps_of_readOnly {x : Act σ ε α} (h : ReadOnly x) : Keeps p x := by
  intro s hs
  rw [h s]
  exact hs

theorem readOnly_okOr (o : Option α) (e : ε) : ReadOnly (okOr o e : Act σ ε α) := by
  intro s
  cases o <;> rfl

theorem readOnly_expect (o : Option α) : ReadOnly (expect o : Act σ ε α) := by
  intro s
  cases o <;> rfl

theorem Keeps.bind {x : Act σ ε α} {f : α → Act σ ε β} (hx : Keeps p x) (hf : ∀ a, Keeps p (f a)) :
    Keeps p (x >>= f) := by
  intro s hs
  have ht := hx s hs
  rw [bind_apply]
  rcases hres : x s with ⟨o, t⟩
  rw [hres] at ht
  cases o with
  | ok a => exact hf a t ht
  | err e => exact ht
  | panic => exact ht

theorem Keeps.get_bind {f : σ → Act σ ε β} (hf : ∀ s, Keeps p (f s)) : Keeps p (get >>= f) := fun s hs => hf s s hs

theorem Keeps.read {f : σ → Act σ ε β} (hf : ∀ s, p s → Keeps p (f s)) : Keeps p (get >>= f) := fun s hs => hf s hs s hs

theorem keeps_pure (a : α) : Keeps p (pure a : Act σ ε α) := keeps_of_readOnly (readOnly_pure a)

theorem keeps_fail (e : ε) : Keeps p (fail e : Act σ ε α) := keeps_of_readOnly (readOnly_fail e)

theorem keeps_lift (x : Outcome ε α) : Keeps p (lift x : Act σ ε α) := keeps_of_readOnly (readOnly_lift x)

theorem keeps_okOr (o : Option α) (e : ε) : Keeps p (okOr o e : Act σ ε α) := keeps_of_readOnly (readOnly_okOr o e)

theorem keeps_set {t : σ} (h : p t) : Keeps p (set t : Act σ ε Unit) := fun _ _ => h

theorem keeps_modify {f : σ → σ} (h : ∀ s, p s → p (f s)) : Keeps p (modify f : Act σ ε Unit) := h

theorem Keeps.mapErr {δ : Type} {f : ε → δ} {x : Act σ ε α} (h : Keeps p x) : Keeps p (x.mapErr f) := h

theorem keeps_foldlM {f : α → β → Act σ ε α} (hf : ∀ a b, Keeps p (f a b)) (xs : List β) (init : α) :
    Keeps p (xs.foldlM f init) := by
  induction xs generalizing init with
  | nil => exact keeps_of_readOnly (readOnly_pure init)
  | cons x xs ih => exact (hf init x).bind ih

theorem keeps_ite {c : Prop} [Decidable c] {x y : Act σ ε α} (hx : Keeps p x) (hy : Keeps p y) :
    Keeps p (if c then x else y) := by
  split
  · exact hx
  · exact hy

theorem keeps_each {f : α → Act σ ε Unit} (hf : ∀ a, Keeps p (f a)) (xs : List α) : Keeps p (each f xs) := by
  induction xs with
  | nil => exact keeps_of_readOnly (readOnly_pure ())
  | cons x xs ih => exact (hf x).bind fun _ => ih

end Keeps

end Act

end TheKernel
