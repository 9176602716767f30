import Mathlib.Logic.Relation
import Mathlib.Data.Finset.Card
import Mathlib.Data.Finset.Range
import Mathlib.Data.List.Chain

namespace TheKernel

/-- A walk of `n` links from `a` to `b`. -/
inductive Walk {α : Type} (R : α → α → Prop) : Nat → α → α → Prop
  | nil (a) : Walk R 0 a a
  | cons {n a b c} (h : R a b) (w : Walk R n b c) : Walk R (n + 1) a c

def Acyclic {α : Type} (R : α → α → Prop) : Prop := ∀ a, ¬ Relation.TransGen R a a

/-- `R` with the link from `p` to `c`. -/
def Joined {α : Type} (R : α → α → Prop) (p c : α) : α → α → Prop := fun a b => R a b ∨ (a = p ∧ b = c)

/-- `d` is the length of the longest walk from `a`. -/
def IsDepth {α : Type} (R : α → α → Prop) (a : α) (d : Nat) : Prop :=
  (∃ b, Walk R d a b) ∧ ∀ n b, Walk R n a b → n ≤ d

variable {α : Type} {R S : α → α → Prop} {a b c p : α} {m n : Nat}

theorem Walk.single (h : R a b) : Walk R 1 a b := .cons h (.nil b)

theorem Walk.append (w : Walk R m a b) (w' : Walk R n b c) : Walk R (m + n) a c := by
  induction w with
  | nil a => simpa using w'
  | cons h _ ih =>
      rw [Nat.add_right_comm]
      exact .cons h (ih w')

theorem Walk.exists_last (w : Walk R (n + 1) a c) : ∃ b, Walk R n a b ∧ R b c := by
  induction n generalizing a with
  | zero =>
      cases w with
      | cons h w =>
          cases w
          exact ⟨a, .nil a, h⟩
  | succ n ih =>
      cases w with
      | cons h w =>
          obtain ⟨b, hb, hlast⟩ := ih w
          exact ⟨b, .cons h hb, hlast⟩

theorem Walk.flip (w : Walk R n a b) : Walk (fun x y => R y x) n b a := by
  induction w with
  | nil a => exact .nil a
  | cons h _ ih => exact ih.append (.single h)

theorem Walk.mono (hRS : ∀ a b, R a b → S a b) (w : Walk R n a b) : Walk S n a b := by
  induction w with
  | nil a => exact .nil a
  | cons h _ ih => exact .cons (hRS _ _ h) ih

theorem Walk.reflTransGen (w : Walk R n a b) : Relation.ReflTransGen R a b := by
  induction w with
  | nil a => exact .refl
  | cons h _ ih => exact .head h ih

theorem exists_walk (h : Relation.ReflTransGen R a b) : ∃ n, Walk R n a b := by
  induction h using Relation.ReflTransGen.head_induction_on with
  | refl => exact ⟨0, .nil b⟩
  | head h _ ih =>
      obtain ⟨n, w⟩ := ih
      exact ⟨n + 1, .cons h w⟩

theorem Acyclic.mono (hRS : ∀ a b, R a b → S a b) (h : Acyclic S) : Acyclic R := by
  intro a ha
  exact h a (Relation.TransGen.mono hRS a a ha)

theorem Acyclic.flip (h : Acyclic R) : Acyclic fun a b => R b a := by
  intro a ha
  exact h a (Relation.transGen_swap.mp ha)

theorem Acyclic.ne (h : Acyclic R) (hab : Relation.TransGen R a b) : a ≠ b := by
  rintro rfl
  exact h a hab

theorem Walk.transGen (w : Walk R (n + 1) a b) : Relation.TransGen R a b := by
  cases w with
  | cons h w => exact .head' h w.reflTransGen

theorem Walk.exists_chain {Live : α → Prop} (hlive : ∀ a b, R a b → Live b) (w : Walk R n a b) (ha : Live a) :
    ∃ l : List α, l.length = n ∧ (a :: l).IsChain R ∧ ∀ x ∈ a :: l, Live x := by
  induction w with
  | nil a => exact ⟨[], rfl, .singleton a, by simpa using ha⟩
  | @cons n a b c h _ ih =>
      obtain ⟨l, hl, hchain, hall⟩ := ih (hlive a b h)
      refine ⟨b :: l, by simp [hl], .cons_cons h hchain, ?_⟩
      intro x hx
      rcases List.mem_cons.mp hx with rfl | hx
      · exact ha
      · exact hall x hx

/-- Where links join numbered vertices, an acyclic relation has no walk as
long as the numbers are many. -/
theorem Acyclic.walk_lt (hR : Acyclic R) {number : α → Nat} {bound : Nat} {Live : α → Prop}
    (hlive : ∀ a b, R a b → Live b) (hnumber : ∀ a, Live a → number a < bound)
    (hinj : ∀ a b, Live a → Live b → number a = number b → a = b) (ha : Live a) (w : Walk R n a b) : n < bound := by
  obtain ⟨l, hl, hchain, hall⟩ := w.exists_chain hlive ha
  have hnodup : (a :: l).Nodup := by
    have htrans : (a :: l).IsChain (Relation.TransGen R) := hchain.imp fun _ _ => .single
    have hpair : (a :: l).Pairwise (Relation.TransGen R) := htrans.pairwise
    exact hpair.imp fun h => hR.ne h
  have hnumbers : ((a :: l).map number).Nodup := hnodup.map_on fun x hx y hy => hinj x y (hall x hx) (hall y hy)
  have hcard := Finset.card_le_card (s := ((a :: l).map number).toFinset) (t := Finset.range bound) ?_
  · rw [List.toFinset_card_of_nodup hnumbers, Finset.card_range] at hcard
    simp only [List.length_map, List.length_cons, hl] at hcard
    omega
  · intro k hk
    rw [List.mem_toFinset, List.mem_map] at hk
    obtain ⟨x, hx, rfl⟩ := hk
    exact Finset.mem_range.mpr (hnumber x (hall x hx))

/-- While `c` does not lead back to `p`, a walk takes the new link at most
once. -/
theorem Walk.of_joined (hcp : ¬ Relation.ReflTransGen R c p) (w : Walk (Joined R p c) n a b) :
    Walk R n a b ∨ ∃ i j, n = i + 1 + j ∧ Walk R i a p ∧ Walk R j c b := by
  induction w with
  | nil a => exact .inl (.nil a)
  | @cons n a x b h _ ih =>
      rcases h with h | ⟨rfl, rfl⟩
      · rcases ih with w | ⟨i, j, hn, wi, wj⟩
        · exact .inl (.cons h w)
        · exact .inr ⟨i + 1, j, by omega, .cons h wi, wj⟩
      · rcases ih with w | ⟨i, j, hn, wi, wj⟩
        · exact .inr ⟨0, n, by omega, .nil _, w⟩
        · exact absurd wi.reflTransGen hcp

theorem acyclic_joined (hR : Acyclic R) : Acyclic (Joined R p c) ↔ ¬ Relation.ReflTransGen R c p := by
  constructor
  · intro h hcp
    have hjoined : Relation.ReflTransGen (Joined R p c) c p :=
      Relation.ReflTransGen.mono (fun _ _ h => Or.inl h) c p hcp
    exact h p (.head' (.inr ⟨rfl, rfl⟩) hjoined)
  · intro hcp a ha
    obtain ⟨x, hax, hxa⟩ := Relation.TransGen.head'_iff.mp ha
    obtain ⟨n, w⟩ := exists_walk hxa
    rcases (Walk.cons hax w).of_joined hcp with w | ⟨i, j, _, wi, wj⟩
    · exact hR a w.transGen
    · exact hcp (wj.append wi).reflTransGen

end TheKernel
