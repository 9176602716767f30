import Mathlib.Data.List.Sort
import Mathlib.Data.List.Chain

namespace TheKernel

def sortByKey {α : Type} (key : α → Nat) (xs : List α) : List α := xs.insertionSort (fun a b => key a ≤ key b)

/-- Halve `[left, right)` down to the first element that fails `p`. -/
def partitionPoint {α : Type} (p : α → Bool) (xs : List α) (left right : Nat) : Nat :=
  if left < right then
    let middle := left + (right - left) / 2
    if xs[middle]?.any p then partitionPoint p xs (middle + 1) right else partitionPoint p xs left middle
  else left
termination_by right - left

section Search

variable {α : Type} {p : α → Bool} {xs : List α} {left right : Nat}

theorem partitionPoint_spec (hsorted : xs.Pairwise fun a b => p b = true → p a = true) (hle : left ≤ right)
    (hright : right ≤ xs.length) (hbefore : ∀ i x, xs[i]? = some x → i < left → p x = true)
    (hafter : ∀ i x, xs[i]? = some x → right ≤ i → p x = false) :
    partitionPoint p xs left right ≤ xs.length ∧
      ∀ i x, xs[i]? = some x → (i < partitionPoint p xs left right ↔ p x = true) := by
  have hmono : ∀ (i j : Nat) (x y : α), xs[i]? = some x → xs[j]? = some y → i < j → p y = true → p x = true := by
    intro i j x y hx hy hij
    obtain ⟨hi, rfl⟩ := List.getElem?_eq_some_iff.mp hx
    obtain ⟨hj, rfl⟩ := List.getElem?_eq_some_iff.mp hy
    exact List.pairwise_iff_getElem.mp hsorted i j hi hj hij
  fun_induction partitionPoint p xs left right with
  | case1 left right hlt middle hp ih =>
      obtain ⟨y, hy, hpy⟩ := (Option.any_eq_true _ _).mp hp
      apply ih (by omega) hright
      · intro i x hx hi
        by_cases him : i = middle
        · subst him
          rw [hy] at hx
          cases hx
          exact hpy
        · exact hmono i middle x y hx hy (by omega) hpy
      · exact hafter
  | case2 left right hlt middle hp ih =>
      apply ih (by omega) (by omega) hbefore
      intro i x hx hi
      by_contra hpx
      rw [Bool.not_eq_false] at hpx
      obtain ⟨y, hy⟩ : ∃ y, xs[middle]? = some y := ⟨_, List.getElem?_eq_getElem (by omega)⟩
      have hpy : p y = true := by
        by_cases him : i = middle
        · subst him
          rw [hy] at hx
          cases hx
          exact hpx
        · exact hmono middle i y x hy hx (by omega) hpx
      exact hp (by rw [hy]; exact hpy)
  | case3 left right hlt =>
      refine ⟨by omega, fun i x hx => ⟨hbefore i x hx, fun hpx => ?_⟩⟩
      by_contra hi
      rw [hafter i x hx (by omega)] at hpx
      cases hpx

end Search

section Ranges

variable {α : Type} (start stop : α → Nat)

def Apart (a b : α) : Prop := stop a ≤ start b ∨ stop b ≤ start a

variable {start stop} {a b : α} {xs ys : List α} {n : Nat}

theorem Apart.symm (h : Apart start stop a b) : Apart start stop b a := Or.symm h

theorem mem_sortByKey {key : α → Nat} : a ∈ sortByKey key xs ↔ a ∈ xs := List.mem_insertionSort _

theorem perm_sortByKey (key : α → Nat) (xs : List α) : (sortByKey key xs).Perm xs := List.perm_insertionSort _ _

theorem sorted_sortByKey (key : α → Nat) (xs : List α) : (sortByKey key xs).Pairwise fun a b => key a ≤ key b := by
  have : Std.Total fun a b => key a ≤ key b := ⟨fun a b => Nat.le_total _ _⟩
  have : IsTrans α fun a b => key a ≤ key b := ⟨fun _ _ _ => Nat.le_trans⟩
  exact List.pairwise_insertionSort _ _

theorem pairwise_apart_perm (h : xs.Perm ys) : xs.Pairwise (Apart start stop) ↔ ys.Pairwise (Apart start stop) :=
  h.pairwise_iff Apart.symm

/-- Ranges in the order of their starts are apart when neighbours are. -/
theorem isChain_iff_apart (xs : List α) (hne : ∀ x ∈ xs, start x < stop x)
    (hsorted : xs.Pairwise fun a b => start a ≤ start b) :
    (xs.IsChain fun a b => stop a ≤ start b) ↔ xs.Pairwise (Apart start stop) := by
  induction xs with
  | nil => simp
  | cons x xs ih =>
      obtain ⟨hx, hxs⟩ := List.pairwise_cons.mp hsorted
      have hrest := ih (fun y hy => hne y (List.mem_cons_of_mem x hy)) hxs
      rw [List.isChain_cons, List.pairwise_cons, hrest]
      refine and_congr_left fun hapart => ?_
      constructor
      · intro hhead y hy
        cases xs with
        | nil => cases hy
        | cons z zs =>
            have hz : stop x ≤ start z := hhead z (by simp)
            rcases List.mem_cons.mp hy with rfl | hy
            · exact .inl hz
            · exact .inl (hz.trans ((List.pairwise_cons.mp hxs).1 y hy))
      · intro hall y hy
        have hmem := List.mem_of_mem_head? hy
        have hne' := hne y (List.mem_cons_of_mem x hmem)
        have hle := hx y hmem
        rcases hall y hmem with h | h
        · exact h
        · omega

/-- The one range that holds a number is the last that starts no later. -/
theorem lookup_apart (hne : ∀ x ∈ xs, start x < stop x) (hsorted : xs.Pairwise fun a b => start a ≤ start b)
    (hapart : xs.Pairwise (Apart start stop)) (n : Nat) :
    (partitionPoint (fun x => start x ≤ n) xs 0 xs.length ≠ 0 ∧
      xs[partitionPoint (fun x => start x ≤ n) xs 0 xs.length - 1]? = some a ∧ n < stop a) ↔
    a ∈ xs ∧ start a ≤ n ∧ n < stop a := by
  obtain ⟨hlen, hpoint⟩ := partitionPoint_spec (p := fun x => start x ≤ n) (hsorted.imp fun {a b} hab hb => by
    simp only [decide_eq_true_eq] at hb ⊢
    exact hab.trans hb) (Nat.zero_le _) le_rfl nofun fun i x hx hi => absurd (List.getElem?_eq_some_iff.mp hx).1
      (by omega)
  simp only [decide_eq_true_eq] at hpoint
  generalize partitionPoint (fun x => start x ≤ n) xs 0 xs.length = point at hlen hpoint
  constructor
  · rintro ⟨hzero, ha, hn⟩
    exact ⟨List.mem_of_getElem? ha, (hpoint _ a ha).mp (by omega), hn⟩
  · rintro ⟨hmem, hle, hn⟩
    obtain ⟨i, hi⟩ := List.mem_iff_getElem?.mp hmem
    have hlt := (hpoint i a hi).mpr hle
    refine ⟨by omega, ?_, hn⟩
    by_cases hlast : i = point - 1
    · rwa [hlast] at hi
    · obtain ⟨b, hb⟩ : ∃ b, xs[point - 1]? = some b := ⟨_, List.getElem?_eq_getElem (by omega)⟩
      have hbn := (hpoint _ b hb).mp (by omega)
      obtain ⟨hi', rfl⟩ := List.getElem?_eq_some_iff.mp hi
      obtain ⟨hb', rfl⟩ := List.getElem?_eq_some_iff.mp hb
      have hlt' : i < point - 1 := by omega
      have hab := List.pairwise_iff_getElem.mp hapart i (point - 1) hi' hb' hlt'
      have hstart := List.pairwise_iff_getElem.mp hsorted i (point - 1) hi' hb' hlt'
      have hnonempty := hne _ (List.getElem_mem hb')
      unfold Apart at hab
      omega

end Ranges

end TheKernel
