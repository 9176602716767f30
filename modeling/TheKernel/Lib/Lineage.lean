import Mathlib.Algebra.Order.Ring.Int
import Mathlib.Data.List.Basic
import Mathlib.Order.MinMax

namespace TheKernel.Lineage

variable {α ι κ : Type}

/-- A family of shared immutable chains, newest node first: a node's key
determines the node and everything below it. -/
def Identified (key : α → ι) (chains : List (List α)) : Prop :=
  ∀ c ∈ chains, ∀ d ∈ chains, ∀ x xs y ys, x :: xs <:+ c → y :: ys <:+ d → key x = key y → x :: xs = y :: ys

/-- A head found by key on another chain of the family makes the whole chain
a suffix there. -/
theorem suffix_of_key_mem {key : α → ι} {chains : List (List α)} (h : Identified key chains) {x y : α}
    {xs d : List α} (hc : x :: xs ∈ chains) (hd : d ∈ chains) (hy : y ∈ d) (hk : key x = key y) :
    x :: xs <:+ d := by
  obtain ⟨above, below, rfl⟩ := List.append_of_mem hy
  have hs : y :: below <:+ above ++ y :: below := List.suffix_append above _
  rw [h _ hc _ hd x xs y below (List.suffix_refl _) hs hk]
  exact hs

/-- A chain grown from a member by a node whose key is nowhere in the family
may join it. -/
theorem identified_insert {key : α → ι} {chains : List (List α)} (h : Identified key chains) {n : α}
    {base : List α} (hbase : base ∈ chains) (hfresh : ∀ c ∈ chains, ∀ x ∈ c, key x ≠ key n) :
    Identified key ((n :: base) :: chains) := by
  have split : ∀ c ∈ (n :: base) :: chains, ∀ x xs, x :: xs <:+ c →
      x :: xs = n :: base ∨ ∃ d ∈ chains, x :: xs <:+ d := by
    intro c hc x xs hs
    rcases List.mem_cons.mp hc with rfl | hc
    · rcases List.suffix_cons_iff.mp hs with he | hs
      · exact .inl he
      · exact .inr ⟨base, hbase, hs⟩
    · exact .inr ⟨c, hc, hs⟩
  have apart : ∀ d ∈ chains, ∀ x xs, x :: xs <:+ d → key x ≠ key n := by
    intro d hd x xs hs
    exact hfresh d hd x (hs.subset (List.mem_cons_self))
  intro c hc d hd x xs y ys hx hy hk
  rcases split c hc x xs hx with hx | ⟨c', hc', hx⟩ <;> rcases split d hd y ys hy with hy | ⟨d', hd', hy⟩
  · rw [hx, hy]
  · obtain ⟨rfl, rfl⟩ := List.cons.inj hx
    exact absurd hk.symm (apart d' hd' y ys hy)
  · obtain ⟨rfl, rfl⟩ := List.cons.inj hy
    exact absurd hk (apart c' hc' x xs hx)
  · exact h c' hc' d' hd' x xs y ys hx hy hk

section Least

variable [LinearOrder κ] {β : Type}

/-- A scan that keeps its current choice unless an item is strictly less. -/
def keepLess (rank : β → κ) (choice : α → β) (selected : β) (x : α) : β :=
  if rank (choice x) < rank selected then choice x else selected

variable {rank : β → κ} {choice : α → β}

theorem rank_keepLess (rank : β → κ) (choice : α → β) (s : β) (x : α) :
    rank (keepLess rank choice s x) = min (rank (choice x)) (rank s) := by
  rw [keepLess]
  split
  · next h => exact (min_eq_left h.le).symm
  · next h => exact (min_eq_right (not_lt.mp h)).symm

theorem rank_foldl_mono {s t : β} (c : List α) (h : rank s ≤ rank t) :
    rank (c.foldl (keepLess rank choice) s) ≤ rank (c.foldl (keepLess rank choice) t) := by
  induction c generalizing s t with
  | nil => exact h
  | cons x c ih =>
      apply ih
      rw [rank_keepLess rank, rank_keepLess rank]
      exact min_le_min_left _ h

theorem rank_foldl_le (c : List α) (s : β) : rank (c.foldl (keepLess rank choice) s) ≤ rank s := by
  induction c generalizing s with
  | nil => exact le_refl _
  | cons x c ih =>
      apply (ih _).trans
      rw [rank_keepLess rank]
      exact min_le_right _ _

/-- Growing a chain at its newest end only lowers the rank that the scan from
newest to oldest selects. -/
theorem rank_foldl_suffix {c d : List α} (h : c <:+ d) (s : β) :
    rank (d.foldl (keepLess rank choice) s) ≤ rank (c.foldl (keepLess rank choice) s) := by
  obtain ⟨above, rfl⟩ := h
  rw [List.foldl_append]
  exact rank_foldl_mono c (rank_foldl_le above s)

end Least

end TheKernel.Lineage
