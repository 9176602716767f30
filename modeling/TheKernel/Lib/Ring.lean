import Mathlib.Data.List.Rotate
import Mathlib.Data.Nat.ModEq

namespace TheKernel

/-- A ring buffer: `len` cells from `head` on are in use. -/
structure Ring (α : Type) where
  items : List α
  head : Nat
  len : Nat

namespace Ring

variable {α : Type} {r : Ring α} {i j : Nat} {x y : α}

def capacity (r : Ring α) : Nat := r.items.length

def cell (r : Ring α) (offset : Nat) : Option α := r.items[(r.head + offset) % r.capacity]?

def write (r : Ring α) (offset : Nat) (x : α) : Ring α :=
  { r with items := r.items.set ((r.head + offset) % r.capacity) x }

def push (r : Ring α) (x : α) : Option (Ring α) :=
  if r.len = r.capacity then none else some { r.write r.len x with len := r.len + 1 }

def pop (r : Ring α) : Option α × Ring α :=
  if r.len = 0 then (none, r) else (r.cell 0, { r with head := (r.head + 1) % r.capacity, len := r.len - 1 })

def peek (r : Ring α) : Option α := if r.len = 0 then none else r.cell 0

section Search

variable [DecidableEq α]

def replace (r : Ring α) (old new : α) : Ring α :=
  (List.range r.len).foldl (fun s offset => if s.cell offset = some old then s.write offset new else s) r

def removeStep (x : α) (s : Ring α × Nat) (read : Nat) : Ring α × Nat :=
  match s.1.cell read with
  | some y => if y ≠ x then (s.1.write s.2 y, s.2 + 1) else s
  | none => s

def remove (r : Ring α) (x : α) : Ring α :=
  if r.len = 0 then r
  else
    let s := (List.range r.len).foldl (removeStep x) (r, 0)
    { s.1 with len := s.2 }

end Search

def view (r : Ring α) : List α := r.items.rotate r.head

def contents (r : Ring α) : List α := r.view.take r.len

def Fits (r : Ring α) : Prop := r.len ≤ r.capacity

@[simp] theorem length_view (r : Ring α) : r.view.length = r.capacity := List.length_rotate ..

@[simp] theorem capacity_write : (r.write i x).capacity = r.capacity := List.length_set ..

@[simp] theorem len_write : (r.write i x).len = r.len := rfl

theorem length_contents (h : r.Fits) : r.contents.length = r.len := by
  rw [contents, List.length_take, length_view, min_eq_left h]

theorem getElem?_view (h : i < r.capacity) : r.view[i]? = r.cell i := by
  rw [view, List.getElem?_rotate h, cell, Nat.add_comm, capacity]

/-- Writing a cell of the ring writes the cell of its view. -/
theorem view_write (h : i < r.capacity) : (r.write i x).view = r.view.set i x := by
  apply List.ext_getElem?
  intro j
  by_cases hj : j < r.capacity
  · rw [getElem?_view (by simpa using hj), List.getElem?_set, getElem?_view hj, cell, write, cell]
    simp only [capacity, List.length_set, List.getElem?_set, length_view] at *
    by_cases hij : i = j
    · subst hij
      have hmod : (r.head + i) % r.items.length < r.items.length := Nat.mod_lt _ (by omega)
      simp [hmod, h]
    · have hne : (r.head + i) % r.items.length ≠ (r.head + j) % r.items.length := by
        intro heq
        have := Nat.ModEq.add_left_cancel' r.head heq
        rw [Nat.ModEq, Nat.mod_eq_of_lt h, Nat.mod_eq_of_lt hj] at this
        exact hij this
      rw [if_neg hne, if_neg hij]
  · rw [List.getElem?_eq_none (by simpa using hj), List.getElem?_eq_none (by simpa using hj)]

theorem push_spec (hlen : r.len < r.capacity) :
    ∃ s, r.push x = some s ∧ s.contents = r.contents ++ [x] ∧ s.capacity = r.capacity ∧ s.Fits := by
  refine ⟨{ r.write r.len x with len := r.len + 1 }, ?_, ?_, capacity_write, ?_⟩
  · rw [push, if_neg (by omega)]
  · change (r.write r.len x).view.take (r.len + 1) = _
    rw [view_write hlen, List.set_eq_take_append_cons_drop, length_view, if_pos hlen, contents]
    simp [List.take_append, hlen.le]
  · change r.len + 1 ≤ (r.write r.len x).capacity
    rw [capacity_write]
    exact hlen

theorem peek_eq (hfits : r.Fits) : r.peek = r.contents.head? := by
  rw [peek, contents]
  split
  · next h => simp [h]
  · next h =>
      have hlt : 0 < r.capacity := by rw [Fits] at hfits; omega
      rw [← getElem?_view hlt, List.head?_take, if_neg h, List.head?_eq_getElem?]

theorem pop_spec (hfits : r.Fits) {rest : List α} (h : r.contents = x :: rest) :
    r.pop.1 = some x ∧ r.pop.2.contents = rest ∧ r.pop.2.capacity = r.capacity ∧ r.pop.2.Fits := by
  have hlen : r.len = rest.length + 1 := by rw [← length_contents hfits, h, List.length_cons]
  have hpeek := peek_eq hfits
  rw [h, List.head?_cons, peek, if_neg (by omega)] at hpeek
  rw [pop, if_neg (by omega)]
  rw [Fits] at hfits
  refine ⟨hpeek, ?_, rfl, ?_⟩
  · change (r.items.rotate ((r.head + 1) % r.items.length)).take (r.len - 1) = rest
    rw [List.rotate_mod, ← List.rotate_rotate]
    change (r.view.rotate 1).take (r.len - 1) = rest
    have hview := length_view r
    rw [contents] at h
    cases hcells : r.view with
    | nil => simp [hcells] at h
    | cons y cells =>
        rw [hcells, hlen, List.take_succ_cons, List.cons.injEq] at h
        rw [hcells, List.length_cons] at hview
        rw [List.rotate_cons_succ, List.rotate_zero, hlen, Nat.add_sub_cancel, List.take_append_of_le_length (by omega)]
        exact h.2
  · change r.len - 1 ≤ r.capacity
    omega

section Search

variable [DecidableEq α]

/-- The loop of `replace` after `n` cells. -/
theorem replace_loop (old new : α) (hfits : r.Fits) {n : Nat} (hn : n ≤ r.len) :
    ∃ s : Ring α, (List.range n).foldl (fun s offset => if s.cell offset = some old then s.write offset new else s)
      r = s ∧ s.view = (r.view.take n).map (fun y => if y = old then new else y) ++ r.view.drop n ∧
      s.capacity = r.capacity ∧ s.len = r.len := by
  induction n with
  | zero => exact ⟨r, rfl, by simp, rfl, rfl⟩
  | succ n ih =>
      obtain ⟨s, hs, hview, hcap, hlen⟩ := ih (by omega)
      have hlt : n < r.view.length := by
        rw [Fits] at hfits
        rw [length_view]
        omega
      have hfront : ((r.view.take n).map fun y => if y = old then new else y).length = n := by
        rw [List.length_map, List.length_take, min_eq_left hlt.le]
      have hdrop := List.drop_eq_getElem_cons hlt
      have hcell : s.cell n = some r.view[n] := by
        rw [← getElem?_view (by simpa [hcap] using hlt), hview, List.getElem?_append_right hfront.le, hfront, hdrop]
        simp
      rw [List.range_succ, List.foldl_append, hs, List.foldl_cons, List.foldl_nil,
        hcell, ← List.take_append_getElem hlt, List.map_append]
      by_cases hold : r.view[n] = old
      · refine ⟨_, if_pos (by rw [hold]), ?_, by rw [capacity_write, hcap], hlen⟩
        rw [view_write (by simpa [hcap] using hlt), hview, List.set_append_right _ _ hfront.le, hfront, hdrop]
        simp [hold]
      · refine ⟨s, if_neg (by simpa using hold), ?_, hcap, hlen⟩
        rw [hview, hdrop]
        simp [hold]

theorem replace_spec (old new : α) (hfits : r.Fits) :
    (r.replace old new).contents = r.contents.map (fun y => if y = old then new else y) ∧
      (r.replace old new).capacity = r.capacity ∧ (r.replace old new).Fits := by
  obtain ⟨s, hs, hview, hcap, hlen⟩ := replace_loop old new hfits le_rfl
  rw [replace, hs, Fits, contents, hview, hcap, hlen, contents]
  refine ⟨?_, rfl, hfits⟩
  have hmap : ((r.view.take r.len).map fun y => if y = old then new else y).length = r.len := by
    rw [List.length_map]
    exact length_contents hfits
  rw [List.take_append_of_le_length hmap.ge, List.take_of_length_le hmap.le]

/-- The loop of `remove` after `n` cells: what it keeps stands in front, and
what it has not read is untouched. -/
theorem remove_loop (x : α) (hfits : r.Fits) {n : Nat} (hn : n ≤ r.len) :
    ∃ s : Ring α × Nat, (List.range n).foldl (removeStep x) (r, 0) = s ∧
      s.2 ≤ n ∧ s.1.view.take s.2 = (r.view.take n).filter (fun y => y ≠ x) ∧ s.1.view.drop n = r.view.drop n ∧
      s.1.capacity = r.capacity := by
  induction n with
  | zero => exact ⟨(r, 0), rfl, le_rfl, by simp, rfl, rfl⟩
  | succ n ih =>
      obtain ⟨⟨s, k⟩, hs, hk, htake, hdrop, hcap⟩ := ih (by omega)
      have hlt : n < r.view.length := by
        rw [Fits] at hfits
        rw [length_view]
        omega
      have hlt' : n < s.capacity := by simpa [hcap] using hlt
      have hcell : s.cell n = some r.view[n] := by
        rw [← getElem?_view hlt', ← List.head?_drop, hdrop, List.head?_drop, List.getElem?_eq_getElem hlt]
      have hdrop' : s.view.drop (n + 1) = r.view.drop (n + 1) := by
        rw [← List.drop_drop, hdrop, List.drop_drop]
      rw [List.range_succ, List.foldl_append, hs, List.foldl_cons, List.foldl_nil, removeStep]
      simp only [hcell]
      rw [← List.take_append_getElem hlt, List.filter_append]
      by_cases hx : r.view[n] = x
      · refine ⟨(s, k), if_neg (by simpa using hx), Nat.le_succ_of_le hk, ?_, hdrop', hcap⟩
        simpa [hx] using htake
      · refine ⟨(s.write k r.view[n], k + 1), if_pos hx, Nat.succ_le_succ hk, ?_, ?_, by rw [capacity_write, hcap]⟩
        · have hk' : k < s.capacity := by omega
          have hk'' : k < s.view.length := by simpa using hk'
          simp only at htake ⊢
          rw [view_write hk', ← htake, List.set_eq_take_append_cons_drop, if_pos hk'']
          simp [List.take_append, hk'.le, hx]
        · rw [view_write (by omega), List.drop_set_of_lt (by omega), hdrop']

theorem remove_spec (x : α) (hfits : r.Fits) :
    (r.remove x).contents = r.contents.filter (fun y => y ≠ x) ∧
      (r.remove x).capacity = r.capacity ∧ (r.remove x).Fits := by
  rw [remove]
  by_cases hzero : r.len = 0
  · rw [if_pos hzero, contents, hzero]
    exact ⟨by simp, rfl, hfits⟩
  · obtain ⟨⟨s, k⟩, hs, hk, htake, _, hcap⟩ := remove_loop x hfits le_rfl
    rw [if_neg hzero, hs]
    refine ⟨htake, hcap, ?_⟩
    change k ≤ s.capacity
    rw [Fits] at hfits
    simp only at hk hcap
    omega

end Search

end Ring

end TheKernel
