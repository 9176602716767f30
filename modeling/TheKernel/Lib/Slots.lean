import Mathlib.Data.List.ReduceOption
import Mathlib.Algebra.BigOperators.Group.List.Basic

namespace TheKernel

variable {α : Type} {l : List (Option α)} {i j : Nat} {x y : α}

def freeSlot (l : List (Option α)) : Option Nat := l.findIdx? (·.isNone)

theorem getElem?_freeSlot (h : freeSlot l = some i) : l[i]? = some none := by
  obtain ⟨hi, hnone, _⟩ := List.findIdx?_eq_some_iff_getElem.mp h
  rw [List.getElem?_eq_getElem hi]
  simpa using hnone

theorem freeSlot_eq_none : freeSlot l = none ↔ none ∉ l := by
  rw [freeSlot, List.findIdx?_eq_none_iff]
  constructor
  · intro h hmem
    simpa using h none hmem
  · intro h x hx
    cases x with
    | none => exact absurd hx h
    | some x => rfl

theorem mem_set_some (h : l[i]? = some none) : some y ∈ l.set i (some x) ↔ some y ∈ l ∨ y = x := by
  have hi : i < l.length := (List.getElem?_eq_some_iff.mp h).1
  simp only [List.mem_iff_getElem?, List.getElem?_set]
  constructor
  · rintro ⟨j, hj⟩
    by_cases hij : i = j
    · simp [hij] at hj
      grind
    · rw [if_neg hij] at hj
      exact .inl ⟨j, hj⟩
  · rintro (⟨j, hj⟩ | rfl)
    · refine ⟨j, ?_⟩
      rw [if_neg]
      · exact hj
      · rintro rfl
        rw [h] at hj
        cases hj
    · exact ⟨i, by simp [hi]⟩

theorem mem_of_mem_set_none (h : some y ∈ l.set i none) : some y ∈ l := by
  rcases List.mem_or_eq_of_mem_set h with h | h
  · exact h
  · cases h

def findSlot (p : α → Bool) (l : List (Option α)) : Option (Nat × α) :=
  (l.findIdx? (·.any p)).bind fun i => l[i]?.join.map (i, ·)

theorem findSlot_eq_some {p : α → Bool} (h : findSlot p l = some (i, x)) : l[i]? = some (some x) ∧ p x = true := by
  rw [findSlot, Option.bind_eq_some_iff] at h
  obtain ⟨j, hj, hx⟩ := h
  obtain ⟨hlt, hany, _⟩ := List.findIdx?_eq_some_iff_getElem.mp hj
  rw [List.getElem?_eq_getElem hlt, Option.map_eq_some_iff] at hx
  obtain ⟨y, hy, hxy⟩ := hx
  cases hxy
  rw [Option.join_some] at hy
  rw [hy] at hany
  exact ⟨by rw [List.getElem?_eq_getElem hlt, hy], hany⟩

theorem findSlot_isSome {p : α → Bool} (h : some x ∈ l) (hp : p x = true) : ∃ i y, findSlot p l = some (i, y) := by
  cases hfind : l.findIdx? (·.any p) with
  | none =>
      have hany := List.findIdx?_eq_none_iff.mp hfind _ h
      simp [hp] at hany
  | some i =>
      obtain ⟨hlt, hany, _⟩ := List.findIdx?_eq_some_iff_getElem.mp hfind
      obtain ⟨y, hy, _⟩ := (Option.any_eq_true _ _).mp hany
      exact ⟨i, y, by simp [findSlot, hfind, List.getElem?_eq_getElem hlt, hy]⟩

theorem findSlot_eq_none {p : α → Bool} (h : findSlot p l = none) (hx : some x ∈ l) : p x = false := by
  by_contra hp
  obtain ⟨i, y, hy⟩ := findSlot_isSome hx (by simpa using hp)
  rw [h] at hy
  cases hy

theorem getElem?_set_some {o : Option α} (h : (l.set i o)[j]? = some (some x)) :
    i = j ∧ o = some x ∨ i ≠ j ∧ l[j]? = some (some x) := by
  rw [List.getElem?_set] at h
  by_cases hij : i = j
  · rw [if_pos hij] at h
    split at h
    · exact .inl ⟨hij, Option.some.inj h⟩
    · cases h
  · rw [if_neg hij] at h
    exact .inr ⟨hij, h⟩

theorem set_of_getElem? {β : Type} {l : List β} {b : β} (h : l[i]? = some b) : l.set i b = l := by
  obtain ⟨hi, rfl⟩ := List.getElem?_eq_some_iff.mp h
  exact List.set_getElem_self hi

theorem mem_of_mem_set {o : Option α} (h : some y ∈ l.set i o) : some y ∈ l ∨ o = some y := by
  rcases List.mem_or_eq_of_mem_set h with h | h
  · exact .inl h
  · exact .inr h.symm

theorem reduceOption_set_perm (h : l[i]? = some none) :
    (l.set i (some x)).reduceOption.Perm (l.reduceOption ++ [x]) := by
  induction l generalizing i with
  | nil => cases h
  | cons o l ih =>
      cases i with
      | zero =>
          simp only [List.getElem?_cons_zero, Option.some.injEq] at h
          subst h
          rw [List.set_cons_zero, List.reduceOption_cons_of_some, List.reduceOption_cons_of_none]
          exact (List.perm_append_singleton x _).symm
      | succ i =>
          rw [List.set_cons_succ]
          cases o with
          | none => exact ih h
          | some y =>
              rw [List.reduceOption_cons_of_some, List.reduceOption_cons_of_some]
              exact (ih h).cons y

theorem freeSlot_of_length_lt (h : l.reduceOption.length < l.length) : ∃ i, freeSlot l = some i := by
  cases hslot : freeSlot l with
  | some i => exact ⟨i, rfl⟩
  | none =>
      have hsome : ∀ o ∈ l, o.isSome = true := by
        intro o ho
        cases o with
        | none => exact absurd ho (freeSlot_eq_none.mp hslot)
        | some x => rfl
      have := List.reduceOption_length_eq_iff.mpr hsome
      omega

section Keyed

variable {κ : Type} {key : α → κ}

def KeyedSlots (key : α → κ) (l : List (Option α)) : Prop :=
  ∀ (i j : Nat) (x y : α), l[i]? = some (some x) → l[j]? = some (some y) → key x = key y → i = j

theorem KeyedSlots.clear (h : KeyedSlots key l) (i : Nat) : KeyedSlots key (l.set i none) := by
  intro j k x y hx hy
  rcases getElem?_set_some hx with ⟨_, hx⟩ | ⟨_, hx⟩
  · cases hx
  rcases getElem?_set_some hy with ⟨_, hy⟩ | ⟨_, hy⟩
  · cases hy
  exact h j k x y hx hy

/-- A slot takes an element whose key is in no other slot. -/
theorem KeyedSlots.set (h : KeyedSlots key l)
    (hfresh : ∀ (j : Nat) (y : α), l[j]? = some (some y) → key y = key x → j = i) :
    KeyedSlots key (l.set i (some x)) := by
  intro j k a b ha hb hab
  rcases getElem?_set_some ha with ⟨hij, ha⟩ | ⟨hij, ha⟩
  · cases ha
    rcases getElem?_set_some hb with ⟨hik, hb⟩ | ⟨hik, hb⟩
    · omega
    · exact absurd (hfresh k b hb hab.symm).symm hik
  · rcases getElem?_set_some hb with ⟨hik, hb⟩ | ⟨hik, hb⟩
    · cases hb
      exact absurd (hfresh j a ha hab).symm hij
    · exact h j k a b ha hb hab

theorem KeyedSlots.replace (h : KeyedSlots key l) (hx : l[i]? = some (some x)) (hkey : key y = key x) :
    KeyedSlots key (l.set i (some y)) := by
  apply h.set
  intro j z hz hzy
  exact h j i z x hz hx (hzy.trans hkey)

theorem KeyedSlots.fill (h : KeyedSlots key l) (hfresh : ∀ y, some y ∈ l → key y ≠ key x) :
    KeyedSlots key (l.set i (some x)) := by
  apply h.set
  intro j y hy hyx
  exact absurd hyx (hfresh y (List.mem_of_getElem? hy))

theorem exists_mem_replace (key : α → κ) {z : α} (hx : l[i]? = some (some x)) (hkey : key y = key x) (hz : some z ∈ l) :
    ∃ z', some z' ∈ l.set i (some y) ∧ key z' = key z := by
  obtain ⟨j, hj⟩ := List.mem_iff_getElem?.mp hz
  by_cases hij : i = j
  · subst hij
    rw [hx] at hj
    cases hj
    exact ⟨y, List.mem_set (List.getElem?_eq_some_iff.mp hx).1 _, hkey⟩
  · refine ⟨z, List.mem_iff_getElem?.mpr ⟨j, ?_⟩, rfl⟩
    rw [List.getElem?_set_ne hij]
    exact hj

theorem keyedSlots_replicate (n : Nat) : KeyedSlots key (List.replicate n none) := by
  intro i j x y hx
  rw [List.getElem?_replicate] at hx
  split at hx <;> cases hx

end Keyed

section Total

variable {M : Type} [AddCommMonoid M] {w : α → M}

theorem sum_map_set {β : Type} {f : β → M} {l : List β} {a b : β} (h : l[i]? = some a) :
    ((l.set i b).map f).sum + f a = (l.map f).sum + f b := by
  induction l generalizing i with
  | nil => cases h
  | cons c l ih =>
      cases i with
      | zero =>
          simp only [List.getElem?_cons_zero, Option.some.injEq] at h
          subst h
          simp only [List.set_cons_zero, List.map_cons, List.sum_cons]
          ac_rfl
      | succ i =>
          simp only [List.set_cons_succ, List.map_cons, List.sum_cons]
          rw [add_assoc, ih h, add_assoc]

def slotTotal (w : α → M) (l : List (Option α)) : M := (l.map fun o => o.elim 0 w).sum

theorem slotTotal_set {o v : Option α} (h : l[i]? = some o) :
    slotTotal w (l.set i v) + o.elim 0 w = slotTotal w l + v.elim 0 w :=
  sum_map_set h

theorem slotTotal_fill (h : l[i]? = some none) : slotTotal w (l.set i (some x)) = slotTotal w l + w x := by
  simpa using slotTotal_set (w := w) (v := some x) h

theorem slotTotal_clear (h : l[i]? = some (some x)) : slotTotal w (l.set i none) + w x = slotTotal w l := by
  simpa using slotTotal_set (w := w) (v := none) h

theorem slotTotal_of_vacant (h : ∀ x, some x ∈ l → w x = 0) : slotTotal w l = 0 := by
  apply List.sum_eq_zero
  intro m hm
  obtain ⟨o, ho, rfl⟩ := List.mem_map.mp hm
  cases o with
  | none => rfl
  | some x => exact h x ho

@[simp] theorem slotTotal_replicate (n : Nat) : slotTotal w (List.replicate n none) = 0 :=
  slotTotal_of_vacant (by simp)

end Total

theorem slotTotal_replace {M : Type} [AddCancelCommMonoid M] {w : α → M} (h : l[i]? = some (some x)) (hw : w y = w x) :
    slotTotal w (l.set i (some y)) = slotTotal w l := by
  have hset := slotTotal_set (w := w) (v := some y) h
  rw [Option.elim_some, Option.elim_some, hw] at hset
  exact add_right_cancel hset

end TheKernel
