import Mathlib.Algebra.Order.Ring.Int
import Mathlib.Data.List.Sort
import Mathlib.Data.List.Pairwise

namespace TheKernel

/-- An ordered map: entries in strictly increasing order of their keys. -/
structure SortedMap (K α : Type) [LinearOrder K] where
  entries : List (K × α)
  sorted : entries.Pairwise (fun e e' => e.1 < e'.1)

namespace SortedMap

variable {K α : Type} [LinearOrder K]

def empty : SortedMap K α := ⟨[], .nil⟩

def size (m : SortedMap K α) : Nat := m.entries.length

def get? (m : SortedMap K α) (k : K) : Option α := (m.entries.find? (fun e => e.1 = k)).map (·.2)

def insert (m : SortedMap K α) (k : K) (v : α) : SortedMap K α where
  entries := m.entries.filter (fun e => e.1 < k) ++ (k, v) :: m.entries.filter (fun e => k < e.1)
  sorted := by
    rw [List.pairwise_append, List.pairwise_cons]
    refine ⟨m.sorted.filter _, ⟨?_, m.sorted.filter _⟩, ?_⟩
    · intro e he
      exact of_decide_eq_true (List.mem_filter.mp he).2
    · intro e he e' he'
      have hlt : e.1 < k := of_decide_eq_true (List.mem_filter.mp he).2
      rcases List.mem_cons.mp he' with rfl | he'
      · exact hlt
      · exact hlt.trans (of_decide_eq_true (List.mem_filter.mp he').2)

def erase (m : SortedMap K α) (k : K) : SortedMap K α := ⟨m.entries.filter (fun e => e.1 ≠ k), m.sorted.filter _⟩

def lastBelow (m : SortedMap K α) (k : K) : Option (K × α) := (m.entries.filter (fun e => e.1 < k)).getLast?

def lastUpTo (m : SortedMap K α) (k : K) : Option (K × α) := (m.entries.filter (fun e => e.1 ≤ k)).getLast?

def firstFrom (m : SortedMap K α) (k : K) : Option (K × α) := m.entries.find? (fun e => k ≤ e.1)

def firstAfter (m : SortedMap K α) (k : K) : Option (K × α) := m.entries.find? (fun e => k < e.1)

def range (m : SortedMap K α) (low high : K) : List (K × α) := m.entries.filter (fun e => low ≤ e.1 ∧ e.1 < high)

section Lookup

variable {m m' : SortedMap K α} {k k' : K} {v : α}

theorem eq_of_key_eq {e e' : K × α} (he : e ∈ m.entries) (he' : e' ∈ m.entries) (h : e.1 = e'.1) : e = e' := by
  by_contra hne
  have hdiff : m.entries.Pairwise (fun e e' => e.1 ≠ e'.1) := m.sorted.imp ne_of_lt
  have : Std.Symm (fun e e' : K × α => e.1 ≠ e'.1) := ⟨fun _ _ => Ne.symm⟩
  exact hdiff.forall he he' hne h

theorem mem_entries : (k, v) ∈ m.entries ↔ m.get? k = some v := by
  rw [get?, Option.map_eq_some_iff]
  constructor
  · intro h
    cases hfind : m.entries.find? (fun e => e.1 = k) with
    | none => simpa using List.find?_eq_none.mp hfind (k, v) h
    | some e =>
        have hkey : e.1 = k := by simpa using List.find?_some hfind
        exact ⟨e, rfl, by rw [eq_of_key_eq (List.mem_of_find?_eq_some hfind) h hkey]⟩
  · rintro ⟨e, hfind, rfl⟩
    have hkey : e.1 = k := by simpa using List.find?_some hfind
    subst hkey
    exact List.mem_of_find?_eq_some hfind

theorem ext (h : ∀ k, m.get? k = m'.get? k) : m = m' := by
  have hentries : m.entries = m'.entries := by
    have : Std.Irrefl (fun e e' : K × α => e.1 < e'.1) := ⟨fun e => lt_irrefl e.1⟩
    have : Std.Antisymm (fun e e' : K × α => e.1 < e'.1) := ⟨fun e e' h h' => absurd h' (lt_asymm h)⟩
    refine List.Pairwise.eq_of_mem_iff m.sorted m'.sorted ?_
    rintro ⟨k, v⟩
    rw [mem_entries, mem_entries, h]
  cases m
  cases m'
  cases hentries
  rfl

@[simp] theorem get?_empty (k : K) : (empty : SortedMap K α).get? k = none := rfl

@[simp] theorem size_empty : (empty : SortedMap K α).size = 0 := rfl

theorem get?_eq_iff {o : Option α} (h : ∀ v, (k, v) ∈ m.entries ↔ o = some v) : m.get? k = o := by
  cases o with
  | none =>
      rw [← Option.not_isSome_iff_eq_none, Option.isSome_iff_exists]
      rintro ⟨v, hv⟩
      exact nomatch (h v).mp (mem_entries.mpr hv)
  | some v => exact mem_entries.mp ((h v).mpr rfl)

@[simp] theorem get?_insert (m : SortedMap K α) (k k' : K) (v : α) :
    (m.insert k v).get? k' = if k' = k then some v else m.get? k' := by
  apply get?_eq_iff
  intro w
  simp only [insert, List.mem_append, List.mem_cons, List.mem_filter, decide_eq_true_eq, Prod.mk.injEq, mem_entries]
  by_cases hk : k' = k
  · subst hk
    simp [eq_comm]
  · rcases lt_or_gt_of_ne hk with hlt | hgt
    · simp [hk, hlt, lt_asymm hlt]
    · simp [hk, hgt, lt_asymm hgt]

@[simp] theorem get?_erase (m : SortedMap K α) (k k' : K) :
    (m.erase k).get? k' = if k' = k then none else m.get? k' := by
  apply get?_eq_iff
  intro w
  simp only [erase, List.mem_filter, decide_eq_true_eq, mem_entries]
  by_cases hk : k' = k <;> simp [hk]

theorem insert_erase (m : SortedMap K α) (k : K) (v : α) : (m.erase k).insert k v = m.insert k v :=
  ext fun j => by by_cases hj : j = k <;> simp [hj]

theorem size_eq_zero : m.size = 0 ↔ ∀ k, m.get? k = none := by
  constructor
  · intro h k
    have : m.entries = [] := List.length_eq_zero_iff.mp h
    simp [get?, this]
  · intro h
    rw [show m = empty from ext (fun k => by rw [h k, get?_empty])]
    rfl

theorem size_erase (h : m.get? k = some v) : (m.erase k).size + 1 = m.size := by
  have hmem := mem_entries.mpr h
  obtain ⟨xs, ys, hsplit⟩ := List.append_of_mem hmem
  have hsorted := m.sorted
  rw [hsplit, List.pairwise_append, List.pairwise_cons] at hsorted
  obtain ⟨-, ⟨hys, -⟩, hxs⟩ := hsorted
  have hxs' : xs.filter (fun e => e.1 ≠ k) = xs := by
    refine List.filter_eq_self.mpr fun e he => ?_
    simpa using (hxs e he (k, v) (by simp)).ne
  have hys' : ys.filter (fun e => e.1 ≠ k) = ys := by
    refine List.filter_eq_self.mpr fun e he => ?_
    simpa using (hys e he).ne'
  simp only [size, erase, hsplit, List.filter_append, List.filter_cons, hxs', hys']
  simp
  omega

theorem size_insert_of_none (h : m.get? k = none) : (m.insert k v).size = m.size + 1 := by
  have hsize := size_erase (m := m.insert k v) (k := k) (v := v) (by simp)
  rw [show (m.insert k v).erase k = m from ext fun j => by
    by_cases hj : j = k <;> simp [hj, h]] at hsize
  exact hsize.symm

theorem size_insert_of_some {w : α} (h : m.get? k = some w) : (m.insert k v).size = m.size := by
  have herase := size_erase h
  have hinsert := size_insert_of_none (m := m.erase k) (k := k) (v := v) (by simp)
  rw [insert_erase] at hinsert
  omega

end Lookup

section Search

variable {m : SortedMap K α} {k j : K} {v : α}

/-- A greatest entry among those that pass a test is the last of them. -/
theorem getLast?_filter {p : K → Bool} :
    (m.entries.filter (fun e => p e.1)).getLast? = some (j, v) ↔
      m.get? j = some v ∧ p j = true ∧ ∀ i w, m.get? i = some w → p i = true → i ≤ j := by
  constructor
  · intro h
    obtain ⟨xs, hxs⟩ := List.getLast?_eq_some_iff.mp h
    have hmem : (j, v) ∈ m.entries.filter (fun e => p e.1) := by simp [hxs]
    rw [List.mem_filter, mem_entries] at hmem
    refine ⟨hmem.1, hmem.2, fun i w hi hp => ?_⟩
    have hsorted : (xs ++ [(j, v)]).Pairwise (fun e e' => e.1 < e'.1) := hxs ▸ m.sorted.filter _
    have hi' : (i, w) ∈ xs ++ [(j, v)] := hxs ▸ List.mem_filter.mpr ⟨mem_entries.mpr hi, hp⟩
    rcases List.mem_append.mp hi' with hi' | hi'
    · exact ((List.pairwise_append.mp hsorted).2.2 (i, w) hi' (j, v) (by simp)).le
    · rw [List.mem_singleton, Prod.mk.injEq] at hi'
      exact hi'.1.le
  · rintro ⟨hj, hp, hmax⟩
    have hmem : (j, v) ∈ m.entries.filter (fun e => p e.1) := List.mem_filter.mpr ⟨mem_entries.mpr hj, hp⟩
    cases hlast : (m.entries.filter (fun e => p e.1)).getLast? with
    | none => simp [List.getLast?_eq_none_iff.mp hlast] at hmem
    | some e =>
        obtain ⟨xs, hxs⟩ := List.getLast?_eq_some_iff.mp hlast
        have he : e ∈ m.entries.filter (fun e => p e.1) := by simp [hxs]
        rw [List.mem_filter] at he
        have hle : e.1 ≤ j := hmax e.1 e.2 (mem_entries.mp he.1) he.2
        rw [hxs] at hmem
        rcases List.mem_append.mp hmem with hmem | hmem
        · have hsorted : (xs ++ [e]).Pairwise (fun e e' => e.1 < e'.1) := hxs ▸ m.sorted.filter _
          exact absurd ((List.pairwise_append.mp hsorted).2.2 (j, v) hmem e (by simp)) (not_lt.mpr hle)
        · rw [List.mem_singleton.mp hmem]

theorem getLast?_filter_none {p : K → Bool} :
    (m.entries.filter (fun e => p e.1)).getLast? = none ↔ ∀ i w, m.get? i = some w → p i = false := by
  rw [List.getLast?_eq_none_iff, List.filter_eq_nil_iff]
  constructor
  · intro h i w hi
    simpa using h (i, w) (mem_entries.mpr hi)
  · rintro h ⟨i, w⟩ hi
    simpa using h i w (mem_entries.mp hi)

/-- A least entry among those that pass a test is the first of them. -/
theorem find?_entries {p : K → Bool} :
    m.entries.find? (fun e => p e.1) = some (j, v) ↔
      m.get? j = some v ∧ p j = true ∧ ∀ i w, m.get? i = some w → p i = true → j ≤ i := by
  have hfirst (e : K × α) (hfind : m.entries.find? (fun e => p e.1) = some e) (i : K) (w : α) (hi : m.get? i = some w)
      (hp : p i = true) : e.1 ≤ i := by
    obtain ⟨-, xs, ys, hsplit, hxs⟩ := List.find?_eq_some_iff_append.mp hfind
    have hi' : (i, w) ∈ xs ++ e :: ys := hsplit ▸ mem_entries.mpr hi
    have hsorted : (xs ++ e :: ys).Pairwise (fun e e' => e.1 < e'.1) := hsplit ▸ m.sorted
    rcases List.mem_append.mp hi' with hi' | hi'
    · simpa [hp] using hxs (i, w) hi'
    · rcases List.mem_cons.mp hi' with rfl | hi'
      · exact le_refl _
      · exact (List.rel_of_pairwise_cons (List.pairwise_append.mp hsorted).2.1 hi').le
  constructor
  · intro h
    exact ⟨mem_entries.mp (List.mem_of_find?_eq_some h), by simpa using List.find?_some h, hfirst _ h⟩
  · rintro ⟨hj, hp, hmin⟩
    cases hfind : m.entries.find? (fun e => p e.1) with
    | none => simpa [hp] using List.find?_eq_none.mp hfind (j, v) (mem_entries.mpr hj)
    | some e =>
        have hle := hfirst e hfind j v hj hp
        have hge := hmin e.1 e.2 (mem_entries.mp (List.mem_of_find?_eq_some hfind))
            (by simpa using List.find?_some hfind)
        rw [eq_of_key_eq (List.mem_of_find?_eq_some hfind) (mem_entries.mpr hj) (le_antisymm hle hge)]

theorem find?_entries_none {p : K → Bool} :
    m.entries.find? (fun e => p e.1) = none ↔ ∀ i w, m.get? i = some w → p i = false := by
  rw [List.find?_eq_none]
  constructor
  · intro h i w hi
    simpa using h (i, w) (mem_entries.mpr hi)
  · rintro h ⟨i, w⟩ hi
    simpa using h i w (mem_entries.mp hi)

theorem lastBelow_eq_some : m.lastBelow k = some (j, v) ↔
    m.get? j = some v ∧ j < k ∧ ∀ i w, m.get? i = some w → i < k → i ≤ j := by
  rw [lastBelow, getLast?_filter (p := fun i => decide (i < k))]
  simp only [decide_eq_true_eq]

theorem lastBelow_eq_none : m.lastBelow k = none ↔ ∀ i w, m.get? i = some w → k ≤ i := by
  rw [lastBelow, getLast?_filter_none (p := fun i => decide (i < k))]
  simp only [decide_eq_false_iff_not, not_lt]

theorem lastUpTo_eq_some : m.lastUpTo k = some (j, v) ↔
    m.get? j = some v ∧ j ≤ k ∧ ∀ i w, m.get? i = some w → i ≤ k → i ≤ j := by
  rw [lastUpTo, getLast?_filter (p := fun i => decide (i ≤ k))]
  simp only [decide_eq_true_eq]

theorem lastUpTo_eq_none : m.lastUpTo k = none ↔ ∀ i w, m.get? i = some w → k < i := by
  rw [lastUpTo, getLast?_filter_none (p := fun i => decide (i ≤ k))]
  simp only [decide_eq_false_iff_not, not_le]

theorem firstFrom_eq_some : m.firstFrom k = some (j, v) ↔
    m.get? j = some v ∧ k ≤ j ∧ ∀ i w, m.get? i = some w → k ≤ i → j ≤ i := by
  rw [firstFrom, find?_entries (p := fun i => decide (k ≤ i))]
  simp only [decide_eq_true_eq]

theorem firstFrom_eq_none : m.firstFrom k = none ↔ ∀ i w, m.get? i = some w → i < k := by
  rw [firstFrom, find?_entries_none (p := fun i => decide (k ≤ i))]
  simp only [decide_eq_false_iff_not, not_le]

theorem firstAfter_eq_some : m.firstAfter k = some (j, v) ↔
    m.get? j = some v ∧ k < j ∧ ∀ i w, m.get? i = some w → k < i → j ≤ i := by
  rw [firstAfter, find?_entries (p := fun i => decide (k < i))]
  simp only [decide_eq_true_eq]

theorem mem_range {low high : K} {e : K × α} :
    e ∈ m.range low high ↔ m.get? e.1 = some e.2 ∧ low ≤ e.1 ∧ e.1 < high := by
  simp [range, ← mem_entries]

end Search

end SortedMap

end TheKernel
