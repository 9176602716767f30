import Mathlib.Tactic.Simps.Basic
import TheKernel.MemorySet.Gaps

namespace TheKernel.MemorySet

/-- `MemoryArea`: a range of addresses with its flags, its backend and the
lineage of the logical mapping it belongs to. -/
structure Area (F B : Type) where
  start : Nat
  stop : Nat
  flags : F
  backend : B
  lineage : Nat
  deriving DecidableEq

abbrev Areas (F B : Type) := SortedMap Nat (Area F B)

variable {F B : Type}

namespace Area

def range (a : Area F B) : Range := (a.start, a.stop)

def size (a : Area F B) : Nat := a.stop - a.start

@[simps] def setEnd (a : Area F B) (stop : Nat) : Area F B := { a with stop := stop }

@[simps] def setStart (a : Area F B) (start : Nat) : Area F B := { a with start := start }

@[simps] def setFlags (a : Area F B) (flags : F) : Area F B := { a with flags := flags }

@[simps] def setBackend (a : Area F B) (backend : B) : Area F B := { a with backend := backend }

def contains (a : Area F B) (x : Nat) : Bool := a.start ≤ x ∧ x < a.stop

def overlaps (a : Area F B) (range : Range) : Bool := a.start < range.2 ∧ range.1 < a.stop

def containedIn (a : Area F B) (range : Range) : Bool := range.1 ≤ a.start ∧ a.stop ≤ range.2

@[simp] theorem contains_iff {a : Area F B} {x : Nat} : a.contains x = true ↔ a.start ≤ x ∧ x < a.stop := by
  simp [contains]

@[simp] theorem overlaps_iff {a : Area F B} {range : Range} :
    a.overlaps range = true ↔ a.start < range.2 ∧ range.1 < a.stop := by
  simp [overlaps]

@[simp] theorem containedIn_iff {a : Area F B} {range : Range} :
    a.containedIn range = true ↔ range.1 ≤ a.start ∧ a.stop ≤ range.2 := by
  simp [containedIn]

end Area

def find (areas : Areas F B) (x : Nat) : Option (Area F B) :=
  ((areas.lastUpTo x).map (·.2)).filter (fun a => a.contains x)

/-- Every area is stored under its own start, is not empty, and ends before
the next one. -/
structure Ordered (areas : Areas F B) : Prop where
  key : ∀ k a, areas.get? k = some a → a.start = k
  nonempty : ∀ k a, areas.get? k = some a → a.start < a.stop
  bounded : ∀ k a, areas.get? k = some a → a.stop ≤ usizeMax
  apart : ∀ k a k' a', areas.get? k = some a → areas.get? k' = some a' → k < k' → a.stop ≤ k'

theorem Ordered.empty : Ordered (SortedMap.empty : Areas F B) :=
  ⟨by simp, by simp, by simp, by simp⟩

namespace Ordered

variable {areas : Areas F B} {a b : Area F B} {k x : Nat}

theorem find_eq_some (h : Ordered areas) :
    find areas x = some a ↔ areas.get? a.start = some a ∧ a.start ≤ x ∧ x < a.stop := by
  rw [find, Option.filter_eq_some_iff, Area.contains_iff, Option.map_eq_some_iff]
  constructor
  · rintro ⟨⟨⟨j, v⟩, hlast, rfl⟩, hx⟩
    rw [SortedMap.lastUpTo_eq_some] at hlast
    rw [h.key j v hlast.1]
    exact ⟨hlast.1, by rw [← h.key j v hlast.1]; exact hx⟩
  · rintro ⟨hget, hx⟩
    refine ⟨⟨(a.start, a), ?_, rfl⟩, hx⟩
    rw [SortedMap.lastUpTo_eq_some]
    refine ⟨hget, hx.1, fun i w hi hle => ?_⟩
    by_contra hlt
    have := h.apart a.start a i w hget hi (by omega)
    omega

theorem get?_iff (h : Ordered areas) : areas.get? k = some a ↔ find areas k = some a ∧ a.start = k := by
  rw [h.find_eq_some]
  constructor
  · intro hget
    have hkey := h.key k a hget
    have := h.nonempty k a hget
    exact ⟨⟨hkey ▸ hget, by omega, by omega⟩, hkey⟩
  · rintro ⟨⟨hget, -⟩, rfl⟩
    exact hget

theorem find_of_get? (h : Ordered areas) (hget : areas.get? k = some a) (hx : a.start ≤ x) (hx' : x < a.stop) :
    find areas x = some a :=
  h.find_eq_some.mpr ⟨by rwa [h.key k a hget], hx, hx'⟩

theorem find_eq_none (h : Ordered areas) :
    find areas x = none ↔ ∀ k a, areas.get? k = some a → ¬ (a.start ≤ x ∧ x < a.stop) := by
  constructor
  · intro hnone k a hget hx
    rw [h.find_of_get? hget hx.1 hx.2] at hnone
    cases hnone
  · intro hnone
    cases hfind : find areas x with
    | none => rfl
    | some a =>
        obtain ⟨hget, hx⟩ := h.find_eq_some.mp hfind
        exact absurd hx (hnone a.start a hget)

theorem find_ge (h : Ordered areas) (hx : usizeMax ≤ x) : find areas x = none := by
  rw [h.find_eq_none]
  intro k a hget hin
  have := h.bounded k a hget
  omega

theorem unique (h : Ordered areas) {k' : Nat} (ha : areas.get? k = some a) (hb : areas.get? k' = some b)
    (hax : a.start ≤ x) (hax' : x < a.stop) (hbx : b.start ≤ x) (hbx' : x < b.stop) : a = b := by
  have h₁ := h.find_of_get? ha hax hax'
  rw [h.find_of_get? hb hbx hbx', Option.some.injEq] at h₁
  exact h₁.symm

theorem erase (h : Ordered areas) (k : Nat) : Ordered (areas.erase k) := by
  have hget (i : Nat) (w : Area F B) (hi : (areas.erase k).get? i = some w) : areas.get? i = some w := by
    rw [SortedMap.get?_erase] at hi
    split at hi
    · cases hi
    · exact hi
  exact ⟨fun i w hi => h.key i w (hget i w hi), fun i w hi => h.nonempty i w (hget i w hi),
    fun i w hi => h.bounded i w (hget i w hi), fun i w i' w' hi hi' => h.apart i w i' w' (hget i w hi) (hget i' w' hi')⟩

theorem find_erase (h : Ordered areas) (hget : areas.get? k = some a) (x : Nat) :
    find (areas.erase k) x = if a.start ≤ x ∧ x < a.stop then none else find areas x := by
  have hkey := h.key k a hget
  split
  · rename_i hx
    rw [(h.erase k).find_eq_none]
    intro i w hi hw
    rw [SortedMap.get?_erase] at hi
    split at hi
    · cases hi
    · have hwa := h.unique hi hget hw.1 hw.2 hx.1 hx.2
      have hi' := h.key i w hi
      rw [hwa] at hi'
      omega
  · rename_i hx
    cases hfind : find areas x with
    | none =>
        rw [(h.erase k).find_eq_none]
        intro i w hi
        rw [SortedMap.get?_erase] at hi
        split at hi
        · cases hi
        · exact h.find_eq_none.mp hfind i w hi
    | some b =>
        rw [h.find_eq_some] at hfind
        rw [(h.erase k).find_eq_some, SortedMap.get?_erase]
        refine ⟨?_, hfind.2⟩
        rw [if_neg]
        · exact hfind.1
        · intro hbk
          obtain ⟨hb, hbx⟩ := hfind
          rw [hbk, hget, Option.some.injEq] at hb
          rw [hb] at hx
          exact hx hbx

theorem insert (h : Ordered areas) (hlt : a.start < a.stop) (hbound : a.stop ≤ usizeMax)
    (hfree : ∀ x, a.start ≤ x → x < a.stop → find areas x = none) : Ordered (areas.insert a.start a) := by
  have hsep (i : Nat) (w : Area F B) (hi : areas.get? i = some w) : w.stop ≤ a.start ∨ a.stop ≤ i := by
    by_contra hcross
    have hw := h.nonempty i w hi
    have hkey := h.key i w hi
    have hnone := hfree (max a.start w.start) (by omega) (by omega)
    exact h.find_eq_none.mp hnone i w hi (by omega)
  have hget (i : Nat) (w : Area F B) (hi : (areas.insert a.start a).get? i = some w) :
      i = a.start ∧ w = a ∨ areas.get? i = some w := by
    rw [SortedMap.get?_insert] at hi
    split at hi
    · rw [Option.some.injEq] at hi
      exact .inl ⟨‹_›, hi.symm⟩
    · exact .inr hi
  refine ⟨?_, ?_, ?_, ?_⟩
  · intro i w hi
    rcases hget i w hi with ⟨rfl, rfl⟩ | hi
    · rfl
    · exact h.key i w hi
  · intro i w hi
    rcases hget i w hi with ⟨rfl, rfl⟩ | hi
    · exact hlt
    · exact h.nonempty i w hi
  · intro i w hi
    rcases hget i w hi with ⟨rfl, rfl⟩ | hi
    · exact hbound
    · exact h.bounded i w hi
  · intro i w i' w' hi hi' hii'
    rcases hget i w hi with ⟨rfl, rfl⟩ | hold <;> rcases hget i' w' hi' with ⟨rfl, rfl⟩ | hold'
    · omega
    · have := hsep i' w' hold'
      have := h.nonempty i' w' hold'
      have := h.key i' w' hold'
      omega
    · have := hsep i w hold
      omega
    · exact h.apart i w i' w' hold hold' hii'

theorem find_insert (h : Ordered areas) (hlt : a.start < a.stop) (hbound : a.stop ≤ usizeMax)
    (hfree : ∀ x, a.start ≤ x → x < a.stop → find areas x = none) (x : Nat) :
    find (areas.insert a.start a) x = if a.start ≤ x ∧ x < a.stop then some a else find areas x := by
  have hins := h.insert hlt hbound hfree
  split
  · rename_i hx
    exact hins.find_eq_some.mpr ⟨by simp, hx⟩
  · rename_i hx
    cases hfind : find areas x with
    | none =>
        rw [hins.find_eq_none]
        intro i w hi
        rw [SortedMap.get?_insert] at hi
        split at hi
        · rw [Option.some.injEq] at hi
          rwa [← hi]
        · exact h.find_eq_none.mp hfind i w hi
    | some b =>
        rw [h.find_eq_some] at hfind
        rw [hins.find_eq_some, SortedMap.get?_insert]
        refine ⟨?_, hfind.2⟩
        rw [if_neg]
        · exact hfind.1
        · intro hba
          refine h.find_eq_none.mp (hfree a.start (Nat.le_refl _) hlt) _ _ hfind.1 ⟨by omega, by omega⟩

/-- The area under a key gives way to one that takes only its addresses and
free ones. -/
theorem replace (h : Ordered areas) (hget : areas.get? k = some b) (hkey : a.start = k) (hlt : a.start < a.stop)
    (hbound : a.stop ≤ usizeMax)
    (hfree : ∀ x, a.start ≤ x → x < a.stop → find areas x = none ∨ b.start ≤ x ∧ x < b.stop) :
    Ordered (areas.insert k a) ∧ ∀ x, find (areas.insert k a) x =
      if a.start ≤ x ∧ x < a.stop then some a else if b.start ≤ x ∧ x < b.stop then none else find areas x := by
  have hfree' (x : Nat) (hx : a.start ≤ x) (hx' : x < a.stop) : find (areas.erase k) x = none := by
    rw [h.find_erase hget]
    split
    · rfl
    · rename_i hout
      exact (hfree x hx hx').resolve_right hout
  subst hkey
  rw [← SortedMap.insert_erase]
  refine ⟨(h.erase _).insert hlt hbound hfree', fun x => ?_⟩
  rw [(h.erase _).find_insert hlt hbound hfree', h.find_erase hget]

theorem get?_of_free (h : Ordered areas) (hfree : find areas k = none) : areas.get? k = none := by
  cases hget : areas.get? k with
  | none => rfl
  | some a => rw [(h.get?_iff.mp hget).1] at hfree; cases hfree

end Ordered

end TheKernel.MemorySet
