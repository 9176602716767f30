import Mathlib.Data.Fintype.Pi
import Mathlib.Data.Fin.VecNotation
import Mathlib.Tactic.Tauto

namespace TheKernel

theorem and_twoPow_eq_zero {width bit : Nat} {x : BitVec width} : x &&& BitVec.twoPow width bit = 0 ↔
    x.getLsbD bit = false := by
  rw [BitVec.and_twoPow]
  split
  next hbit =>
    rw [hbit]
    simp only [reduceCtorEq, iff_false]
    intro hzero
    have := congrArg (fun y => y.getLsbD bit) hzero
    simp [BitVec.lt_of_getLsbD hbit] at this
  next hbit => simp [hbit]

structure BitWords (count width : Nat) where
  word : Fin count → BitVec width

namespace BitWords

variable {count width : Nat}

instance : Membership (Fin count × Fin width) (BitWords count width) :=
  ⟨fun a flag => (a.word flag.1).getLsbD flag.2 = true⟩

instance : EmptyCollection (BitWords count width) := ⟨⟨fun _ => 0⟩⟩

instance : Union (BitWords count width) := ⟨fun a b => ⟨fun i => a.word i ||| b.word i⟩⟩

instance : Inter (BitWords count width) := ⟨fun a b => ⟨fun i => a.word i &&& b.word i⟩⟩

/-- No word of `a` has a bit outside of `b`. -/
instance : HasSubset (BitWords count width) := ⟨fun a b => ∀ i, a.word i &&& ~~~b.word i = 0⟩

instance (a b : BitWords count width) : Decidable (a ⊆ b) :=
  inferInstanceAs (Decidable (∀ i, a.word i &&& ~~~b.word i = 0))

def modify (a : BitWords count width) (i : Fin count) (f : BitVec width → BitVec width) : BitWords count width :=
  ⟨Function.update a.word i (f (a.word i))⟩

variable {a b c d : BitWords count width} {flag : Fin count × Fin width} {i : Fin count}

theorem mem_def : flag ∈ a ↔ (a.word flag.1).getLsbD flag.2 = true := Iff.rfl

@[simp] theorem not_mem_empty : flag ∉ (∅ : BitWords count width) := by
  intro h
  simp only [mem_def, EmptyCollection.emptyCollection, BitVec.ofNat_eq_ofNat, BitVec.getLsbD_zero,
    Bool.false_eq_true] at h

@[simp] theorem mem_union : flag ∈ a ∪ b ↔ flag ∈ a ∨ flag ∈ b := by
  simp only [mem_def, Union.union, BitVec.getLsbD_or, Bool.or_eq_true]

@[simp] theorem mem_inter : flag ∈ a ∩ b ↔ flag ∈ a ∧ flag ∈ b := by
  simp only [mem_def, Inter.inter, BitVec.getLsbD_and, Bool.and_eq_true]

/-- The masked words are zero when every flag of one is a flag of the other. -/
theorem subset_iff : a ⊆ b ↔ ∀ flag ∈ a, flag ∈ b := by
  constructor
  · rintro h ⟨i, j⟩ hmem
    have hbit := congrArg (fun x => x.getLsbD j) (h i)
    simp only [mem_def] at hmem ⊢
    simpa [hmem] using hbit
  · intro h i
    apply BitVec.eq_of_getLsbD_eq
    intro j hj
    have hbit := h (i, ⟨j, hj⟩)
    simp only [mem_def] at hbit
    simp only [BitVec.getLsbD_and, BitVec.getLsbD_not, hj, decide_true, Bool.true_and, BitVec.ofNat_eq_ofNat,
      BitVec.getLsbD_zero]
    cases hb : (b.word i).getLsbD j <;> simp_all

theorem subset_refl (a : BitWords count width) : a ⊆ a := subset_iff.mpr fun _ h => h

theorem subset_trans (h : a ⊆ b) (h' : b ⊆ c) : a ⊆ c :=
  subset_iff.mpr fun flag hflag => subset_iff.mp h' flag (subset_iff.mp h flag hflag)

theorem empty_subset (a : BitWords count width) : ∅ ⊆ a := subset_iff.mpr fun _ h => absurd h not_mem_empty

theorem subset_inter : a ⊆ b ∩ c ↔ a ⊆ b ∧ a ⊆ c := by
  simp only [subset_iff, mem_inter]
  exact ⟨fun h => ⟨fun x hx => (h x hx).1, fun x hx => (h x hx).2⟩, fun h x hx => ⟨h.1 x hx, h.2 x hx⟩⟩

theorem union_subset : a ∪ b ⊆ c ↔ a ⊆ c ∧ b ⊆ c := by
  simp only [subset_iff, mem_union]
  exact ⟨fun h => ⟨fun x hx => h x (.inl hx), fun x hx => h x (.inr hx)⟩, fun h x hx => hx.elim (h.1 x) (h.2 x)⟩

theorem mem_modify {f : BitVec width → BitVec width} :
    flag ∈ a.modify i f ↔ if flag.1 = i then (f (a.word i)).getLsbD flag.2 = true else flag ∈ a := by
  simp only [mem_def, modify, Function.update_apply]
  split <;> rfl

theorem modify_and_subset (mask : BitVec width) : a.modify i (· &&& mask) ⊆ a := by
  rw [subset_iff]
  intro flag hflag
  rw [mem_modify] at hflag
  split at hflag
  next heq =>
    rw [BitVec.getLsbD_and, Bool.and_eq_true] at hflag
    rw [mem_def, heq]
    exact hflag.1
  next => exact hflag

/-- Setting a bit that `b` has stays within `b`. -/
theorem modify_or_subset {bit : Nat} (h : a ⊆ b) (hbit : b.word i &&& BitVec.twoPow width bit ≠ 0) :
    a.modify i (· ||| BitVec.twoPow width bit) ⊆ b := by
  rw [subset_iff] at h ⊢
  intro flag hflag
  rw [mem_modify] at hflag
  split at hflag
  next heq =>
    rw [BitVec.getLsbD_or, Bool.or_eq_true] at hflag
    rcases hflag with hflag | hflag
    · exact h flag (by rwa [mem_def, heq])
    · simp only [BitVec.getLsbD_twoPow, Bool.and_eq_true, decide_eq_true_eq] at hflag
      rw [ne_eq, and_twoPow_eq_zero, Bool.not_eq_false, hflag.2] at hbit
      rwa [mem_def, heq]
  next => exact h flag hflag

end BitWords

end TheKernel
