import Mathlib.Algebra.Order.Ring.Int

namespace TheKernel

/-- `usize::MAX` on the 64-bit targets. -/
def usizeMax : Nat := 2 ^ 64 - 1

def checkedAdd (a b : Nat) : Option Nat := if a + b ≤ usizeMax then some (a + b) else none

def checkedMul (a b : Nat) : Option Nat := if a * b ≤ usizeMax then some (a * b) else none

/-- `checked_add` on counters of `bits` bits. -/
def checkedAddBits (bits a b : Nat) : Option Nat := if a + b < 2 ^ bits then some (a + b) else none

def checkedSub (a b : Nat) : Option Nat := if b ≤ a then some (a - b) else none

/-- The `i32` that arithmetic which overflows leaves. -/
def i32 (x : Int) : Int := x.bmod (2 ^ 32)

theorem i32_eq {x : Int} (h : -2 ^ 31 ≤ x) (h' : x < 2 ^ 31) : i32 x = x := by
  rw [i32, Int.bmod_eq_of_le] <;> omega

theorem checkedAdd_eq_some {a b c : Nat} : checkedAdd a b = some c ↔ a + b = c ∧ c ≤ usizeMax := by
  unfold checkedAdd
  split
  · constructor
    · rintro ⟨⟩
      exact ⟨rfl, by assumption⟩
    · rintro ⟨rfl, _⟩
      rfl
  · constructor
    · rintro ⟨⟩
    · rintro ⟨rfl, h⟩
      contradiction

end TheKernel
