import Mathlib.Data.List.Count
import Mathlib.Data.Nat.ModEq

namespace TheKernel

/-- The `n` marks of a ring through which the positions of `log` pass: a cell is
marked while a marked position from `reaped` on occupies it. -/
structure Marks (n : Nat) (marks log : List Bool) (reaped : Nat) : Prop where
  length : marks.length = n
  marked : ∀ i : Nat, marks[i]? = some true ↔ i < n ∧ ∃ k : Nat, reaped ≤ k ∧ log[k]? = some true ∧ k % n = i
  count : marks.count true = (log.drop reaped).count true

namespace Marks

variable {n reaped k k' : Nat} {marks log : List Bool} {b : Bool}

/-- Less than a turn of the ring apart, two positions share no cell. -/
theorem eq_of_mod (hle : k ≤ k') (hlt : k' < k + n) (h : k % n = k' % n) : k = k' := by
  have hzero : (k' - k) % n = 0 := Nat.sub_mod_eq_zero_of_mod_eq h.symm
  rw [Nat.mod_eq_of_lt (by omega)] at hzero
  omega

theorem start : Marks n (List.replicate n false) [] 0 := by
  refine ⟨by simp, ?_, by simp [List.count_replicate]⟩
  intro i
  simp [List.getElem?_replicate]

theorem lt (h : Marks n marks log reaped) (hroom : log.length < reaped + n) (hle : reaped ≤ log.length) (k : Nat) :
    k % n < marks.length := by
  rw [h.length]
  exact Nat.mod_lt _ (by omega)

/-- The cell that the next position will take is not marked. -/
theorem unmarked (h : Marks n marks log reaped) (hle : reaped ≤ log.length) (hroom : log.length < reaped + n) :
    marks[log.length % n]? = some false := by
  have hlt := h.lt hroom hle log.length
  rw [List.getElem?_eq_getElem hlt]
  cases hmark : marks[log.length % n] with
  | false => rfl
  | true =>
      obtain ⟨_, k, hk, hlog, hmod⟩ := (h.marked _).mp (List.getElem?_eq_getElem hlt ▸ congrArg some hmark)
      have hklt : k < log.length := (List.getElem?_eq_some_iff.mp hlog).1
      have heq := eq_of_mod hklt.le (by omega) hmod
      omega

theorem push (h : Marks n marks log reaped) (hle : reaped ≤ log.length) (hroom : log.length < reaped + n) :
    Marks n (marks.set (log.length % n) b) (log ++ [b]) reaped := by
  have hlt := h.lt hroom hle log.length
  have hfalse := h.unmarked hle hroom
  refine ⟨by simpa using h.length, ?_, ?_⟩
  · intro i
    by_cases hi : log.length % n = i
    · subst hi
      rw [List.getElem?_set_self hlt, Option.some.injEq]
      constructor
      · rintro rfl
        exact ⟨h.length ▸ hlt, log.length, hle, by simp, rfl⟩
      · rintro ⟨_, k, hk, hlog, hmod⟩
        have hklt : k < log.length + 1 := by simpa using (List.getElem?_eq_some_iff.mp hlog).1
        have heq := eq_of_mod (Nat.lt_succ_iff.mp hklt) (by omega) hmod
        subst heq
        simpa using hlog
    · rw [List.getElem?_set_ne hi, h.marked]
      constructor
      · rintro ⟨hlt, k, hk, hlog, hmod⟩
        have hklt : k < log.length := (List.getElem?_eq_some_iff.mp hlog).1
        exact ⟨hlt, k, hk, by rw [List.getElem?_append_left hklt, hlog], hmod⟩
      · rintro ⟨hlt, k, hk, hlog, hmod⟩
        have hklt : k < log.length + 1 := by simpa using (List.getElem?_eq_some_iff.mp hlog).1
        rcases Nat.lt_succ_iff_lt_or_eq.mp hklt with hklt | rfl
        · exact ⟨hlt, k, hk, by rw [← hlog, List.getElem?_append_left hklt], hmod⟩
        · exact absurd hmod hi
  · rw [List.getElem?_eq_getElem hlt, Option.some.injEq] at hfalse
    rw [List.count_set hlt, hfalse, h.count, List.drop_append_of_le_length hle, List.count_append]
    cases b <;> simp

/-- The cell of the oldest position is its mark, and is cleared. -/
theorem pop (h : Marks n marks log reaped) (hroom : log.length ≤ reaped + n) (hlog : log[reaped]? = some b) :
    marks[reaped % n]? = some b ∧ Marks n (marks.set (reaped % n) false) log (reaped + 1) := by
  have hrlt : reaped < log.length := (List.getElem?_eq_some_iff.mp hlog).1
  have hlt : reaped % n < marks.length := by
    rw [h.length]
    exact Nat.mod_lt _ (by omega)
  have hsame : ∀ k, reaped ≤ k → k < log.length → k % n = reaped % n → k = reaped := by
    intro k hk hklt hmod
    exact (eq_of_mod hk (by omega) hmod.symm).symm
  have hmark : marks[reaped % n] = b := by
    have hiff := h.marked (reaped % n)
    rw [List.getElem?_eq_getElem hlt, Option.some.injEq] at hiff
    cases b with
    | true => exact hiff.mpr ⟨h.length ▸ hlt, reaped, le_rfl, hlog, rfl⟩
    | false =>
        cases hval : marks[reaped % n] with
        | false => rfl
        | true =>
            obtain ⟨_, k, hk, hlog', hmod⟩ := hiff.mp hval
            have heq := hsame k hk (List.getElem?_eq_some_iff.mp hlog').1 hmod
            rw [heq, hlog] at hlog'
            cases hlog'
  have hdrop : log.drop reaped = b :: log.drop (reaped + 1) := by
    rw [List.drop_eq_getElem_cons hrlt]
    rw [List.getElem?_eq_getElem hrlt, Option.some.injEq] at hlog
    rw [hlog]
  refine ⟨by rw [List.getElem?_eq_getElem hlt, hmark], by simpa using h.length, ?_, ?_⟩
  · intro i
    by_cases hi : reaped % n = i
    · subst hi
      rw [List.getElem?_set_self hlt]
      constructor
      · rintro ⟨⟩
      · rintro ⟨_, k, hk, hlog', hmod⟩
        have heq := hsame k (by omega) (List.getElem?_eq_some_iff.mp hlog').1 hmod
        omega
    · rw [List.getElem?_set_ne hi, h.marked]
      constructor
      · rintro ⟨hlt, k, hk, hlog', hmod⟩
        rcases Nat.lt_or_eq_of_le hk with hk | rfl
        · exact ⟨hlt, k, hk, hlog', hmod⟩
        · exact absurd hmod hi
      · rintro ⟨hlt, k, hk, hlog', hmod⟩
        exact ⟨hlt, k, by omega, hlog', hmod⟩
  · rw [List.count_set hlt, hmark, h.count, hdrop]
    cases b <;> simp

end Marks

end TheKernel
