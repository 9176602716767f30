import Mathlib.Data.List.Nodup

namespace TheKernel

def Spent (next : Option Nat) (raw : Nat) : Prop := ∀ n, next = some n → raw < n

/-- Issuers, each an identity and the number it hands out next, have handed
out these tokens. -/
structure Issued (issuers : List (Nat × Option Nat)) (tokens : List (Nat × Nat)) : Prop where
  distinct : (issuers.map Prod.fst).Nodup
  spent : ∀ token ∈ tokens, ∃ issuer ∈ issuers, issuer.1 = token.1 ∧ Spent issuer.2 token.2
  nodup : tokens.Nodup

variable {issuers : List (Nat × Option Nat)} {tokens : List (Nat × Nat)} {i identity n : Nat}
  {next next' : Option Nat}

theorem issued_nil : Issued [] [] := ⟨List.nodup_nil, by simp, List.nodup_nil⟩

theorem Issued.add (h : Issued issuers tokens) (hfresh : ∀ issuer ∈ issuers, issuer.1 ≠ identity) :
    Issued (issuers ++ [(identity, next)]) tokens := by
  refine ⟨?_, ?_, h.nodup⟩
  · rw [List.map_append, List.nodup_append]
    refine ⟨h.distinct, by simp, ?_⟩
    intro a ha b hb
    obtain ⟨issuer, hissuer, rfl⟩ := List.mem_map.mp ha
    cases List.mem_singleton.mp hb
    exact hfresh issuer hissuer
  · intro token htoken
    obtain ⟨issuer, hissuer, hspent⟩ := h.spent token htoken
    exact ⟨issuer, List.mem_append_left _ hissuer, hspent⟩

theorem map_fst_set (hi : issuers[i]? = some (identity, next)) :
    (issuers.set i (identity, next')).map Prod.fst = issuers.map Prod.fst := by
  rw [List.map_set]
  apply List.ext_getElem?
  intro j
  rw [List.getElem?_set, List.getElem?_map]
  split
  · subst i
    rw [hi, if_pos (by simpa using (List.getElem?_eq_some_iff.mp hi).1)]
    rfl
  · rfl

theorem Issued.replace (h : Issued issuers tokens) (hi : issuers[i]? = some (identity, next))
    (hnext : ∀ raw, Spent next raw → Spent next' raw) : Issued (issuers.set i (identity, next')) tokens := by
  refine ⟨?_, ?_, h.nodup⟩
  · rw [map_fst_set hi]
    exact h.distinct
  · intro token htoken
    obtain ⟨issuer, hissuer, hid, hspent⟩ := h.spent token htoken
    obtain ⟨j, hj⟩ := List.mem_iff_getElem?.mp hissuer
    by_cases hij : i = j
    · subst hij
      rw [hi] at hj
      cases hj
      exact ⟨(identity, next'), List.mem_set (List.getElem?_eq_some_iff.mp hi).1 _, hid, hnext _ hspent⟩
    · refine ⟨issuer, List.mem_iff_getElem?.mpr ⟨j, ?_⟩, hid, hspent⟩
      rw [List.getElem?_set_ne hij]
      exact hj

/-- The next token is new: its issuer has spent only smaller numbers, and no
other has its identity. -/
theorem Issued.issue (h : Issued issuers tokens) (hi : issuers[i]? = some (identity, some n))
    (hnext : ∀ raw, Spent (some n) raw → Spent next' raw) (hn : Spent next' n) :
    Issued (issuers.set i (identity, next')) (tokens ++ [(identity, n)]) := by
  have hreplaced := h.replace hi hnext
  refine ⟨hreplaced.distinct, ?_, ?_⟩
  · intro token htoken
    rcases List.mem_append.mp htoken with htoken | htoken
    · exact hreplaced.spent token htoken
    · cases List.mem_singleton.mp htoken
      exact ⟨(identity, next'), List.mem_set (List.getElem?_eq_some_iff.mp hi).1 _, rfl, hn⟩
  · rw [← List.concat_eq_append]
    apply h.nodup.concat
    intro hmem
    obtain ⟨issuer, hissuer, hid, hspent⟩ := h.spent _ hmem
    have hsame := List.inj_on_of_nodup_map h.distinct hissuer (List.mem_of_getElem? hi) hid
    rw [hsame] at hspent
    exact Nat.lt_irrefl n (hspent n rfl)

end TheKernel
