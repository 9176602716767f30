import Mathlib.Data.List.Nodup
import TheKernel.IoUring.Request
import TheKernel.Lib.Marks

namespace TheKernel.IoUring

open Outcome Act

/-- What has passed through a registry: whether each published completion was
terminal, how many of them userspace has passed, and the pairs of slot and
generation that were handed out. -/
structure Ledger where
  log : List Bool
  reaped : Nat
  issued : List (Nat × Nat)

def Ledger.unreaped (l : Ledger) : List Bool := l.log.drop l.reaped

namespace RequestRegistry

variable {r t : RequestRegistry} {l : Ledger} {id id' : RequestId} {e : RequestEntry} {state : EntryState}

def shapes (r : RequestRegistry) : List (Option Nat × Bool) := r.slots.map fun slot =>
    (slot.generation, slot.entry.isSome)

def live (r : RequestRegistry) : Nat := r.shapes.countP (·.2)

/-- The publications in flight: none or one. -/
def inFlight (r : RequestRegistry) : Nat := r.publicationInFlight.toList.length

def Announced (state : EntryState) : Prop := (∃ c, state = .publishing c) ∨ ∃ mode, state = .shotInFlight mode

structure SlotsSound (shapes : List (Option Nat × Bool)) (freeSlots : List Nat) (issued : List (Nat × Nat)) : Prop where
  nodup : freeSlots.Nodup
  free : ∀ i : Nat, i ∈ freeSlots ↔ ∃ g : Nat, shapes[i]? = some (some g, false)
  generation : ∀ i : Nat, shapes[i]? ≠ some (none, true)
  once : issued.Nodup
  past : ∀ i g : Nat, (i, g) ∈ issued → ∃ shape : Option Nat × Bool, shapes[i]? = some shape ∧
    ∀ h : Nat, shape.1 = some h → g < h ∨ g = h ∧ shape.2 = true

structure Sound (r : RequestRegistry) (l : Ledger) : Prop where
  size : ∃ k, k ≤ 16 ∧ r.cqEntries = 2 ^ k
  head : r.cqHead = BitVec.ofNat 32 l.reaped
  tail : r.cqTail = BitVec.ofNat 32 l.log.length
  reaped : l.reaped ≤ l.log.length
  room : l.log.length + r.inFlight + r.nonterminalReservations ≤ l.reaped + r.cqEntries
  reservations : r.nonterminalReservations = r.nonterminalReservation.toList.length
  marks : Marks r.cqEntries r.publishedTerminal l.log l.reaped
  credits : r.terminalCredits = r.live + l.unreaped.count true
  bounded : r.terminalCredits ≤ r.cqEntries
  slots : SlotsSound r.shapes r.freeSlots l.issued
  announced : ∀ id, r.publicationInFlight = some id → ∃ e, r.entry id = .ok e ∧ Announced e.state

section Entry

theorem entry_eq_ok : r.entry id = .ok e ↔ id.ring = r.ring ∧ r.slots[id.slot]? = some ⟨some id.generation,
    some e⟩ := by
  rw [entry]
  constructor
  · intro h
    split at h
    · cases h
    · rename_i hring
      refine ⟨not_not.mp hring, ?_⟩
      split at h
      · cases h
      · rename_i slot hslot
        split at h
        · cases h
        · rename_i hgen
          split at h
          · cases h
          · rename_i entry hentry
            cases h
            rw [hslot, ← not_not.mp hgen, ← hentry]
  · rintro ⟨hring, hslot⟩
    simp [hring, hslot]

theorem shape_of_entry (h : r.entry id = .ok e) : r.shapes[id.slot]? = some (some id.generation, true) := by
  simp [shapes, (entry_eq_ok.mp h).2]

theorem slot_lt (h : r.entry id = .ok e) : id.slot < r.slots.length :=
  (List.getElem?_eq_some_iff.mp (entry_eq_ok.mp h).2).1

theorem eq_of_slot {e' : RequestEntry} (h : r.entry id = .ok e) (h' : r.entry id' = .ok e')
    (hslot : id'.slot = id.slot) : id' = id := by
  obtain ⟨hring, hid⟩ := entry_eq_ok.mp h
  obtain ⟨hring', hid'⟩ := entry_eq_ok.mp h'
  rw [hslot, hid] at hid'
  rcases id with ⟨a, b, c⟩
  rcases id' with ⟨a', b', c'⟩
  simp_all

theorem shapes_setState : (r.setState id state).shapes = r.shapes := by
  apply List.ext_getElem?
  intro i
  simp only [shapes, setState, List.getElem?_map, List.getElem?_modify]
  cases r.slots[i]? with
  | none => rfl
  | some slot => by_cases h : id.slot = i <;> simp [h]

theorem entry_setState_self (h : r.entry id = .ok e) :
    (r.setState id state).entry id = .ok { e with state := state } := by
  obtain ⟨hring, hslot⟩ := entry_eq_ok.mp h
  apply entry_eq_ok.mpr
  refine ⟨hring, ?_⟩
  simp [setState, hslot]

theorem entry_setState_ne (h : r.entry id = .ok e) {e' : RequestEntry} (h' : r.entry id' = .ok e') (hne : id' ≠ id) :
    (r.setState id state).entry id' = .ok e' := by
  obtain ⟨hring, hslot⟩ := entry_eq_ok.mp h'
  apply entry_eq_ok.mpr
  refine ⟨hring, ?_⟩
  have hslots : id.slot ≠ id'.slot := fun heq => hne (eq_of_slot h h' heq.symm)
  simp [setState, hslots, hslot]

end Entry

section Ring

theorem cqEntries_pos (h : Sound r l) : 0 < r.cqEntries := by
  obtain ⟨k, _, hk⟩ := h.size
  rw [hk]
  exact Nat.two_pow_pos k

theorem cqEntries_le (h : Sound r l) : r.cqEntries ≤ 65536 := by
  obtain ⟨k, hle, hk⟩ := h.size
  rw [hk]
  exact Nat.pow_le_pow_right (by omega) hle

theorem window_le (h : Sound r l) : l.log.length ≤ l.reaped + r.cqEntries := by
  have hroom := h.room
  omega

/-- The counters wrap, and the size of the ring divides their period. -/
theorem cqSlot_ofNat (h : Sound r l) (k : Nat) : r.cqSlot (BitVec.ofNat 32 k) = k % r.cqEntries := by
  obtain ⟨b, hle, hb⟩ := h.size
  have hpow : 2 ^ b ≤ 2 ^ 16 := Nat.pow_le_pow_right (by omega) hle
  rw [cqSlot, BitVec.toNat_and, BitVec.toNat_ofNat, BitVec.toNat_ofNat, Nat.mod_eq_of_lt (b := 2 ^ 32)
    (a := r.cqEntries - 1)]
  · rw [hb, Nat.and_two_pow_sub_one_eq_mod]
    exact Nat.mod_mod_of_dvd _ (Nat.pow_dvd_pow 2 (by omega))
  · rw [hb]
    omega

theorem toNat_sub_ofNat {a b : Nat} (hle : a ≤ b) (hlt : b < a + 2 ^ 32) :
    (BitVec.ofNat 32 b - BitVec.ofNat 32 a).toNat = b - a := by
  rw [BitVec.toNat_sub, BitVec.toNat_ofNat, BitVec.toNat_ofNat]
  omega

theorem publishedCount_eq (h : Sound r l) : r.publishedCount = .ok (l.log.length - l.reaped) := by
  have hle := window_le h
  have hcq := cqEntries_le h
  have hreaped := h.reaped
  rw [publishedCount, h.head, h.tail, toNat_sub_ofNat h.reaped (by omega), if_pos (by omega)]

end Ring

theorem Sound.setState (h : Sound r l) (he : r.entry id = .ok e)
    (hannounced : r.publicationInFlight = some id → Announced state) : Sound (r.setState id state) l := by
  refine ⟨h.size, h.head, h.tail, h.reaped, h.room, h.reservations, h.marks, ?_, h.bounded, ?_, ?_⟩
  · rw [live, shapes_setState]
    exact h.credits
  · rw [shapes_setState]
    exact h.slots
  · intro id' hid'
    obtain ⟨e', he', hstate'⟩ := h.announced id' hid'
    by_cases heq : id' = id
    · subst heq
      exact ⟨_, entry_setState_self he, hannounced hid'⟩
    · exact ⟨e', entry_setState_ne he he' heq, hstate'⟩

/-- A request that is not announced has no publication in flight. -/
theorem Sound.not_inFlight (h : Sound r l) (he : r.entry id = .ok e) (hstate : ¬ Announced e.state) :
    r.publicationInFlight ≠ some id := by
  intro hid
  obtain ⟨e', he', hannounced⟩ := h.announced id hid
  rw [he] at he'
  cases he'
  exact hstate hannounced

theorem not_announced_reserved : ¬ Announced .reserved := by simp [Announced]

theorem not_announced_prepared : ¬ Announced .prepared := by simp [Announced]

theorem not_announced_issued {mode : CancellationMode} : ¬ Announced (.issued mode) := by simp [Announced]

theorem not_announced_claimed {cause : TerminalCause} : ¬ Announced (.terminalClaimed cause) := by simp [Announced]

theorem not_announced_pending {c : Completion} : ¬ Announced (.completionPending c) := by simp [Announced]

theorem Sound.restate (h : Sound r l) (he : r.entry id = .ok e) (hstate : ¬ Announced e.state) :
    Sound (r.setState id state) l :=
  h.setState he fun hid => absurd hid (h.not_inFlight he hstate)

section Slots

variable {shapes : List (Option Nat × Bool)} {freeSlots : List Nat} {issued : List (Nat × Nat)} {i g : Nat}

theorem SlotsSound.start (capacity : Nat) :
    SlotsSound (List.replicate capacity (some 1, false)) (List.range capacity).reverse [] := by
  refine ⟨?_, ?_, ?_, List.nodup_nil, by simp⟩
  · rw [List.nodup_reverse]
    exact List.nodup_range
  · intro i
    simp [List.getElem?_replicate]
  · intro i
    simp [List.getElem?_replicate]

theorem SlotsSound.take (h : SlotsSound shapes freeSlots issued) (hlast : freeSlots.getLast? = some i)
    (hshape : shapes[i]? = some (some g, false)) :
    SlotsSound (shapes.set i (some g, true)) freeSlots.dropLast ((i, g) :: issued) := by
  have hlt : i < shapes.length := (List.getElem?_eq_some_iff.mp hshape).1
  obtain ⟨rest, hrest⟩ := List.getLast?_eq_some_iff.mp hlast
  have hnodup := h.nodup
  rw [hrest, List.nodup_append] at hnodup
  have hi : i ∉ rest := fun hmem => hnodup.2.2 i hmem i (by simp) rfl
  subst hrest
  refine ⟨by simpa using hnodup.1, ?_, ?_, ?_, ?_⟩
  · intro j
    rw [List.dropLast_concat]
    by_cases hj : i = j
    · subst hj
      simp [hi, hlt]
    · have hfree := h.free j
      simp only [List.mem_append, List.mem_singleton, Ne.symm hj, or_false] at hfree
      rw [List.getElem?_set_ne hj, hfree]
  · intro j
    by_cases hj : i = j
    · subst hj
      simp [hlt]
    · rw [List.getElem?_set_ne hj]
      exact h.generation j
  · refine List.nodup_cons.mpr ⟨?_, h.once⟩
    intro hmem
    obtain ⟨shape, hshape', hpast⟩ := h.past i g hmem
    rw [hshape] at hshape'
    cases hshape'
    simpa using hpast g rfl
  · intro j g' hmem
    rcases List.mem_cons.mp hmem with heq | hmem
    · cases heq
      exact ⟨_, List.getElem?_set_self hlt, fun h hh => .inr ⟨Option.some.inj hh, rfl⟩⟩
    · obtain ⟨shape, hshape', hpast⟩ := h.past j g' hmem
      by_cases hj : i = j
      · subst hj
        rw [hshape] at hshape'
        cases hshape'
        refine ⟨_, List.getElem?_set_self hlt, fun h hh => .inl ?_⟩
        simpa using hpast h hh
      · exact ⟨shape, by rw [List.getElem?_set_ne hj, hshape'], hpast⟩

/-- A request leaves its slot, which is free again unless its generations are
exhausted. -/
theorem SlotsSound.clear (h : SlotsSound shapes freeSlots issued) (hshape : shapes[i]? = some (some g, true))
    {next : Option Nat} (hnext : ∀ n, next = some n → n = g + 1) :
    SlotsSound (shapes.set i (next, false)) (if next = none then freeSlots else freeSlots ++ [i]) issued := by
  have hlt : i < shapes.length := (List.getElem?_eq_some_iff.mp hshape).1
  have hi : i ∉ freeSlots := by
    intro hmem
    obtain ⟨g', hg'⟩ := (h.free i).mp hmem
    rw [hshape] at hg'
    cases hg'
  have hpast : ∀ j g', (j, g') ∈ issued → ∃ shape : Option Nat × Bool, (shapes.set i (next, false))[j]? = some shape ∧
      ∀ h : Nat, shape.1 = some h → g' < h ∨ g' = h ∧ shape.2 = true := by
    intro j g' hmem
    obtain ⟨shape, hshape', hpast⟩ := h.past j g' hmem
    by_cases hj : i = j
    · subst hj
      rw [hshape] at hshape'
      cases hshape'
      refine ⟨_, List.getElem?_set_self hlt, fun n hn => .inl ?_⟩
      have hn' := hnext n hn
      rcases hpast g rfl with hlt' | ⟨rfl, _⟩ <;> omega
    · exact ⟨shape, by rw [List.getElem?_set_ne hj, hshape'], hpast⟩
  have hgeneration : ∀ j : Nat, (shapes.set i (next, false))[j]? ≠ some (none, true) := by
    intro j
    by_cases hj : i = j
    · subst hj
      simp [hlt]
    · rw [List.getElem?_set_ne hj]
      exact h.generation j
  cases next with
  | none =>
      refine ⟨h.nodup, ?_, hgeneration, h.once, hpast⟩
      intro j
      by_cases hj : i = j
      · subst hj
        simp [hi, hlt]
      · rw [List.getElem?_set_ne hj]
        exact h.free j
  | some n =>
      refine ⟨?_, ?_, hgeneration, h.once, hpast⟩
      · simp only [reduceCtorEq, if_false, List.nodup_append]
        refine ⟨h.nodup, List.nodup_singleton i, ?_⟩
        rintro a ha b hb rfl
        rw [List.mem_singleton] at hb
        exact hi (hb ▸ ha)
      · intro j
        simp only [reduceCtorEq, if_false, List.mem_append, List.mem_singleton]
        by_cases hj : i = j
        · subst hj
          simp [hlt]
        · rw [List.getElem?_set_ne hj, h.free j]
          simp [Ne.symm hj]

theorem SlotsSound.length_lt (h : SlotsSound shapes freeSlots issued) (hshape : shapes[i]? = some (some g, true)) :
    freeSlots.length < shapes.length := by
  have hlt : i < shapes.length := (List.getElem?_eq_some_iff.mp hshape).1
  have hsub : (i :: freeSlots) ⊆ List.range shapes.length := by
    intro j hj
    rw [List.mem_range]
    rcases List.mem_cons.mp hj with rfl | hj
    · exact hlt
    · obtain ⟨g', hg'⟩ := (h.free j).mp hj
      exact (List.getElem?_eq_some_iff.mp hg').1
  have hnodup : (i :: freeSlots).Nodup := by
    refine List.nodup_cons.mpr ⟨?_, h.nodup⟩
    intro hmem
    obtain ⟨g', hg'⟩ := (h.free i).mp hmem
    rw [hshape] at hg'
    cases hg'
  have hle := (List.subperm_of_subset hnodup hsub).length_le
  rw [List.length_cons, List.length_range] at hle
  exact hle

end Slots

end RequestRegistry

end TheKernel.IoUring
