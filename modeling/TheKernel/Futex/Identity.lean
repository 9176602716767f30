import Mathlib.Algebra.Order.BigOperators.Group.List
import Mathlib.Algebra.Order.Group.Nat
import TheKernel.Futex.Table

namespace TheKernel.Futex

namespace State

variable {s : State} {t t' : TableId} {k k' : FutexTableKey} {e e' : EntryId} {h : Holder} {i : Nat}

def Current (s : State) : Domain → TableId → Prop
  | .process pid, t => s.processes[pid]? = some t
  | .backing id, t => s.shared.get? id = some t

/-- The count of the table has been read by the lookup that prunes. -/
def Counted (s : State) (t : TableId) : Prop :=
  ∃ wanted id rest, s.pruning = some ⟨wanted, id :: rest, true⟩ ∧ s.shared.get? id = some t

structure Sound (s : State) : Prop where
  home : ∀ t k e, s.slot t k = some e → ∃ entry, s.entries[e]? = some entry ∧ entry.table = t ∧ entry.key = k
  handle : ∀ t k e, .handle t k e ∈ s.holders → s.slot t k = some e
  removing : ∀ t k e, .removing t k e ∈ s.holders → s.slot t k = some e ∧ ∀ t' k', .handle t' k' e ∉ s.holders
  lock : ∀ t, s.holders.countP (·.removes t) ≤ 1
  waiting : ∀ (e : EntryId) entry, s.entries[e]? = some entry → entry.waiters ≠ [] →
    s.slot entry.table entry.key = some e
  held : ∀ d t, .table d t ∈ s.holders → s.Current d t
  filled : ∀ t k e, s.slot t k = some e → ∃ table, s.tables[t]? = some table ∧ s.Current table.domain t
  owned : ∀ d t, s.Current d t → ∃ table, s.tables[t]? = some table ∧ table.domain = d
  counted : ∀ t, s.Counted t → ∀ d, .table d t ∉ s.holders

section Holders

/-- The holders change, and with them only what the table code relies on. -/
theorem Sound.setHolders {hs : List Holder} (hsound : s.Sound)
    (hhandle : ∀ t k e, .handle t k e ∈ hs → s.slot t k = some e)
    (hremoving : ∀ t k e, .removing t k e ∈ hs → s.slot t k = some e ∧ ∀ t' k', .handle t' k' e ∉ hs)
    (hlock : ∀ t, hs.countP (·.removes t) ≤ 1)
    (hheld : ∀ d t, .table d t ∈ hs → s.Current d t ∧ ¬ s.Counted t) : Sound { s with holders := hs } :=
  { hsound with
    handle := hhandle
    removing := hremoving
    lock := hlock
    held := fun d t h => (hheld d t h).1
    counted := fun t hcounted d h => (hheld d t h).2 hcounted }

theorem Sound.table (hs : s.Sound) {d : Domain} (h : .table d t ∈ s.holders) : s.Current d t ∧ ¬ s.Counted t :=
  ⟨hs.held d t h, fun hcounted => hs.counted t hcounted d h⟩

def Passive : Holder → Prop
  | .table .. | .handle .. | .removing .. => False
  | _ => True

theorem Passive.removes (hpassive : Passive h) (t : TableId) : h.removes t = false := by
  cases h with
  | removing => exact hpassive.elim
  | _ => rfl

theorem countP_set_le {α : Type} {p : α → Bool} {l : List α} {a : α} (ha : p a = false) :
    (l.set i a).countP p ≤ l.countP p := by
  rcases Nat.lt_or_ge i l.length with hlt | hge
  · rw [List.countP_set hlt, ha]
    simp only [Bool.false_eq_true, if_false]
    omega
  · rw [List.set_eq_of_length_le hge]

theorem Sound.setHolder (hs : s.Sound) (hpassive : Passive h) : (s.setHolder i h).Sound := by
  have hkeep : ∀ h' ∈ s.holders.set i h, ¬ Passive h' → h' ∈ s.holders := by
    intro h' hh' hactive
    rcases List.mem_or_eq_of_mem_set hh' with hin | rfl
    · exact hin
    · exact absurd hpassive hactive
  apply hs.setHolders
  · intro t k e hhandle
    exact hs.handle t k e (hkeep _ hhandle id)
  · intro t k e hremoving
    obtain ⟨hslot, hnone⟩ := hs.removing t k e (hkeep _ hremoving id)
    exact ⟨hslot, fun t' k' hhandle => hnone t' k' (hkeep _ hhandle id)⟩
  · intro t
    exact (countP_set_le (hpassive.removes t)).trans (hs.lock t)
  · intro d t htable
    exact hs.table (hkeep _ htable id)

theorem mem_hold {h' : Holder} : h' ∈ (s.hold h).holders ↔ h' ∈ s.holders ∨ h' = h := by
  simp [State.hold]

theorem Sound.hold (hs : s.Sound) (hhandle : ∀ t k e, h ≠ .handle t k e) (hremoving : ∀ t k e, h ≠ .removing t k e)
    (htable : ∀ d t, h = .table d t → s.Current d t ∧ ¬ s.Counted t) : (s.hold h).Sound := by
  apply hs.setHolders
  · intro t k e hmem
    rcases mem_hold.mp hmem with hin | heq
    · exact hs.handle t k e hin
    · exact absurd heq.symm (hhandle t k e)
  · intro t k e hmem
    rcases mem_hold.mp hmem with hin | heq
    · refine ⟨(hs.removing t k e hin).1, ?_⟩
      intro t' k' hmem'
      rcases mem_hold.mp hmem' with hin' | heq'
      · exact (hs.removing t k e hin).2 t' k' hin'
      · exact absurd heq'.symm (hhandle t' k' e)
    · exact absurd heq.symm (hremoving t k e)
  · intro t
    have hnot : h.removes t = false := by
      cases h with
      | removing t' k e => exact absurd rfl (hremoving t' k e)
      | _ => rfl
    rw [List.countP_append, List.countP_singleton, hnot]
    exact hs.lock t
  · intro d t hmem
    rcases mem_hold.mp hmem with hin | heq
    · exact hs.table hin
    · exact htable d t heq.symm

theorem not_removing_of_unlocked (hfree : s.locked t = false) : .removing t k e ∉ s.holders := by
  intro hmem
  rw [locked, List.any_eq_false] at hfree
  exact hfree _ hmem (by simp [Holder.removes])

/-- An entry stands in one slot only. -/
theorem Sound.slot_inj (hs : s.Sound) (hslot : s.slot t k = some e) (hslot' : s.slot t' k' = some e) :
    t = t' ∧ k = k' := by
  obtain ⟨entry, hentry, rfl, rfl⟩ := hs.home t k e hslot
  obtain ⟨entry', hentry', rfl, rfl⟩ := hs.home t' k' e hslot'
  rw [hentry] at hentry'
  cases hentry'
  exact ⟨rfl, rfl⟩

theorem Sound.holdHandle (hs : s.Sound) (hfree : s.locked t = false) (hslot : s.slot t k = some e) :
    (s.hold (.handle t k e)).Sound := by
  have hother : ∀ t' k', .removing t' k' e ∉ s.holders := by
    intro t' k' hmem
    obtain ⟨rfl, rfl⟩ := hs.slot_inj hslot (hs.removing t' k' e hmem).1
    exact not_removing_of_unlocked hfree hmem
  apply hs.setHolders
  · intro t' k' e' hhandle
    rcases mem_hold.mp hhandle with hin | heq
    · exact hs.handle t' k' e' hin
    · cases heq
      exact hslot
  · intro t' k' e' hremoving
    rcases mem_hold.mp hremoving with hin | heq
    · refine ⟨(hs.removing t' k' e' hin).1, ?_⟩
      intro t'' k'' hhandle
      rcases mem_hold.mp hhandle with hin' | heq
      · exact (hs.removing t' k' e' hin).2 t'' k'' hin'
      · cases heq
        exact hother t' k' hin
    · cases heq
  · intro t'
    rw [List.countP_append, List.countP_singleton]
    exact hs.lock t'
  · intro d t' htable
    rcases mem_hold.mp htable with hin | heq
    · exact hs.table hin
    · cases heq

theorem two_le_countP {α : Type} [DecidableEq α] {p : α → Bool} {l : List α} {a b : α} (ha : a ∈ l) (hb : b ∈ l)
    (hne : a ≠ b) (hpa : p a = true) (hpb : p b = true) : 2 ≤ l.countP p := by
  have hsub : [a, b] ⊆ l.filter p := by
    simp [List.mem_filter, ha, hb, hpa, hpb]
  have hnodup : [a, b].Nodup := by simpa using hne
  rw [List.countP_eq_length_filter]
  exact (List.subperm_of_subset hnodup hsub).length_le

/-- With two references in all, the caller's and the slot's, there is no handle. -/
theorem Sound.no_handle_of_count (hslot : s.slot t k = some e) (hcount : s.entryStrong e = 2)
    (hmem : .closing t k e ∈ s.holders) : .handle t' k' e ∉ s.holders := by
  intro hhandle
  have htwo : 2 ≤ s.holders.countP (·.entryOf? = some e) :=
    two_le_countP hmem hhandle (by simp) (by simp [Holder.entryOf?]) (by simp [Holder.entryOf?])
  rw [slot, Option.bind_eq_some_iff] at hslot
  obtain ⟨table, htable, hget⟩ := hslot
  have hone : 0 < table.slots.entries.countP (·.2 = e) :=
    List.countP_pos_iff.mpr ⟨(k, e), SortedMap.mem_entries.mpr hget, by simp⟩
  have hsum : table.slots.entries.countP (·.2 = e) ≤ (s.tables.map fun table => table.slots.entries.countP
      (·.2 = e)).sum :=
    List.le_sum_of_mem (List.mem_map.mpr ⟨table, List.mem_of_getElem? htable, rfl⟩)
  rw [entryStrong] at hcount
  omega

theorem Sound.startRemoving (hs : s.Sound) (hfree : s.locked t = false) (hslot : s.slot t k = some e)
    (hcount : s.entryStrong e = 2) (hi : s.holders[i]? = some (.closing t k e)) :
    (s.setHolder i (.removing t k e)).Sound := by
  have hmem := List.mem_of_getElem? hi
  have hlt : i < s.holders.length := (List.getElem?_eq_some_iff.mp hi).1
  have hkeep : ∀ t' k' e', .handle t' k' e' ∈ s.holders.set i (.removing t k e) → .handle t' k' e' ∈ s.holders := by
    intro t' k' e' hhandle
    rcases List.mem_or_eq_of_mem_set hhandle with hin | heq
    · exact hin
    · cases heq
  apply hs.setHolders
  · intro t' k' e' hhandle
    exact hs.handle t' k' e' (hkeep t' k' e' hhandle)
  · intro t' k' e' hremoving
    rcases List.mem_or_eq_of_mem_set hremoving with hin | heq
    · exact ⟨(hs.removing t' k' e' hin).1, fun t'' k'' hh => (hs.removing t' k' e' hin).2 t'' k'' (hkeep _ _ _ hh)⟩
    · cases heq
      exact ⟨hslot, fun t'' k'' hh => no_handle_of_count hslot hcount hmem (hkeep _ _ _ hh)⟩
  · intro t'
    have hlock := hs.lock t'
    rw [List.countP_set hlt]
    by_cases ht : t = t'
    · subst ht
      have hzero : s.holders.countP (·.removes t) = 0 := by
        rw [List.countP_eq_zero]
        rw [locked, List.any_eq_false] at hfree
        exact hfree
      rw [hzero]
      split <;> split <;> omega
    · have hnot : Holder.removes t' (.removing t k e) = false := by simpa [Holder.removes] using ht
      rw [hnot]
      simp only [Bool.false_eq_true, if_false]
      omega
  · intro d t' htable
    rcases List.mem_or_eq_of_mem_set htable with hin | heq
    · exact hs.table hin
    · cases heq

end Holders

section Tables

variable {domain : Domain} {f : SortedMap FutexTableKey EntryId → SortedMap FutexTableKey EntryId}

theorem slot_newTable : (s.newTable domain).slot t k = s.slot t k := by
  rw [slot, slot, newTable]
  rcases Nat.lt_trichotomy t s.tables.length with hlt | rfl | hgt
  · rw [List.getElem?_append_left hlt]
  · rw [List.getElem?_concat_length, List.getElem?_eq_none le_rfl]
    rfl
  · rw [List.getElem?_eq_none (by simp only [List.length_append, List.length_singleton]; omega),
      List.getElem?_eq_none hgt.le]

theorem getElem?_newTable {table : FutexTable} (h : s.tables[t]? = some table) :
    (s.newTable domain).tables[t]? = some table := by
  rw [newTable, List.getElem?_append_left (List.getElem?_eq_some_iff.mp h).1]
  exact h

theorem tables_setSlots : (s.setSlots t f).tables[t']? =
    if t' = t then s.tables[t]?.map fun table => { table with slots := f table.slots } else s.tables[t']? := by
  rw [setSlots, List.getElem?_modify]
  by_cases ht : t' = t
  · subst ht
    simp
  · simp [ht, Ne.symm ht]

theorem slot_setSlots : (s.setSlots t f).slot t' k =
    if t' = t then s.tables[t]?.bind fun table => (f table.slots).get? k else s.slot t' k := by
  rw [slot, tables_setSlots]
  split
  · rw [Option.bind_map]
    rfl
  · rfl

theorem domain_setSlots {table : FutexTable} (h : s.tables[t']? = some table) :
    ∃ table', (s.setSlots t f).tables[t']? = some table' ∧ table'.domain = table.domain := by
  rw [tables_setSlots]
  by_cases ht : t' = t
  · subst ht
    rw [if_pos rfl, h]
    exact ⟨_, rfl, rfl⟩
  · rw [if_neg ht]
    exact ⟨table, h, rfl⟩

/-- The tables change, and the slots and the holders do not. -/
theorem Sound.reframe {u : State} (hs : s.Sound) (hslot : ∀ t k, u.slot t k = s.slot t k)
    (hentries : u.entries = s.entries) (hholders : u.holders = s.holders)
    (hheld : ∀ d t, .table d t ∈ s.holders → u.Current d t ∧ ¬ u.Counted t)
    (hfilled : ∀ t k e, s.slot t k = some e → ∃ table, u.tables[t]? = some table ∧ u.Current table.domain t)
    (howned : ∀ d t, u.Current d t → ∃ table, u.tables[t]? = some table ∧ table.domain = d) : u.Sound := by
  constructor
  · intro t k e h
    rw [hentries]
    exact hs.home t k e ((hslot t k).symm.trans h)
  · intro t k e h
    rw [hholders] at h
    exact (hslot t k).trans (hs.handle t k e h)
  · intro t k e h
    rw [hholders] at h ⊢
    exact ⟨(hslot t k).trans (hs.removing t k e h).1, (hs.removing t k e h).2⟩
  · rw [hholders]
    exact hs.lock
  · intro e entry hentry hwaiters
    rw [hentries] at hentry
    exact (hslot _ _).trans (hs.waiting e entry hentry hwaiters)
  · intro d t h
    rw [hholders] at h
    exact (hheld d t h).1
  · intro t k e h
    rw [hslot] at h
    exact hfilled t k e h
  · exact howned
  · intro t hcounted d h
    rw [hholders] at h
    exact (hheld d t h).2 hcounted

theorem current_newProcess {d : Domain} (h : s.Current d t) : s.newProcess.Current d t := by
  cases d with
  | process pid =>
      rw [Current] at h ⊢
      rw [newProcess, List.getElem?_append_left (List.getElem?_eq_some_iff.mp h).1]
      exact h
  | backing id => exact h

theorem Sound.newProcess (hs : s.Sound) : s.newProcess.Sound := by
  refine hs.reframe (fun t k => slot_newTable) rfl rfl ?_ ?_ ?_
  · intro d t h
    exact ⟨current_newProcess (hs.table h).1, (hs.table h).2⟩
  · intro t k e h
    obtain ⟨table, htable, hcurrent⟩ := hs.filled t k e h
    exact ⟨table, getElem?_newTable htable, current_newProcess hcurrent⟩
  · intro d t h
    cases d with
    | process pid =>
        rw [Current, State.newProcess, List.getElem?_append] at h
        split at h
        · obtain ⟨table, htable, hdomain⟩ := hs.owned (.process pid) t h
          exact ⟨table, getElem?_newTable htable, hdomain⟩
        · rename_i hge
          rw [List.getElem?_singleton] at h
          split at h
          · cases h
            refine ⟨⟨.process s.processes.length, .empty⟩, ?_, ?_⟩
            · simp [State.newProcess, State.newTable]
            · rw [show pid = s.processes.length by omega]
          · cases h
    | backing id =>
        obtain ⟨table, htable, hdomain⟩ := hs.owned (.backing id) t h
        exact ⟨table, getElem?_newTable htable, hdomain⟩

/-- A fresh table for a backing that has none. -/
def newShared (s : State) (id : Nat) : State :=
  { s.newTable (.backing id) with shared := s.shared.insert id s.tables.length }

theorem current_newShared {d : Domain} {id : Nat} (hnone : s.shared.get? id = none) (h : s.Current d t) :
    (s.newShared id).Current d t := by
  cases d with
  | process pid => exact h
  | backing id' =>
      rw [Current] at h ⊢
      rw [newShared, SortedMap.get?_insert, if_neg]
      · exact h
      · rintro rfl
        rw [hnone] at h
        cases h

theorem Sound.newShared {id : Nat} (hs : s.Sound) (hnone : s.shared.get? id = none) (hidle : s.pruning = none) :
    (s.newShared id).Sound := by
  refine hs.reframe (fun t k => slot_newTable) rfl rfl ?_ ?_ ?_
  · intro d t h
    refine ⟨current_newShared hnone (hs.table h).1, ?_⟩
    rintro ⟨wanted, id', rest, hpruning, -⟩
    cases hidle.symm.trans hpruning
  · intro t k e h
    obtain ⟨table, htable, hcurrent⟩ := hs.filled t k e h
    exact ⟨table, getElem?_newTable htable, current_newShared hnone hcurrent⟩
  · intro d t h
    cases d with
    | process pid =>
        obtain ⟨table, htable, hdomain⟩ := hs.owned (.process pid) t h
        exact ⟨table, getElem?_newTable htable, hdomain⟩
    | backing id' =>
        rw [Current, State.newShared, SortedMap.get?_insert] at h
        split at h
        · rename_i heq
          cases h
          exact ⟨⟨.backing id, .empty⟩, by simp [State.newShared, newTable], by rw [heq]⟩
        · obtain ⟨table, htable, hdomain⟩ := hs.owned (.backing id') t h
          exact ⟨table, getElem?_newTable htable, hdomain⟩

/-- The lookup of a shared table holds the current one, old or fresh. -/
theorem Sound.sharedTable {id : Nat} (hs : s.Sound) (hidle : s.pruning = none) : (s.sharedTable id).Sound := by
  have hnot : ∀ u : State, u.pruning = none → ∀ t, ¬ u.Counted t := by
    rintro u hu t ⟨wanted, id', rest, hpruning, -⟩
    cases hu.symm.trans hpruning
  rw [State.sharedTable]
  split
  · rename_i t hget
    refine hs.hold (by simp) (by simp) ?_
    intro d t' heq
    cases heq
    exact ⟨hget, hnot s hidle t⟩
  · rename_i hnone
    refine (hs.newShared hnone hidle).hold (by simp) (by simp) ?_
    intro d t' heq
    cases heq
    refine ⟨?_, hnot (s.newShared id) hidle _⟩
    rw [Current, State.newShared, SortedMap.get?_insert, if_pos rfl]

/-- The lookup that prunes goes on, and no table leaves the map. -/
theorem Sound.setPruning {pruning : Option Pruning} {operations : Nat} (hs : s.Sound)
    (hcounted : ∀ t, Counted { s with pruning := pruning, operations := operations } t →
      ∀ d, .table d t ∉ s.holders) :
    Sound { s with pruning := pruning, operations := operations } :=
  hs.reframe (fun _ _ => rfl) rfl rfl (fun d t h => ⟨hs.held d t h, fun hc => hcounted t hc d h⟩) hs.filled hs.owned

theorem one_lt_tableStrong {id : Nat} (hshared : s.shared.get? id = some t) (hh : h ∈ s.holders)
    (ht : h.table? = some t) : 1 < s.tableStrong t := by
  have hmap : 0 < s.shared.entries.countP (·.2 = t) :=
    List.countP_pos_iff.mpr ⟨(id, t), SortedMap.mem_entries.mpr hshared, by simp⟩
  have hholder : 0 < s.holders.countP (·.table? = some t) := List.countP_pos_iff.mpr ⟨h, hh, by simpa using ht⟩
  rw [tableStrong]
  omega

theorem isEmpty_of_slot (h : s.slot t k = some e) : s.isEmpty t = false := by
  rw [slot, Option.bind_eq_some_iff] at h
  obtain ⟨table, htable, hget⟩ := h
  rw [isEmpty, htable]
  simp only [Option.map_some, Option.getD_some, beq_eq_false_iff_ne, ne_eq]
  intro hzero
  rw [SortedMap.size_eq_zero.mp hzero k] at hget
  cases hget

theorem Sound.current_inj {d d' : Domain} (hs : s.Sound) (h : s.Current d t) (h' : s.Current d' t) : d = d' := by
  obtain ⟨table, htable, hdomain⟩ := hs.owned d t h
  obtain ⟨table', htable', hdomain'⟩ := hs.owned d' t h'
  cases htable.symm.trans htable'
  exact hdomain.symm.trans hdomain'

theorem Sound.dropTable {id : Nat} {pruning : Pruning} (hs : s.Sound) (hget : s.shared.get? id = some t)
    (hcounted : s.Counted t) (hempty : s.isEmpty t = true) (hnext : pruning.counted = false) :
    Sound { s with shared := s.shared.erase id, pruning := some pruning } := by
  have hkeep : ∀ d t', t' ≠ t → s.Current d t' →
      Current { s with shared := s.shared.erase id, pruning := some pruning } d t' := by
    intro d t' hne hcurrent
    cases d with
    | process pid => exact hcurrent
    | backing id' =>
        rw [Current] at hcurrent ⊢
        rw [SortedMap.get?_erase, if_neg]
        · exact hcurrent
        · rintro rfl
          exact hne (Option.some.inj (hcurrent.symm.trans hget))
  refine hs.reframe (fun _ _ => rfl) rfl rfl ?_ ?_ ?_
  · intro d t' h
    refine ⟨hkeep d t' ?_ (hs.held d t' h), ?_⟩
    · rintro rfl
      exact hs.counted t' hcounted d h
    · rintro ⟨wanted, id', rest, hpruning, -⟩
      cases hpruning
      cases hnext
  · intro t' k e h
    obtain ⟨table, htable, hcurrent⟩ := hs.filled t' k e h
    refine ⟨table, htable, hkeep _ t' ?_ hcurrent⟩
    rintro rfl
    rw [isEmpty_of_slot h] at hempty
    cases hempty
  · intro d t' h
    apply hs.owned d t'
    cases d with
    | process pid => exact h
    | backing id' =>
        rw [Current, SortedMap.get?_erase] at h
        split at h
        · cases h
        · exact h

theorem Sound.futexTableFor {domain : Domain} {u : State} (hs : s.Sound) (h : s.futexTableFor domain = some u) :
    u.Sound := by
  cases domain with
  | process pid =>
      rw [State.futexTableFor, Option.map_eq_some_iff] at h
      obtain ⟨t, hpid, rfl⟩ := h
      refine hs.hold (by simp) (by simp) ?_
      intro d t' heq
      cases heq
      refine ⟨hpid, ?_⟩
      rintro ⟨wanted, id, rest, -, hget⟩
      have hbacking : s.Current (.backing id) t := hget
      cases hs.current_inj (d := .process pid) hpid hbacking
  | backing id =>
      rw [State.futexTableFor] at h
      split at h
      · cases h
      · rename_i hidle
        rw [Bool.not_eq_true, Option.isSome_eq_false_iff, Option.isNone_iff_eq_none] at hidle
        split at h
        · cases h
          apply hs.setPruning
          rintro t ⟨wanted, id', rest, hpruning, -⟩
          rw [Option.some.injEq, Pruning.mk.injEq] at hpruning
          cases hpruning.2.2
        · cases h
          have hnext : Sound { s with pruning := s.pruning, operations := s.operations + 1 } := by
            apply hs.setPruning
            exact hs.counted
          exact hnext.sharedTable hidle

theorem Sound.prune {u : State} (hs : s.Sound) (h : s.prune = some u) : u.Sound := by
  rw [State.prune, Option.bind_eq_some_iff] at h
  obtain ⟨⟨wanted, rest, counted⟩, hpruning, h⟩ := h
  have hrest : ∀ rest t, Counted { s with pruning := some ⟨wanted, rest, false⟩, operations := s.operations } t →
      ∀ d, .table d t ∉ s.holders := by
    rintro rest t ⟨wanted', id', rest', heq, -⟩
    cases heq
  cases rest with
  | nil =>
      cases h
      have hidle : Sound { s with pruning := none, operations := s.operations } := by
        apply hs.setPruning
        rintro t ⟨wanted', id', rest', heq, -⟩
        cases heq
      exact hidle.sharedTable rfl
  | cons id rest =>
      simp only [Option.bind_eq_some_iff] at h
      obtain ⟨t, hget, h⟩ := h
      cases counted with
      | true =>
          rw [if_pos rfl] at h
          split at h
          · cases h
          · split at h
            · rename_i hempty
              cases h
              exact hs.dropTable hget ⟨wanted, id, rest, hpruning, hget⟩ hempty rfl
            · cases h
              exact hs.setPruning (hrest rest)
      | false =>
          rw [if_neg Bool.false_ne_true] at h
          split at h
          · cases h
            exact hs.setPruning (hrest rest)
          · rename_i hcount
            cases h
            apply hs.setPruning
            rintro t' ⟨wanted', id', rest', heq, hget'⟩ d hmem
            cases heq
            cases hget.symm.trans hget'
            exact hcount (one_lt_tableStrong hget hmem rfl)

end Tables

section Entries

variable {f : List Nat → List Nat} {table : FutexTable}

theorem entries_setWaiters : (s.setWaiters e f).entries[e']? =
    if e' = e then s.entries[e]?.map fun entry => { entry with waiters := f entry.waiters } else s.entries[e']? := by
  rw [setWaiters, List.getElem?_modify]
  by_cases he : e' = e
  · subst he
    simp
  · simp [he, Ne.symm he]

/-- Whoever puts a waiter on an entry finds the entry in its slot. -/
theorem Sound.setWaiters (hs : s.Sound)
    (hf : ∀ entry, s.entries[e]? = some entry → f entry.waiters ≠ [] → s.slot entry.table entry.key = some e) :
    (s.setWaiters e f).Sound := by
  refine { hs with home := ?_, waiting := ?_ }
  · intro t k e' h
    obtain ⟨entry, hentry, htable, hkey⟩ := hs.home t k e' h
    rw [entries_setWaiters]
    by_cases he : e' = e
    · subst he
      rw [if_pos rfl, hentry]
      exact ⟨_, rfl, htable, hkey⟩
    · rw [if_neg he]
      exact ⟨entry, hentry, htable, hkey⟩
  · intro e' entry hentry hwaiters
    rw [entries_setWaiters] at hentry
    split at hentry
    · rename_i he
      subst he
      rw [Option.map_eq_some_iff] at hentry
      obtain ⟨old, hold, rfl⟩ := hentry
      exact hf old hold hwaiters
    · exact hs.waiting e' entry hentry hwaiters

theorem Sound.enqueue (hs : s.Sound) (hmem : .handle t k e ∈ s.holders) : (s.setWaiters e f).Sound := by
  apply hs.setWaiters
  intro entry hentry _
  have hslot := hs.handle t k e hmem
  obtain ⟨entry', hentry', htable, hkey⟩ := hs.home t k e hslot
  cases hentry.symm.trans hentry'
  rw [htable, hkey]
  exact hslot

theorem Sound.dequeue {waiter : Nat} (hs : s.Sound) : (s.setWaiters e (·.erase waiter)).Sound := by
  apply hs.setWaiters
  intro entry hentry hwaiters
  apply hs.waiting e entry hentry
  intro hnil
  rw [hnil] at hwaiters
  exact hwaiters rfl

theorem slot_insert (htable : s.tables[t]? = some table) : (s.setSlots t (·.insert k e)).slot t' k' =
    if t' = t ∧ k' = k then some e else s.slot t' k' := by
  rw [slot_setSlots]
  by_cases ht : t' = t
  · subst ht
    rw [if_pos rfl, slot, htable, Option.bind_some, Option.bind_some, SortedMap.get?_insert]
    by_cases hk : k' = k
    · rw [if_pos hk, if_pos ⟨rfl, hk⟩]
    · rw [if_neg hk, if_neg (fun h => hk h.2)]
  · rw [if_neg ht, if_neg (fun h => ht h.1)]

theorem slot_erase : (s.setSlots t (·.erase k)).slot t' k' = if t' = t ∧ k' = k then none else s.slot t' k' := by
  rw [slot_setSlots]
  by_cases ht : t' = t
  · subst ht
    rw [if_pos rfl, slot]
    cases s.tables[t']? with
    | none => simp
    | some table =>
        rw [Option.bind_some, Option.bind_some, SortedMap.get?_erase]
        by_cases hk : k' = k
        · rw [if_pos hk, if_pos ⟨rfl, hk⟩]
        · rw [if_neg hk, if_neg (fun h => hk h.2)]
  · rw [if_neg ht, if_neg (fun h => ht h.1)]

/-- A fresh entry in the free slot of a table that is looked up. -/
theorem Sound.insert {d : Domain} (hs : s.Sound) (hcurrent : s.Current d t) (hnone : s.slot t k = none) :
    ((s.newEntry t k).setSlots t (·.insert k s.entries.length)).Sound := by
  obtain ⟨table, htable, hdomain⟩ := hs.owned d t hcurrent
  have hslot : ∀ t' k', ((s.newEntry t k).setSlots t (·.insert k s.entries.length)).slot t' k' =
      if t' = t ∧ k' = k then some s.entries.length else s.slot t' k' := by
    intro t' k'
    exact slot_insert (s := s.newEntry t k) htable
  have hkeep : ∀ t' k' e', s.slot t' k' = some e' →
      ((s.newEntry t k).setSlots t (·.insert k s.entries.length)).slot t' k' = some e' := by
    intro t' k' e' h
    rw [hslot, if_neg]
    · exact h
    · rintro ⟨rfl, rfl⟩
      rw [hnone] at h
      cases h
  refine ⟨?_, ?_, ?_, hs.lock, ?_, hs.held, ?_, ?_, hs.counted⟩
  · intro t' k' e' h
    rw [hslot] at h
    split at h
    · rename_i heq
      cases h
      exact ⟨⟨t, k, []⟩, by simp [newEntry, State.setSlots], heq.1.symm, heq.2.symm⟩
    · obtain ⟨entry, hentry, hhome⟩ := hs.home t' k' e' h
      refine ⟨entry, ?_, hhome⟩
      change (s.entries ++ [_])[e']? = some entry
      rw [List.getElem?_append_left (List.getElem?_eq_some_iff.mp hentry).1]
      exact hentry
  · intro t' k' e' h
    exact hkeep t' k' e' (hs.handle t' k' e' h)
  · intro t' k' e' h
    exact ⟨hkeep t' k' e' (hs.removing t' k' e' h).1, (hs.removing t' k' e' h).2⟩
  · intro e' entry hentry hwaiters
    change (s.entries ++ [_])[e']? = some entry at hentry
    rw [List.getElem?_append] at hentry
    split at hentry
    · exact hkeep _ _ e' (hs.waiting e' entry hentry hwaiters)
    · rw [List.getElem?_singleton] at hentry
      split at hentry
      · cases hentry
        exact absurd rfl hwaiters
      · cases hentry
  · intro t' k' e' h
    rw [hslot] at h
    have hold : ∃ table, s.tables[t']? = some table ∧ s.Current table.domain t' := by
      split at h
      · rename_i heq
        rw [heq.1]
        exact ⟨table, htable, hdomain ▸ hcurrent⟩
      · exact hs.filled t' k' e' h
    obtain ⟨table', htable', hcurrent'⟩ := hold
    obtain ⟨table'', htable'', hsame⟩ :=
      domain_setSlots (s := s.newEntry t k) (t := t) (f := (·.insert k s.entries.length)) htable'
    refine ⟨table'', htable'', ?_⟩
    rw [hsame]
    exact hcurrent'
  · intro d' t' h
    obtain ⟨table', htable', hdomain'⟩ := hs.owned d' t' h
    obtain ⟨table'', htable'', hsame⟩ :=
      domain_setSlots (s := s.newEntry t k) (t := t) (f := (·.insert k s.entries.length)) htable'
    exact ⟨table'', htable'', hsame.trans hdomain'⟩

theorem Sound.lookup {d : Domain} {insert : Bool} (hs : s.Sound) (hfree : s.locked t = false)
    (hmem : .table d t ∈ s.holders) : (s.lookup t k insert).Sound := by
  rw [State.lookup]
  split
  · rename_i e hslot
    exact hs.holdHandle hfree hslot
  · rename_i hnone
    split
    · obtain ⟨table, htable, -⟩ := hs.owned d t (hs.held d t hmem)
      apply (hs.insert (hs.held d t hmem) hnone).holdHandle
      · exact hfree
      · rw [slot_insert (s := s.newEntry t k) htable, if_pos ⟨rfl, rfl⟩]
    · exact hs

/-- The slot of an idle entry is cleared under the table lock. -/
theorem Sound.remove (hs : s.Sound) (hi : s.holders[i]? = some (.removing t k e))
    (hidle : (s.entries[e]?.map (·.waiters)).getD [] = []) :
    ((s.setHolder i (.closed (some t) (some e))).setSlots t (·.erase k)).Sound := by
  have hmem := List.mem_of_getElem? hi
  have hs' : (s.setHolder i (.closed (some t) (some e))).Sound := hs.setHolder trivial
  obtain ⟨hslot, hnone⟩ := hs.removing t k e hmem
  have hlast : ∀ k' e', .removing t k' e' ∉ s.holders.set i (.closed (some t) (some e)) := by
    intro k' e' hin
    have hlt : i < s.holders.length := (List.getElem?_eq_some_iff.mp hi).1
    have hpos : 0 < (s.holders.set i (.closed (some t) (some e))).countP (·.removes t) :=
      List.countP_pos_iff.mpr ⟨_, hin, by simp [Holder.removes]⟩
    have hremoves : Holder.removes t (.removing t k e) = true := by simp [Holder.removes]
    have hclosed : Holder.removes t (.closed (some t) (some e)) = false := rfl
    have hone := hs.lock t
    rw [List.countP_set hlt, (List.getElem?_eq_some_iff.mp hi).2, hremoves, hclosed] at hpos
    simp only [if_true, Bool.false_eq_true, if_false] at hpos
    omega
  have hkeep : ∀ t' k' e', s.slot t' k' = some e' → ¬ (t' = t ∧ k' = k) →
      ((s.setHolder i (.closed (some t) (some e))).setSlots t (·.erase k)).slot t' k' = some e' := by
    intro t' k' e' h hne
    rw [slot_erase, if_neg hne]
    exact h
  have hsub : ∀ t' k' e', ((s.setHolder i (.closed (some t) (some e))).setSlots t (·.erase k)).slot t' k' = some e' →
      s.slot t' k' = some e' := by
    intro t' k' e' h
    rw [slot_erase] at h
    split at h
    · cases h
    · exact h
  refine ⟨fun t' k' e' h => hs.home t' k' e' (hsub t' k' e' h), ?_, ?_, hs'.lock, ?_, hs'.held, ?_, ?_, hs'.counted⟩
  · intro t' k' e' h
    apply hkeep t' k' e' (hs'.handle t' k' e' h)
    rintro ⟨rfl, rfl⟩
    cases hslot.symm.trans (hs'.handle t' k' e' h)
    rcases List.mem_or_eq_of_mem_set h with hin | heq
    · exact hnone t' k' hin
    · cases heq
  · intro t' k' e' h
    refine ⟨hkeep t' k' e' (hs'.removing t' k' e' h).1 ?_, (hs'.removing t' k' e' h).2⟩
    rintro ⟨rfl, rfl⟩
    exact hlast k' e' h
  · intro e' entry hentry hwaiters
    have hwaiting := hs.waiting e' entry hentry hwaiters
    apply hkeep _ _ e' hwaiting
    rintro ⟨htable, hkey⟩
    rw [htable, hkey] at hwaiting
    cases hslot.symm.trans hwaiting
    change s.entries[e]? = some entry at hentry
    rw [hentry] at hidle
    exact hwaiters hidle
  · intro t' k' e' h
    obtain ⟨table, htable, hcurrent⟩ := hs.filled t' k' e' (hsub t' k' e' h)
    obtain ⟨table', htable', hsame⟩ :=
      domain_setSlots (s := s.setHolder i (.closed (some t) (some e))) (t := t) (f := (·.erase k)) htable
    refine ⟨table', htable', ?_⟩
    rw [hsame]
    exact hcurrent
  · intro d t' h
    obtain ⟨table, htable, hdomain⟩ := hs.owned d t' h
    obtain ⟨table', htable', hsame⟩ :=
      domain_setSlots (s := s.setHolder i (.closed (some t) (some e))) (t := t) (f := (·.erase k)) htable
    exact ⟨table', htable', hsame.trans hdomain⟩

end Entries

theorem Sound.init : State.init.Sound := by
  have hslot : ∀ t k, State.init.slot t k = none := fun _ _ => rfl
  constructor
  · intro t k e h
    rw [hslot] at h
    cases h
  · intro t k e h
    cases h
  · intro t k e h
    cases h
  · intro t
    exact Nat.zero_le 1
  · intro e entry h
    cases h
  · intro d t h
    cases h
  · intro t k e h
    rw [hslot] at h
    cases h
  · intro d t h
    cases d with
    | process pid => cases h
    | backing id => cases h
  · intro t _ d h
    cases h

theorem Sound.step {op : Op} {u : State} (hs : s.Sound) (h : s.step op = some u) : u.Sound := by
  cases op with
  | newProcess =>
      cases h
      exact hs.newProcess
  | futexTableFor domain => exact hs.futexTableFor h
  | prune => exact hs.prune h
  | lookup i k insert =>
      rw [State.step] at h
      split at h
      · rename_i d t hi
        split at h
        · cases h
        · rename_i hfree
          cases h
          exact hs.lookup (Bool.not_eq_true _ ▸ hfree) (List.mem_of_getElem? hi)
      · cases h
  | enqueue i waiter =>
      rw [State.step] at h
      split at h
      · rename_i hi
        cases h
        exact hs.enqueue (List.mem_of_getElem? hi)
      · cases h
  | requeue i j waiter =>
      rw [State.step] at h
      split at h
      · rename_i hi hj
        cases h
        exact hs.dequeue.enqueue (List.mem_of_getElem? hj)
      · cases h
  | dequeue e waiter =>
      cases h
      exact hs.dequeue
  | drop i =>
      rw [State.step] at h
      split at h
      · cases h
        exact hs.setHolder trivial
      · cases h
        exact hs.setHolder trivial
      · cases h
  | cleanup e =>
      rw [State.step, Option.bind_eq_some_iff] at h
      obtain ⟨entry, -, h⟩ := h
      split at h
      · cases h
      · cases h
        exact hs.hold (by simp) (by simp) (by simp)
  | upgrade i =>
      rw [State.step] at h
      split at h
      · split at h
        · cases h
          exact hs.setHolder trivial
        · cases h
          exact hs.setHolder trivial
      · cases h
  | check i =>
      rw [State.step] at h
      split at h
      · rename_i hi
        split at h
        · cases h
        · rename_i hfree
          split at h
          · rename_i hidle
            cases h
            exact hs.startRemoving (Bool.not_eq_true _ ▸ hfree) hidle.1 hidle.2 hi
          · cases h
            exact hs.setHolder trivial
      · cases h
  | remove i =>
      rw [State.step] at h
      split at h
      · rename_i hi
        simp only at h
        split at h
        · rename_i hidle
          cases h
          exact hs.remove hi hidle
        · cases h
          exact hs.setHolder trivial
      · cases h
  | dropTable i =>
      rw [State.step] at h
      split at h
      · cases h
        exact hs.setHolder trivial
      · cases h
  | dropEntry i =>
      rw [State.step] at h
      split at h
      · cases h
        exact hs.setHolder trivial
      · cases h

end State

theorem Reachable.sound {s : State} (h : Reachable s) : s.Sound := by
  induction h with
  | start => exact State.Sound.init
  | step op h hstep ih => exact ih.step hstep

/-- A handle for the key is alive, or a waiter is queued on an entry for the key. -/
inductive State.Live (s : State) (d : Domain) (k : FutexTableKey) (e : EntryId) : Prop
  | handle {t : TableId} {table : FutexTable} (hmem : .handle t k e ∈ s.holders) (htable : s.tables[t]? = some table)
      (hdomain : table.domain = d)
  | waiter {entry : FutexEntry} {table : FutexTable} (hentry : s.entries[e]? = some entry) (hkey : entry.key = k)
      (hwaiters : entry.waiters ≠ []) (htable : s.tables[entry.table]? = some table) (hdomain : table.domain = d)

theorem State.Sound.slot_of_live {s : State} {d : Domain} {k : FutexTableKey} {e : EntryId} (hs : s.Sound)
    (hlive : s.Live d k e) : ∃ t, s.Current d t ∧ s.slot t k = some e := by
  have hfind : ∀ t table, s.tables[t]? = some table → table.domain = d → s.slot t k = some e → s.Current d t := by
    intro t table htable hdomain hslot
    obtain ⟨table', htable', hcurrent⟩ := hs.filled t k e hslot
    cases htable.symm.trans htable'
    exact hdomain ▸ hcurrent
  cases hlive with
  | handle hmem htable hdomain =>
      have hslot := hs.handle _ k e hmem
      exact ⟨_, hfind _ _ htable hdomain hslot, hslot⟩
  | waiter hentry hkey hwaiters htable hdomain =>
      have hslot := hs.waiting e _ hentry hwaiters
      rw [hkey] at hslot
      exact ⟨_, hfind _ _ htable hdomain hslot, hslot⟩

theorem State.Current.unique {s : State} {d : Domain} {t t' : TableId} (h : s.Current d t) (h' : s.Current d t') :
    t = t' := by
  cases d with
  | process pid => exact Option.some.inj (h.symm.trans h')
  | backing id => exact Option.some.inj (h.symm.trans h')

/-- A futex identity is never split: while a handle for the key is alive or a waiter is
queued on an entry for it, a lookup of the key returns that entry. -/
theorem lookup_same_entry {s u : State} {d : Domain} {k : FutexTableKey} {e : EntryId} {i : Nat} {t : TableId}
    {insert : Bool} (hreach : Reachable s) (hlive : s.Live d k e) (hi : s.holders[i]? = some (.table d t))
    (hstep : s.step (.lookup i k insert) = some u) : u = s.hold (.handle t k e) := by
  have hs := hreach.sound
  obtain ⟨t', hcurrent, hslot⟩ := hs.slot_of_live hlive
  cases hcurrent.unique (hs.held d t (List.mem_of_getElem? hi))
  rw [State.step, hi] at hstep
  simp only at hstep
  split at hstep
  · cases hstep
  · cases hstep
    rw [State.lookup, hslot]

theorem Reachable.foldlM {s u : State} (hreach : Reachable s) (ops : List State.Op)
    (h : ops.foldlM State.step s = some u) : Reachable u := by
  induction ops generalizing s with
  | nil =>
      cases h
      exact hreach
  | cons op ops ih =>
      rw [List.foldlM_cons, Option.bind_eq_bind, Option.bind_eq_some_iff] at h
      obtain ⟨t, ht, h⟩ := h
      exact ih (.step op hreach ht) h

theorem lookup_same_entry_waiter : ∃ s u : State, s.Live (.backing 5) (.shared 8) 0 ∧
    s.step (.lookup 2 (.shared 8) true) = some u ∧ u = s.hold (.handle 0 (.shared 8) 0) := by
  have hrun : (([.futexTableFor (.backing 5), .lookup 0 (.shared 8) true, .enqueue 1 7, .drop 1, .check 1, .remove 1,
      .dropEntry 1, .futexTableFor (.backing 5)] : List State.Op).foldlM State.step .init).map
      (fun s => (s.holders, s.entries, s.tables.map (·.domain))) =
      some ([.table (.backing 5) 0, .closed (some 0) none, .table (.backing 5) 0], [⟨0, .shared 8, [7]⟩],
        [.backing 5]) := by
    decide +kernel
  rw [Option.map_eq_some_iff] at hrun
  obtain ⟨s, hs, hfacts⟩ := hrun
  simp only [Prod.mk.injEq] at hfacts
  obtain ⟨hholders, hentries, htables⟩ := hfacts
  have hi : s.holders[2]? = some (.table (.backing 5) 0) := by rw [hholders]; rfl
  have hfree : s.locked 0 = false := by rw [State.locked, hholders]; rfl
  have hu : s.step (.lookup 2 (.shared 8) true) = some (s.lookup 0 (.shared 8) true) := by
    rw [State.step, hi]
    simp only [hfree, Bool.false_eq_true, if_false]
  have hlive : s.Live (.backing 5) (.shared 8) 0 := by
    have hentry : s.entries[0]? = some ⟨0, .shared 8, [7]⟩ := by rw [hentries]; rfl
    have htable := congrArg (·[0]?) htables
    simp only [List.getElem?_map, List.getElem?_cons_zero, Option.map_eq_some_iff] at htable
    obtain ⟨table, htable, hdomain⟩ := htable
    exact .waiter hentry rfl (by simp) htable hdomain
  exact ⟨s, _, hlive, hu, lookup_same_entry (Reachable.start.foldlM _ hs) hlive hi hu⟩

end TheKernel.Futex
