import TheKernel.Fd.EpollStep

namespace TheKernel.Fd

open Outcome Act EpollCore

/-- The core, and the delivery tokens that its caller has been handed. -/
structure EpollSystem (U S : Type) where
  core : EpollCore U S
  issued : List DeliveryToken

namespace EpollSystem

variable {U S V : Type}

/-- Whether the caller can make the call: it has no delivery token that the
core did not hand out. -/
def admissible (s : EpollSystem U S) : Op U S V → Bool
  | .finishDelivery delivery _ => delivery ∈ s.issued
  | _ => true

def handedOut (s : EpollSystem U S) (op : Op U S V) : List DeliveryToken :=
  match (perform op s.core).1 with
  | .ok (some delivery) => [delivery]
  | _ => []

def step (s : EpollSystem U S) (op : Op U S V) : EpollSystem U S :=
  if s.admissible op then ⟨s.core.step op, s.issued ++ s.handedOut op⟩ else s

def after (id capacity : Nat) (ops : Nat → Op U S V) : Nat → EpollSystem U S
  | 0 => ⟨initial id capacity, []⟩
  | n + 1 => (after id capacity ops n).step (ops n)

def inFlightEvents (s : EpollSystem U S) (e : Entry U S) : ReadyMask :=
  match e.inDelivery with
  | none => 0
  | some serial => ((s.issued.find? (·.serial = serial)).map (·.events)).getD 0

/-- The interest in the slot has the bit in `ready`, in `during_delivery` or in
the delivery in flight. -/
def Records (s : EpollSystem U S) (slot bit : Nat) : Prop :=
  ∃ e, s.core.entries[slot]? = some (some e) ∧
    (e.ready ||| e.duringDelivery ||| s.inFlightEvents e).getLsbD bit = true

inductive Discharges (s : EpollSystem U S) (slot bit : Nat) : Op U S V → Prop
  | delivered {delivery e} (stillReady) (hissued : delivery ∈ s.issued) (hn : Names s.core delivery.interest e)
      (hslot : delivery.interest.slot = slot) (hserial : e.inDelivery = some delivery.serial)
      (hbit : delivery.events.getLsbD bit = true) : Discharges s slot bit (.finishDelivery delivery
        (.copied stillReady))
  | suppressed {delivery e} (hissued : delivery ∈ s.issued) (hn : Names s.core delivery.interest e)
      (hslot : delivery.interest.slot = slot) (hserial : e.inDelivery = some delivery.serial)
      (hbit : delivery.events.getLsbD bit = true) : Discharges s slot bit (.finishDelivery delivery .suppressed)
  | removed {token old} (hn : Names s.core token old) (hslot : token.slot = slot) : Discharges s slot bit
      (.remove token)
  | excluded {token old replacement} (hn : Names s.core token old) (hslot : token.slot = slot)
      (hbit : (replacement.interest.bits ||| ReadyMask.unconditional).getLsbD bit = false) :
      Discharges s slot bit (.modify token replacement)
  | interrupted {token old replacement} (hn : Names s.core token old) (hslot : token.slot = slot)
      (hflight : old.inDelivery ≠ none) : Discharges s slot bit (.modify token replacement)

def Rearms (s : EpollSystem U S) (slot : Nat) (op : Op U S V) : Prop :=
  ∃ token replacement old, op = .modify token replacement ∧ Names s.core token old ∧ token.slot = slot ∧
    old.enabled = false

def Wakes (s : EpollSystem U S) (slot : Nat) (op : Op U S V) : Prop :=
  ∃ token ready, op = .notify token ready ∧ token.slot = slot ∧ Notifies s.core token ready

structure Sound (s : EpollSystem U S) : Prop where
  core : EpollCore.Sound s.core
  issued_lt : ∀ d ∈ s.issued, d.serial < s.core.nextDelivery
  issued_unique : ∀ d ∈ s.issued, ∀ d' ∈ s.issued, d.serial = d'.serial → d = d'
  serial_lt : ∀ t e, Names s.core t e → ∀ n, e.inDelivery = some n → n < s.core.nextDelivery

variable {s : EpollSystem U S} {op : Op U S V} {slot bit : Nat}

theorem Sound.step_cases (h : Sound s) (op : Op U S V) :
    (s.step op = s ∧ ¬ s.admissible op) ∨ (s.admissible op = true ∧ ∃ out, Effect s.core op out (s.step op).core ∧
      (s.step op).issued = s.issued ++ out.toList) := by
  by_cases hadm : s.admissible op = true
  · right
    refine ⟨hadm, ?_⟩
    have hperform := h.core.perform op
    rw [Ensures] at hperform
    rw [step, if_pos hadm, handedOut, EpollCore.step]
    rcases hres : perform op s.core with ⟨result, t⟩
    rw [hres] at hperform
    cases result with
    | ok out =>
        refine ⟨out, hperform, ?_⟩
        cases out <;> rfl
    | err error => exact ⟨none, hperform.1, rfl⟩
    | panic => exact hperform.elim
  · left
    exact ⟨by rw [step, if_neg hadm], hadm⟩

theorem inFlightEvents_append {s' : EpollSystem U S} {e : Entry U S} {out : Option DeliveryToken}
    (hissued : s'.issued = s.issued ++ out.toList) (hout : ∀ d, out = some d → e.inDelivery ≠ some d.serial) :
    s'.inFlightEvents e = s.inFlightEvents e := by
  rw [inFlightEvents, inFlightEvents, hissued]
  cases hserial : e.inDelivery with
  | none => rfl
  | some serial =>
      simp only [List.find?_append]
      cases out with
      | none => simp
      | some d =>
          have hne : d.serial ≠ serial := fun heq => hout d rfl (by rw [hserial, heq])
          simp [hne]

theorem Sound.events_eq (h : Sound s) {e : Entry U S} {d : DeliveryToken} (hd : d ∈ s.issued)
    (hserial : e.inDelivery = some d.serial) : s.inFlightEvents e = d.events := by
  rw [inFlightEvents, hserial]
  simp only
  cases hfind : s.issued.find? (·.serial = d.serial) with
  | none =>
      have hnone := List.find?_eq_none.mp hfind d hd
      simp at hnone
  | some d' =>
      have hmem := List.mem_of_find?_eq_some hfind
      have hsame := List.find?_some hfind
      rw [h.issued_unique d' hmem d hd (by simpa using hsame)]
      rfl

theorem effect_nextDelivery {c c' : EpollCore U S} {out : Option DeliveryToken} (h : Effect c op out c') :
    (out = none ∧ c'.nextDelivery = c.nextDelivery) ∨
      ∃ d, out = some d ∧ d.serial = c.nextDelivery ∧ c'.nextDelivery = c.nextDelivery + 1 := by
  cases h with
  | same => exact .inl ⟨rfl, rfl⟩
  | add _ _ hnext _ => exact .inl ⟨rfl, hnext⟩
  | modify _ _ _ hnext _ => exact .inl ⟨rfl, hnext⟩
  | remove _ _ hnext _ => exact .inl ⟨rfl, hnext⟩
  | notify _ _ _ hnext _ => exact .inl ⟨rfl, hnext⟩
  | finish _ _ _ _ hnext _ => exact .inl ⟨rfl, hnext⟩
  | commit _ _ _ _ hnext _ => exact .inr ⟨_, rfl, rfl, hnext⟩

/-- The serial an interest is in delivery under is old, or has just been
issued. -/
theorem effect_serial {c c' : EpollCore U S} {out : Option DeliveryToken} (h : Effect c op out c') {t : EpollToken}
    {e : Entry U S} (hn : Names c' t e) {n : Nat} (hserial : e.inDelivery = some n) :
    (∃ t' e', Names c t' e' ∧ e'.inDelivery = some n) ∨ ∃ d, out = some d ∧ d.serial = n := by
  have hkeep : ∀ {slot : Nat} {cell : Option (Entry U S)}, Becomes c c' slot cell →
      (∀ x, cell = some x → x.inDelivery = some n →
        (∃ t' e', Names c t' e' ∧ e'.inDelivery = some n) ∨ ∃ d, out = some d ∧ d.serial = n) →
      (∃ t' e', Names c t' e' ∧ e'.inDelivery = some n) ∨ ∃ d, out = some d ∧ d.serial = n := by
    intro slot cell hb hcell
    rw [names_set hb.id hb.entries hb.slot_lt] at hn
    split at hn
    · exact hcell e hn.2.1 hserial
    · exact .inl ⟨t, e, hn, hserial⟩
  cases h with
  | same => exact .inl ⟨t, e, hn, hserial⟩
  | add interest _ _ hb =>
      refine hkeep hb ?_
      rintro _ ⟨⟩ ⟨⟩
  | modify token replacement _ _ hb =>
      refine hkeep hb ?_
      rintro _ ⟨⟩ ⟨⟩
  | remove token _ _ hb => exact hkeep hb nofun
  | @notify _ old token ready hold _ hb =>
      refine hkeep hb ?_
      rintro _ ⟨⟩ hx
      refine .inl ⟨token, old, hold, ?_⟩
      rw [notified] at hx
      split at hx <;> exact hx
  | commit preparation userData _ _ _ hb =>
      refine hkeep hb ?_
      rintro _ ⟨⟩ ⟨⟩
      exact .inr ⟨_, rfl, rfl⟩
  | @finish _ old delivery outcome _ _ _ hb =>
      refine hkeep hb ?_
      rintro _ ⟨⟩ hx
      have hidle := (finished_fields old delivery.events outcome).2.2.1
      rw [requeued] at hx
      simp only [hidle] at hx
      cases hx

theorem Sound.step (h : Sound s) (op : Op U S V) : Sound (s.step op) := by
  rcases h.step_cases op with ⟨hsame, _⟩ | ⟨_, out, heffect, hissued⟩
  · rw [hsame]
    exact h
  · refine ⟨heffect.sound h.core, ?_, ?_, ?_⟩
    · intro d hd
      rw [hissued, List.mem_append, Option.mem_toList] at hd
      rcases effect_nextDelivery heffect with ⟨rfl, hnext⟩ | ⟨d', rfl, hserial, hnext⟩
      · rcases hd with hd | hd
        · exact hnext ▸ h.issued_lt d hd
        · cases hd
      · rw [hnext]
        rcases hd with hd | hd
        · exact Nat.lt_succ_of_lt (h.issued_lt d hd)
        · cases hd
          rw [hserial]
          exact Nat.lt_succ_self _
    · intro d hd d' hd' heq
      rw [hissued, List.mem_append, Option.mem_toList] at hd hd'
      rcases effect_nextDelivery heffect with ⟨rfl, _⟩ | ⟨x, rfl, hserial, _⟩
      · rcases hd with hd | hd
        · rcases hd' with hd' | hd'
          · exact h.issued_unique d hd d' hd' heq
          · cases hd'
        · cases hd
      · rcases hd with hd | hd
        · rcases hd' with hd' | hd'
          · exact h.issued_unique d hd d' hd' heq
          · cases hd'
            have hlt := h.issued_lt d hd
            omega
        · cases hd
          rcases hd' with hd' | hd'
          · have hlt := h.issued_lt d' hd'
            omega
          · cases hd'
            rfl
    · intro t e hn n hserial
      rcases effect_serial heffect hn hserial with ⟨t', e', hn', hserial'⟩ | ⟨d, rfl, rfl⟩
      · have hlt := h.serial_lt t' e' hn' n hserial'
        rcases effect_nextDelivery heffect with ⟨_, hnext⟩ | ⟨_, _, _, hnext⟩ <;> omega
      · rcases effect_nextDelivery heffect with ⟨hnone, _⟩ | ⟨d', heq, hserial', hnext⟩
        · cases hnone
        · cases heq
          omega

theorem sound_after (id capacity : Nat) (ops : Nat → Op U S V) (n : Nat) :
    Sound (after id capacity ops n : EpollSystem U S) := by
  induction n with
  | zero => exact ⟨sound_initial id capacity, nofun, nofun, fun t e hn => absurd hn (not_names_initial id capacity t e)⟩
  | succ n ih => exact ih.step (ops n)

theorem notified_bits (e : Entry U S) (bits : ReadyMask) :
    (notified e bits).inDelivery = e.inDelivery ∧
      (notified e bits).ready ||| (notified e bits).duringDelivery = (e.ready ||| e.duringDelivery) ||| bits := by
  rw [notified]
  split
  · exact ⟨rfl, by rw [BitVec.or_assoc]⟩
  · exact ⟨rfl, by simp only [BitVec.or_assoc, BitVec.or_comm bits]⟩

theorem names_of_getElem? {c : EpollCore U S} {e : Entry U S} (he : c.entries[slot]? = some (some e)) :
    Names c ⟨c.id, slot, e.generation⟩ e := ⟨rfl, he, rfl⟩

theorem eq_of_names {c : EpollCore U S} {token : EpollToken} {e old : Entry U S}
    (he : c.entries[token.slot]? = some (some e)) (hn : Names c token old) : e = old := by
  rw [hn.entry, Option.some.injEq, Option.some.injEq] at he
  exact he.symm

/-- A recorded bit stays recorded, or the call discharges it. -/
theorem Sound.records_step (h : Sound s) (op : Op U S V) (hrec : s.Records slot bit) :
    (s.step op).Records slot bit ∨ s.Discharges slot bit op := by
  obtain ⟨e, he, hbit⟩ := hrec
  rcases h.step_cases op with ⟨hsame, _⟩ | ⟨hadm, out, heffect, hissued⟩
  · rw [hsame]
    exact .inl ⟨e, he, hbit⟩
  have hs' := h.step op
  generalize s.step op = s' at heffect hissued hs' ⊢
  obtain ⟨core', issued'⟩ := s'
  simp only at heffect hissued
  have hflight : inFlightEvents ⟨core', issued'⟩ e = s.inFlightEvents e := by
    refine inFlightEvents_append hissued ?_
    intro d hd hserial
    have hlt := h.serial_lt _ e (names_of_getElem? he) _ hserial
    rcases effect_nextDelivery heffect with ⟨hnone, _⟩ | ⟨d', heq, hserial', _⟩
    · rw [hd] at hnone
      cases hnone
    · rw [hd, Option.some.injEq] at heq
      subst heq
      omega
  -- away from the slot that changes, nothing changes
  have helse : ∀ {i : Nat} {cell : Option (Entry U S)}, Becomes s.core core' i cell → slot ≠ i →
      Records ⟨core', issued'⟩ slot bit := by
    intro i cell hb hne
    refine ⟨e, by rw [hb.getElem?, if_neg hne, he], ?_⟩
    rw [hflight]
    exact hbit
  have hhere : ∀ {x : Entry U S}, Becomes s.core core' slot (some x) →
      (x.ready ||| x.duringDelivery ||| inFlightEvents ⟨core', issued'⟩ x).getLsbD bit = true →
      Records ⟨core', issued'⟩ slot bit := by
    intro x hb hx
    exact ⟨x, by rw [hb.getElem?, if_pos rfl], hx⟩
  cases heffect with
  | same => exact .inl ⟨e, he, by rw [hflight]; exact hbit⟩
  | @add _ i _ interest hfree hnext hb =>
      by_cases hslot : slot = i
      · subst hslot
        rw [hfree] at he
        cases he
      · exact .inl (helse hb hslot)
  | modify token replacement hn hnext hb =>
      by_cases hslot : slot = token.slot
      · subst hslot
        obtain rfl := eq_of_names he hn
        by_cases hidle : e.inDelivery = none
        · have hready : e.ready.getLsbD bit = true := by
            simpa [h.core.idle _ e hn hidle, inFlightEvents, hidle] using hbit
          cases hmask : (replacement.interest.bits ||| ReadyMask.unconditional).getLsbD bit with
          | false => exact .inr (.excluded hn rfl hmask)
          | true =>
              refine .inl (hhere hb ?_)
              simp only [replaced, ReadyMask.deliverable, BitVec.getLsbD_or, BitVec.getLsbD_and, hready,
                Bool.true_and] at hmask ⊢
              rw [hmask]
              rfl
        · exact .inr (.interrupted hn rfl hidle)
      · exact .inl (helse hb hslot)
  | remove token hn hnext hb =>
      by_cases hslot : slot = token.slot
      · exact .inr (.removed hn hslot.symm)
      · exact .inl (helse hb hslot)
  | notify token ready hn hnext hb =>
      by_cases hslot : slot = token.slot
      · subst hslot
        obtain rfl := eq_of_names he hn
        refine .inl (hhere hb ?_)
        obtain ⟨hserial, hbits⟩ := notified_bits e (ready.deliverable e.interest.interest)
        rw [hbits, inFlightEvents, hserial]
        rw [← hflight, inFlightEvents] at hbit
        simp only [BitVec.getLsbD_or, Bool.or_eq_true] at hbit ⊢
        tauto
      · exact .inl (helse hb hslot)
  | commit preparation userData hn hq hnext hb =>
      by_cases hslot : slot = preparation.interest.slot
      · subst hslot
        obtain rfl := eq_of_names he hn
        refine .inl (hhere hb ?_)
        have hidle : e.inDelivery = none := by
          by_contra hne
          rw [(h.core.inFlight _ e hn hne).1] at hq
          cases hq
        have hready : e.ready.getLsbD bit = true := by
          simpa [h.core.idle _ e hn hidle, inFlightEvents, hidle] using hbit
        rw [hs'.events_eq (d := ⟨preparation.interest, s.core.nextDelivery, e.ready⟩) (by simp [hissued]) rfl]
        simp [hready]
      · exact .inl (helse hb hslot)
  | finish delivery outcome hn hserial hnext hb =>
      by_cases hslot : slot = delivery.interest.slot
      · subst hslot
        obtain rfl := eq_of_names he hn
        have hd : delivery ∈ s.issued := of_decide_eq_true hadm
        rw [h.events_eq hd hserial] at hbit
        simp only [BitVec.getLsbD_or, Bool.or_eq_true] at hbit
        cases outcome with
        | fault =>
            refine .inl (hhere hb ?_)
            simp only [requeued, Entry.finished, BitVec.getLsbD_or, Bool.or_eq_true]
            tauto
        | suppressed =>
            rcases hbit with hbit | hbit
            · refine .inl (hhere hb ?_)
              simp only [requeued, Entry.finished, BitVec.getLsbD_or, Bool.or_eq_true]
              tauto
            · exact .inr (.suppressed hd hn rfl hserial hbit)
        | copied stillReady =>
            rcases hbit with hbit | hbit
            · refine .inl (hhere hb ?_)
              simp only [requeued, Entry.finished]
              split <;> simp only [BitVec.getLsbD_or, Bool.or_eq_true] <;> tauto
            · exact .inr (.delivered stillReady hd hn rfl hserial hbit)
      · exact .inl (helse hb hslot)

/-- An enabled interest with recorded readiness that is neither queued nor in
delivery. -/
def Unqueued (c : EpollCore U S) (slot : Nat) : Prop :=
  ∃ e, c.entries[slot]? = some (some e) ∧ e.enabled = true ∧ e.ready ≠ 0 ∧ e.inDelivery = none ∧ e.queued = false

theorem Sound.unqueued_step (h : Sound s) (op : Op U S V) (hun : Unqueued (s.step op).core slot) :
    s.Rearms slot op ∨ (¬ s.Wakes slot op ∧ Unqueued s.core slot) := by
  rcases h.step_cases op with ⟨hsame, hadm⟩ | ⟨_, out, heffect, _⟩
  · rw [hsame] at hun
    refine .inr ⟨?_, hun⟩
    rintro ⟨token, ready, rfl, _⟩
    exact hadm rfl
  generalize (s.step op).core = core' at heffect hun
  obtain ⟨x, hx, henabled, hready, hidle, hq⟩ := hun
  -- away from the slot that changes, the interest was unqueued before
  have helse : ∀ {i : Nat} {cell : Option (Entry U S)}, Becomes s.core core' i cell → slot ≠ i →
      Unqueued s.core slot := by
    intro i cell hb hne
    rw [hb.getElem?, if_neg hne] at hx
    exact ⟨x, hx, henabled, hready, hidle, hq⟩
  have hhere : ∀ {cell : Option (Entry U S)}, Becomes s.core core' slot cell → cell = some x := by
    intro cell hb
    rw [hb.getElem?, if_pos rfl, Option.some.injEq] at hx
    exact hx
  cases heffect with
  | same op hquiet =>
      refine .inr ⟨?_, x, hx, henabled, hready, hidle, hq⟩
      rintro ⟨token, ready, rfl, _, hnotifies⟩
      exact hquiet token ready rfl hnotifies
  | @add _ i _ interest hfree hnext hb =>
      by_cases hslot : slot = i
      · subst hslot
        obtain rfl := Option.some.inj (hhere hb)
        exact absurd rfl hready
      · exact .inr ⟨by rintro ⟨_, _, ⟨⟩, _⟩, helse hb hslot⟩
  | @modify _ old _ token replacement hn hnext hb =>
      by_cases hslot : slot = token.slot
      · subst hslot
        obtain rfl := Option.some.inj (hhere hb)
        cases hold : old.enabled with
        | false => exact .inl ⟨token, replacement, old, rfl, hn, rfl, hold⟩
        | true =>
            refine .inr ⟨by rintro ⟨_, _, ⟨⟩, _⟩, old, hn.entry, hold, ?_, ?_, ?_⟩
            · intro hzero
              rw [replaced, ReadyMask.deliverable] at hready
              simp [hzero] at hready
            · by_contra hne
              rw [replaced, ReadyMask.deliverable] at hready
              simp [(h.core.inFlight token old hn hne).2] at hready
            · simp only [replaced] at hq hready
              rw [bne_iff_ne.mpr hready, Bool.and_true] at hq
              exact hq
      · exact .inr ⟨by rintro ⟨_, _, ⟨⟩, _⟩, helse hb hslot⟩
  | remove token hn hnext hb =>
      by_cases hslot : slot = token.slot
      · subst hslot
        cases hhere hb
      · exact .inr ⟨by rintro ⟨_, _, ⟨⟩, _⟩, helse hb hslot⟩
  | @notify _ e token ready hn hnext hb =>
      by_cases hslot : slot = token.slot
      · subst hslot
        obtain rfl := Option.some.inj (hhere hb)
        rw [notified] at hidle hq
        split at hidle
        · next hflight =>
            simp only at hidle
            rw [hidle] at hflight
            cases hflight
        · next hflight =>
            rw [if_neg hflight] at hq
            cases hq
      · refine .inr ⟨?_, helse hb hslot⟩
        rintro ⟨_, _, ⟨⟩, heq, _⟩
        exact hslot heq.symm
  | commit preparation userData hn hqueued hnext hb =>
      by_cases hslot : slot = preparation.interest.slot
      · subst hslot
        obtain rfl := Option.some.inj (hhere hb)
        cases hidle
      · exact .inr ⟨by rintro ⟨_, _, ⟨⟩, _⟩, helse hb hslot⟩
  | finish delivery outcome hn hserial hnext hb =>
      by_cases hslot : slot = delivery.interest.slot
      · subst hslot
        obtain rfl := Option.some.inj (hhere hb)
        simp only [requeued] at hq henabled hready
        rw [henabled, bne_iff_ne.mpr hready] at hq
        cases hq
      · exact .inr ⟨by rintro ⟨_, _, ⟨⟩, _⟩, helse hb hslot⟩

theorem unqueued_after (id capacity : Nat) (ops : Nat → Op U S V) (n : Nat)
    (h : Unqueued (after id capacity ops n : EpollSystem U S).core slot) :
    ∃ k < n, (after id capacity ops k).Rearms slot (ops k) ∧
      ∀ j, k < j → j < n → ¬ (after id capacity ops j).Wakes slot (ops j) := by
  induction n with
  | zero =>
      obtain ⟨e, he, _⟩ := h
      exact absurd (names_of_getElem? he) (not_names_initial id capacity _ e)
  | succ n ih =>
      rcases (sound_after id capacity ops n).unqueued_step (ops n) h with hrearms | ⟨hquiet, hbefore⟩
      · exact ⟨n, Nat.lt_succ_self n, hrearms, by omega⟩
      · obtain ⟨k, hk, hrearms, hsince⟩ := ih hbefore
        refine ⟨k, by omega, hrearms, ?_⟩
        intro j hj hjn
        rcases Nat.lt_succ_iff_lt_or_eq.mp hjn with hlt | rfl
        · exact hsince j hj hlt
        · exact hquiet

theorem Sound.records_notify (h : Sound s) {token : EpollToken} {ready : ReadyMask} {e : Entry U S}
    (hn : Names s.core token e)
    (henabled : e.enabled = true) (hbit : (ready.deliverable e.interest.interest).getLsbD bit = true) :
    (s.step (.notify token ready : Op U S V)).Records token.slot bit := by
  rcases h.step_cases (.notify token ready : Op U S V) with ⟨_, hadm⟩ | ⟨_, out, heffect, _⟩
  · exact absurd rfl hadm
  generalize s.step (.notify token ready : Op U S V) = s' at heffect ⊢
  obtain ⟨core', issued'⟩ := s'
  simp only at heffect
  cases heffect with
  | same op hquiet =>
      refine absurd ⟨e, hn, henabled, ?_⟩ (hquiet token ready rfl)
      intro hzero
      rw [hzero] at hbit
      simp at hbit
  | notify token ready hn' hnext hb =>
      obtain rfl := hn.unique hn'
      refine ⟨_, by rw [hb.getElem?, if_pos rfl], ?_⟩
      rw [(notified_bits e _).2]
      simp [hbit]

theorem records_after (id capacity : Nat) (ops : Nat → Op U S V) {i : Nat} (j : Nat) (hij : i ≤ j)
    (h : (after id capacity ops i : EpollSystem U S).Records slot bit) :
    (after id capacity ops j).Records slot bit ∨
      ∃ k, i ≤ k ∧ k < j ∧ (after id capacity ops k).Discharges slot bit (ops k) := by
  induction j, hij using Nat.le_induction with
  | base => exact .inl h
  | succ j hij ih =>
      rcases ih with hrec | ⟨k, hik, hkj, hdis⟩
      · rcases (sound_after id capacity ops j).records_step (ops j) hrec with hrec | hdis
        · exact .inl hrec
        · exact .inr ⟨j, hij, Nat.lt_succ_self j, hdis⟩
      · exact .inr ⟨k, hik, by omega, hdis⟩

/-- No wakeup is lost but by design. An enabled interest with recorded
readiness that is not in delivery is queued, unless it has been enabled again
after a one-shot delivery and not notified since. A bit notified to an enabled
interest stays recorded until it is delivered or the adapter finds the delivery
stale, the interest is removed, or a modification excludes the bit or
interrupts a delivery. -/
theorem wakeups_kept (id capacity : Nat) (ops : Nat → Op U S V) :
    (∀ n token e, Names (after id capacity ops n : EpollSystem U S).core token e →
      e.enabled = true → e.ready ≠ 0 → e.inDelivery = none →
      token ∈ (after id capacity ops n : EpollSystem U S).core.ready.contents ∨
        ∃ k < n, (after id capacity ops k).Rearms token.slot (ops k) ∧
          ∀ j, k < j → j < n → ¬ (after id capacity ops j).Wakes token.slot (ops j)) ∧
    ∀ i j token ready e bit, i < j → ops i = .notify token ready →
      Names (after id capacity ops i : EpollSystem U S).core token e → e.enabled = true →
      (ready.deliverable e.interest.interest).getLsbD bit = true →
      (after id capacity ops j).Records token.slot bit ∨
        ∃ k, i < k ∧ k < j ∧ (after id capacity ops k).Discharges token.slot bit (ops k) := by
  constructor
  · intro n token e hn henabled hready hidle
    cases hq : e.queued with
    | true => exact .inl (((sound_after id capacity ops n).core.mem_contents hn).mpr hq)
    | false => exact .inr (unqueued_after id capacity ops n ⟨e, hn.entry, henabled, hready, hidle, hq⟩)
  · intro i j token ready e bit hij hop hn henabled hbit
    have hrec : (after id capacity ops (i + 1)).Records token.slot bit := by
      rw [after, hop]
      exact (sound_after id capacity ops i).records_notify hn henabled hbit
    rcases records_after id capacity ops j hij hrec with hrec | ⟨k, hik, hkj, hdis⟩
    · exact .inl hrec
    · exact .inr ⟨k, hik, hkj, hdis⟩

def oneShotInterest : EpollInterest Nat Nat := ⟨⟨1, 3⟩, ⟨1, by decide⟩, ⟨false, true, false⟩, 99, 0⟩

/-- The interest is delivered while it stays ready, and then armed again. -/
def rearmOps : Nat → Op Nat Nat Nat
  | 0 => .add oneShotInterest
  | 1 => .notify ⟨1, 0, 1⟩ 1
  | 2 => .commitDelivery ⟨⟨1, 0, 1⟩⟩ 99
  | 3 => .finishDelivery ⟨⟨1, 0, 1⟩, 1, 1⟩ (.copied 1)
  | 4 => .modify ⟨1, 0, 1⟩ oneShotInterest
  | _ => .prepareDelivery

/-- An interest that is armed again is not queued, though its readiness is still
recorded. -/
theorem rearmed_interest_unqueued :
    ¬ ∀ (id capacity : Nat) (ops : Nat → Op Nat Nat Nat) (n : Nat) (token : EpollToken) (e : Entry Nat Nat),
      Names (after id capacity ops n).core token e → e.enabled = true → e.ready ≠ 0 → e.inDelivery = none →
      token ∈ (after id capacity ops n).core.ready.contents := by
  intro h
  have hn : Names (after 1 1 rearmOps 5).core ⟨1, 0, 2⟩ ⟨2, oneShotInterest, true, false, none, 1, 0⟩ := ⟨rfl, rfl, rfl⟩
  have hmem := h 1 1 rearmOps 5 _ _ hn rfl (by decide) rfl
  have hempty : (after 1 1 rearmOps 5).core.ready.contents = [] := rfl
  rw [hempty] at hmem
  cases hmem

end EpollSystem

end TheKernel.Fd
