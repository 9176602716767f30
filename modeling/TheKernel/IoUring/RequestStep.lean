import TheKernel.IoUring.RequestSound

namespace TheKernel.IoUring.RequestRegistry

open Outcome Act

variable {r t : RequestRegistry} {l : Ledger} {id id' : RequestId} {e : RequestEntry} {state : EntryState}

/-- The call ends as `ok` says with the ledger that the result gives, or fails
and changes nothing. -/
def Respects {ε α : Type} (x : Act RequestRegistry ε α) (r : RequestRegistry) (ledger : α → Ledger) : Prop :=
  Ensures x r (fun a t => Sound t (ledger a)) (fun _ t => t = r) False

theorem checkedSub_eq {a b : Nat} (h : b ≤ a) : checkedSub a b = some (a - b) := if_pos h

theorem checkedAddBits_eq {bits a b : Nat} (h : a + b < 2 ^ bits) : checkedAddBits bits a b = some (a + b) := if_pos h

theorem nextGeneration_eq {g n : Nat} (h : nextGeneration g = some n) : n = g + 1 := by
  rw [nextGeneration, checkedAddBits] at h
  split at h
  · exact (Option.some.inj h).symm
  · cases h

theorem entry_ne_panic : r.entry id ≠ .panic := by
  intro h
  rw [entry] at h
  split at h
  · cases h
  · split at h
    · cases h
    · split at h
      · cases h
      · split at h <;> cases h

theorem ensures_entry_bind {α : Type} {f : RequestEntry → Call α} {post : α → RequestRegistry → Prop}
    (hok : ∀ e, r.entry id = .ok e → Ensures (f e) r post (fun _ t => t = r) False) :
    Ensures (lift (r.entry id) >>= f) r post (fun _ t => t = r) False :=
  ensures_lift_bind hok (fun _ _ => rfl) fun h => absurd h entry_ne_panic

/-- The plan of a nonterminal publication of the request is outstanding. -/
def MorePending (r : RequestRegistry) (id : RequestId) : Prop :=
  r.publicationInFlight = some id ∧ ∃ e mode, r.entry id = .ok e ∧ e.state = .shotInFlight mode

section Clear

def cleared (r : RequestRegistry) (id : RequestId) : RequestRegistry :=
  { r with
    slots := r.slots.set id.slot ⟨nextGeneration id.generation, none⟩
    freeSlots := if nextGeneration id.generation = none then r.freeSlots else r.freeSlots ++ [id.slot] }

theorem clearSlot_eq {issued : List (Nat × Nat)} (h : SlotsSound r.shapes r.freeSlots issued)
    (he : r.entry id = .ok e) : clearSlot id r = (.ok (), r.cleared id) := by
  obtain ⟨hring, hslot⟩ := entry_eq_ok.mp he
  have hroom : ¬ r.slots.length ≤ r.freeSlots.length := by
    have hlt := h.length_lt (shape_of_entry he)
    rw [shapes, List.length_map] at hlt
    omega
  rw [clearSlot, get_bind]
  cases hnext : nextGeneration id.generation with
  | none => simp [hring, hslot, hnext, cleared]
  | some n => simp [hring, hslot, hnext, hroom, cleared]

theorem shapes_cleared : (r.cleared id).shapes = r.shapes.set id.slot (nextGeneration id.generation, false) := by
  rw [shapes, shapes, cleared, List.map_set]
  rfl

theorem live_pos (he : r.entry id = .ok e) : 0 < r.live := by
  rw [live, List.countP_pos_iff]
  exact ⟨_, List.mem_of_getElem? (shape_of_entry he), rfl⟩

theorem live_cleared (he : r.entry id = .ok e) : (r.cleared id).live + 1 = r.live := by
  obtain ⟨hlt, hshape⟩ := List.getElem?_eq_some_iff.mp (shape_of_entry he)
  have hpos := live_pos he
  rw [live, shapes_cleared, List.countP_set hlt, hshape]
  rw [live] at hpos ⊢
  simp only [if_true, Bool.false_eq_true, if_false]
  omega

theorem slots_cleared {issued : List (Nat × Nat)} (h : SlotsSound r.shapes r.freeSlots issued)
    (he : r.entry id = .ok e) : SlotsSound (r.cleared id).shapes (r.cleared id).freeSlots issued := by
  rw [shapes_cleared]
  exact h.clear (shape_of_entry he) fun _ hn => nextGeneration_eq hn

theorem entry_cleared {e' : RequestEntry} (he : r.entry id = .ok e) (he' : r.entry id' = .ok e') (hne : id' ≠ id) :
    (r.cleared id).entry id' = .ok e' := by
  obtain ⟨hring, hslot⟩ := entry_eq_ok.mp he'
  apply entry_eq_ok.mpr
  refine ⟨hring, ?_⟩
  have hslots : id.slot ≠ id'.slot := fun heq => hne (eq_of_slot he he' heq.symm)
  rw [cleared, List.getElem?_set_ne hslots, hslot]

theorem refundCredits_eq {n : Nat} (h : n ≤ r.terminalCredits) :
    refundCredits n r = (.ok (), { r with terminalCredits := r.terminalCredits - n }) := by
  rw [refundCredits, get_bind, checkedSub_eq h]
  rfl

/-- The end of `rollback` and of `discard_completion`. -/
theorem Sound.discard (h : Sound r l) (he : r.entry id = .ok e) (hstate : ¬ Announced e.state) :
    Respects (clearSlot id >>= fun _ => refundCredits 1) r fun _ => l := by
  have hlive := live_cleared he
  have hcredits := h.credits
  have hpos : 1 ≤ (r.cleared id).terminalCredits := by
    change 1 ≤ r.terminalCredits
    omega
  apply ensures_bind_of_eq (clearSlot_eq h.slots he)
  apply ensures_of_eq (refundCredits_eq hpos)
  refine ⟨h.size, h.head, h.tail, h.reaped, h.room, h.reservations, h.marks, ?_, ?_, slots_cleared h.slots he, ?_⟩
  · change r.terminalCredits - 1 = (r.cleared id).live + l.unreaped.count true
    omega
  · exact (Nat.sub_le _ _).trans h.bounded
  · intro id' hid'
    obtain ⟨e', he', hannounced⟩ := h.announced id' hid'
    refine ⟨e', entry_cleared he he' ?_, hannounced⟩
    rintro rfl
    exact h.not_inFlight he hstate hid'

end Clear

section Reserve

variable {descriptor : RequestDescriptor} {slotIndex g sequence : Nat} {issued : List (Nat × Nat)}

def taken (r : RequestRegistry) (descriptor : RequestDescriptor) (slotIndex g sequence : Nat) : RequestRegistry :=
  { r with
    terminalCredits := r.terminalCredits + 1
    nextSequence := nextGeneration sequence
    freeSlots := r.freeSlots.dropLast
    slots := r.slots.set slotIndex ⟨some g, some ⟨descriptor, sequence, .reserved⟩⟩ }

theorem shapes_taken : (r.taken descriptor slotIndex g sequence).shapes = r.shapes.set slotIndex (some g, true) := by
  rw [shapes, shapes, taken, List.map_set]
  rfl

theorem live_taken (hslot : r.slots[slotIndex]? = some ⟨some g, none⟩) :
    (r.taken descriptor slotIndex g sequence).live = r.live + 1 := by
  have hshape : r.shapes[slotIndex]? = some (some g, false) := by simp [shapes, hslot]
  obtain ⟨hlt, hget⟩ := List.getElem?_eq_some_iff.mp hshape
  rw [live, shapes_taken, List.countP_set hlt, hget, live]
  simp

theorem slots_taken (h : SlotsSound r.shapes r.freeSlots issued) (hlast : r.freeSlots.getLast? = some slotIndex)
    (hslot : r.slots[slotIndex]? = some ⟨some g, none⟩) :
    SlotsSound (r.taken descriptor slotIndex g sequence).shapes (r.taken descriptor slotIndex g sequence).freeSlots
      ((slotIndex, g) :: issued) := by
  rw [shapes_taken]
  exact h.take hlast (by simp [shapes, hslot])

theorem reserve_ensures (h : SlotsSound r.shapes r.freeSlots issued) (hcq : r.cqEntries ≤ 65536) :
    Ensures (reserve descriptor) r (fun reservation t => ∃ slotIndex g sequence, reservation =
      ⟨⟨r.ring, slotIndex, g⟩, descriptor⟩ ∧
      r.freeSlots.getLast? = some slotIndex ∧ r.slots[slotIndex]? = some ⟨some g, none⟩ ∧
        r.terminalCredits < r.cqEntries ∧
      r.nextSequence = some sequence ∧ t = r.taken descriptor slotIndex g sequence) (fun _ t => t = r) False := by
  rw [RequestRegistry.reserve]
  apply ensures_get_bind
  split
  · exact ensures_fail rfl
  · exact ensures_fail rfl
  · exact ensures_fail rfl
  · split
    · exact ensures_fail rfl
    · rename_i hfull
      refine ensures_okOr_bind ?_ fun _ => rfl
      intro sequence hsequence
      split
      · split
        · exact ensures_fail rfl
        · exact ensures_fail rfl
      · rename_i slotIndex hlast
        obtain ⟨g, hshape⟩ := (h.free slotIndex).mp (List.mem_of_getLast? hlast)
        have hslot : r.slots[slotIndex]? = some ⟨some g, none⟩ := by
          rw [shapes, List.getElem?_map, Option.map_eq_some_iff] at hshape
          obtain ⟨slot, hslot, heq⟩ := hshape
          rw [hslot]
          rcases slot with ⟨generation, entry⟩
          cases entry <;> simp_all
        have hadd : checkedAddBits 32 r.terminalCredits 1 = some (r.terminalCredits + 1) := checkedAddBits_eq (by omega)
        simp only [hslot, hadd]
        exact ⟨slotIndex, g, sequence, rfl, hlast, hslot, by omega, hsequence, rfl⟩

end Reserve

theorem requirePublishing_ensures (r : RequestRegistry) :
    Ensures (requirePublishing r) r (fun _ t => t = r) (fun _ t => t = r) False := by
  rw [requirePublishing]
  split
  · exact ensures_fail rfl
  · exact ensures_fail rfl
  · exact ensures_pure rfl
  · exact ensures_pure rfl

theorem Sound.abandon (h : Sound r l) :
    Sound { r.setState id state with publicationInFlight := none } l := by
  have hroom := h.room
  refine ⟨h.size, h.head, h.tail, h.reaped, ?_, h.reservations, h.marks, ?_, h.bounded, ?_, nofun⟩
  · change l.log.length + 0 + r.nonterminalReservations ≤ l.reaped + r.cqEntries
    omega
  · rw [live]
    change r.terminalCredits = (r.setState id state).shapes.countP _ + _
    rw [shapes_setState]
    exact h.credits
  · change SlotsSound (r.setState id state).shapes r.freeSlots l.issued
    rw [shapes_setState]
    exact h.slots

/-- The tail moves over the publication in flight, from a registry whose slots
have changed: a terminal publication retires its request. -/
theorem Sound.advance (h : Sound r l) {publication : CompletionPublication} {slots : List RequestSlot}
    {freeSlots : List Nat}
    (hin : r.publicationInFlight = some publication.id) (hslot : publication.slot = r.cqSlot r.cqTail)
    (htail : publication.newTail = r.cqTail + 1)
    (hslots : SlotsSound (shapes { r with slots := slots, freeSlots := freeSlots }) freeSlots l.issued)
    (hlive : live { r with slots := slots, freeSlots := freeSlots } + [publication.terminal].count true = r.live) :
    Ensures (advance publication) { r with slots := slots, freeSlots := freeSlots }
      (fun _ t => Sound t { l with log := l.log ++ [publication.terminal] }) (fun _ _ => False) False := by
  have hroom := h.room
  have hcredits := h.credits
  rw [inFlight, hin, Option.toList_some, List.length_singleton] at hroom
  rw [h.tail, cqSlot_ofNat h] at hslot
  have hmark : ¬ r.publishedTerminal.length ≤ publication.slot := by
    rw [h.marks.length, hslot]
    exact Nat.not_le.mpr (Nat.mod_lt _ (cqEntries_pos h))
  rw [RequestRegistry.advance]
  apply ensures_get_bind
  rw [if_neg hmark]
  apply ensures_set
  refine ⟨h.size, h.head, ?_, ?_, ?_, h.reservations, ?_, ?_, h.bounded, hslots, nofun⟩
  · change publication.newTail = BitVec.ofNat 32 (l.log ++ [publication.terminal]).length
    rw [htail, h.tail, List.length_append, List.length_singleton, BitVec.ofNat_add]
    rfl
  · rw [List.length_append]
    exact h.reaped.trans (Nat.le_add_right _ _)
  · change (l.log ++ [publication.terminal]).length + 0 + r.nonterminalReservations ≤ l.reaped + r.cqEntries
    rw [List.length_append, List.length_singleton]
    omega
  · change Marks r.cqEntries (r.publishedTerminal.set publication.slot publication.terminal) _ l.reaped
    rw [hslot]
    exact h.marks.push h.reaped (by omega)
  · change r.terminalCredits = live { r with slots := slots, freeSlots := freeSlots } +
      ((l.log ++ [publication.terminal]).drop l.reaped).count true
    rw [List.drop_append_of_le_length h.reaped, List.count_append]
    rw [Ledger.unreaped] at hcredits
    omega

section Calls

variable (h : Sound r l)

include h

theorem Sound.reserve (descriptor : RequestDescriptor) :
    Respects (reserve descriptor) r fun reservation =>
      { l with issued := (reservation.id.slot, reservation.id.generation) :: l.issued } := by
  refine (reserve_ensures h.slots (cqEntries_le h)).mono ?_ (fun _ _ ht => ht) id
  rintro _ _ ⟨slotIndex, g, sequence, rfl, hlast, hslot, hfull, _, rfl⟩
  have hcredits := h.credits
  refine ⟨h.size, h.head, h.tail, h.reaped, h.room, h.reservations, h.marks, ?_, hfull,
    slots_taken h.slots hlast hslot, ?_⟩
  · rw [live_taken hslot]
    change r.terminalCredits + 1 = r.live + 1 + l.unreaped.count true
    omega
  · intro id hid
    obtain ⟨e, he, hannounced⟩ := h.announced id hid
    refine ⟨e, ?_, hannounced⟩
    obtain ⟨hring, hid'⟩ := entry_eq_ok.mp he
    refine entry_eq_ok.mpr ⟨hring, ?_⟩
    rw [← hid']
    apply List.getElem?_set_ne
    rintro rfl
    rw [hslot] at hid'
    cases hid'

theorem Sound.rollback (reservation : RequestReservation) : Respects (rollback reservation) r fun _ => l := by
  rw [RequestRegistry.rollback]
  apply ensures_get_bind
  apply ensures_entry_bind
  intro e he
  split
  · exact ensures_fail rfl
  · rename_i hstate
    apply h.discard he
    rw [not_not.mp hstate]
    exact not_announced_reserved

theorem Sound.commit (reservation : RequestReservation) : Respects (commit reservation) r fun _ => l := by
  rw [RequestRegistry.commit]
  apply ensures_get_bind
  apply ensures_entry_bind
  intro e he
  split
  · exact ensures_fail rfl
  · rename_i hstate
    apply h.restate he
    rw [not_not.mp hstate]
    exact not_announced_reserved

theorem Sound.issueWithCancellationMode (prepared : PreparedRequest) (overrideMode : Option CancellationMode) :
    Respects (issueWithCancellationMode prepared overrideMode) r fun _ => l := by
  rw [RequestRegistry.issueWithCancellationMode]
  apply ensures_get_bind
  refine ensures_lift_bind ?_ (fun _ _ => rfl) ?_
  · intro e he
    rw [mapErr_eq_ok] at he
    split
    · rename_i hstate
      apply h.restate he
      rw [hstate]
      exact not_announced_prepared
    all_goals exact ensures_fail rfl
  · intro hpanic
    cases hentry : r.entry prepared.id with
    | ok e => simp [hentry, Outcome.mapErr] at hpanic
    | err e => simp [hentry, Outcome.mapErr] at hpanic
    | panic => exact entry_ne_panic hentry

omit h in
theorem requireIssued_ensures (issued : IssuedRequest) (state : EntryState) :
    Ensures (requireIssued issued state) r (fun _ t => t = r ∧ ∃ e, r.entry issued.id = .ok e ∧ e.state = state ∧
      e.descriptor = issued.descriptor) (fun _ t => t = r) False := by
  rw [requireIssued]
  apply ensures_get_bind
  apply ensures_entry_bind
  intro e he
  split
  · exact ensures_fail rfl
  · rename_i hstate
    rw [not_or, not_not, not_not] at hstate
    exact ensures_pure ⟨rfl, e, he, hstate.2, hstate.1⟩

theorem Sound.beginSideEffect (issued : IssuedRequest) : Respects (beginSideEffect issued) r fun _ => l := by
  rw [RequestRegistry.beginSideEffect]
  refine (requireIssued_ensures issued _).bind ?_
  rintro _ _ ⟨rfl, e, he, hstate, _⟩
  apply ensures_modify
  apply h.restate he
  rw [hstate]
  exact not_announced_issued

omit h in
theorem live_two {e' : RequestEntry} (he : r.entry id = .ok e) (he' : r.entry id' = .ok e') (hne : id' ≠ id) :
    2 ≤ r.live := by
  have hrest := live_pos (entry_cleared he he' hne)
  have hlive := live_cleared he
  omega

/-- The capacity check counts every credit but the own one, so that the ring has
room for the publication in flight as well. -/
theorem Sound.beginNonterminalShot (issued : IssuedRequest) : Respects (beginNonterminalShot issued) r fun _ => l := by
  have hcq := cqEntries_le h
  have hcredits := h.credits
  have hbounded := h.bounded
  have hreservations := h.reservations
  have hroom := h.room
  have hreaped := h.reaped
  rw [RequestRegistry.beginNonterminalShot]
  apply ensures_get_bind
  split
  · exact ensures_fail rfl
  · rename_i hnone
    have hzero : r.nonterminalReservations = 0 := by
      rw [hreservations, Option.not_isSome_iff_eq_none.mp hnone]
      rfl
    rw [h.marks.count, show l.log.drop l.reaped = l.unreaped from rfl, hcredits, checkedSub_eq (by omega)]
    apply ensures_okOr_bind _ nofun
    rintro unpublished ⟨⟩
    refine ensures_okOr_bind ?_ fun _ => rfl
    intro other hother
    have hlive : other + 1 = r.live := by
      rw [checkedSub] at hother
      split at hother
      · cases hother
        omega
      · cases hother
    rw [publishedCount_eq h]
    refine ensures_lift_bind ?_ nofun nofun
    rintro published ⟨⟩
    refine ensures_okOr_bind ?_ fun _ => rfl
    intro used hused
    rw [checkedAddBits_eq (by omega)] at hused
    cases hused
    refine ensures_okOr_bind ?_ fun _ => rfl
    intro used hused
    rw [checkedAddBits_eq (by omega)] at hused
    cases hused
    split
    · exact ensures_fail rfl
    · rename_i hspace
      refine (requireIssued_ensures issued _).bind ?_
      rintro _ t ⟨ht, e, he, hstate, _⟩
      rw [ht, hzero, checkedAddBits_eq (by omega)]
      apply ensures_modify_bind
      refine ensures_okOr_bind ?_ nofun
      rintro reservations ⟨⟩
      have hsound : Sound (r.setState issued.id (.shotInFlight issued.cancellationMode)) l := by
        apply h.restate he
        rw [hstate]
        exact not_announced_issued
      refine ⟨hsound.size, hsound.head, hsound.tail, hsound.reaped, ?_, rfl, hsound.marks, hsound.credits,
        hsound.bounded, hsound.slots, hsound.announced⟩
      change l.log.length + r.inFlight + 1 ≤ l.reaped + r.cqEntries
      cases hid : r.publicationInFlight with
      | none =>
          rw [inFlight, hid]
          simp only [Option.toList_none, List.length_nil]
          omega
      | some id =>
          obtain ⟨e', he', hannounced⟩ := h.announced id hid
          have hne : id ≠ issued.id := by
            rintro rfl
            apply h.not_inFlight he _ hid
            rw [hstate]
            exact not_announced_issued
          have htwo := live_two he he' hne
          rw [inFlight, hid]
          simp only [Option.toList_some, List.length_singleton]
          omega

omit h in
/-- Whether or not the request holds the reservation, the call returns. -/
theorem Sound.releaseReservation (h : Sound t l) (id : RequestId) :
    Ensures (releaseReservation id) t (fun _ u => Sound u l) (fun _ _ => False) False := by
  rw [RequestRegistry.releaseReservation]
  apply ensures_get_bind
  split
  · rename_i hid
    have hone := h.reservations
    rw [hid] at hone
    apply ensures_modify_bind
    rw [checkedSub_eq (by rw [hone]; rfl)]
    refine ensures_okOr_bind ?_ nofun
    rintro reservations ⟨⟩
    have hroom := h.room
    refine ⟨h.size, h.head, h.tail, h.reaped, ?_, ?_, h.marks, h.credits, h.bounded, h.slots, h.announced⟩
    · change l.log.length + t.inFlight + (t.nonterminalReservations - 1) ≤ l.reaped + t.cqEntries
      omega
    · change t.nonterminalReservations - 1 = 0
      rw [hone]
      rfl
  · exact ensures_pure h

theorem Sound.abortNonterminalShot (issued : IssuedRequest) (hmore : ¬ MorePending r issued.id) :
    Respects (abortNonterminalShot issued) r fun _ => l := by
  rw [RequestRegistry.abortNonterminalShot]
  refine (requireIssued_ensures issued _).bind ?_
  rintro _ t ⟨ht, e, he, hstate, _⟩
  have hid : r.publicationInFlight ≠ some issued.id := fun hin => hmore ⟨hin, e, _, he, hstate⟩
  rw [ht]
  apply ensures_modify_bind
  exact ((h.setState he fun hin => absurd hin hid).releaseReservation issued.id).imp (fun _ _ hu => hu) False.elim

theorem Sound.claimTerminalAfterNonterminalShot (issued : IssuedRequest) (cause : TerminalCause)
    (hmore : ¬ MorePending r issued.id) :
    Respects (claimTerminalAfterNonterminalShot issued cause) r fun _ => l := by
  rw [RequestRegistry.claimTerminalAfterNonterminalShot]
  refine (requireIssued_ensures issued _).bind ?_
  rintro _ t ⟨ht, e, he, hstate, _⟩
  have hid : r.publicationInFlight ≠ some issued.id := fun hin => hmore ⟨hin, e, _, he, hstate⟩
  rw [ht]
  apply ensures_modify_bind
  refine Ensures.bind (((h.setState he fun hin => absurd hin hid).releaseReservation issued.id).imp
    (fun _ _ hu => hu) False.elim) ?_
  intro _ u hu
  exact ensures_pure hu

theorem Sound.claimTerminal (id : RequestId) (cause : TerminalCause) : Respects (claimTerminal id cause) r fun _ =>
    l := by
  rw [RequestRegistry.claimTerminal]
  apply ensures_get_bind
  apply ensures_entry_bind
  intro e he
  have hclaim : ¬ Announced e.state → Sound (r.setState id (.terminalClaimed cause)) l :=
    fun hstate => h.restate he hstate
  dsimp only
  split
  · rename_i hstate
    apply hclaim
    rw [hstate]
    exact not_announced_prepared
  · rename_i hstate
    apply hclaim
    rw [hstate]
    exact not_announced_issued
  · split
    · exact ensures_fail rfl
    · rename_i hstate _
      apply hclaim
      rw [hstate]
      exact not_announced_issued
  · split
    · exact ensures_fail rfl
    · rename_i hstate _
      apply hclaim
      rw [hstate]
      exact not_announced_issued
  all_goals exact ensures_fail rfl

theorem Sound.claimCancellableAtSlot (slotIndex : Nat) (cause : TerminalCause) :
    Respects (claimCancellableAtSlot slotIndex cause) r fun _ => l := by
  rw [RequestRegistry.claimCancellableAtSlot]
  apply ensures_get_bind
  refine ensures_okOr_bind ?_ fun _ => rfl
  intro slot hslot
  split
  · split
    · exact ensures_pure h
    · refine (h.claimTerminal _ cause).bind ?_
      intro permit t ht
      exact ensures_pure ht
  · exact ensures_pure h

omit h in
theorem cancelTurn_ne_panic {ring : Nat} {selector : CancelSelector} {exclude : Option RequestId} (i : Nat)
    (slot : RequestSlot)
    (candidate : Option (Nat × RequestId)) : cancelTurn ring selector exclude i slot candidate ≠ .panic := by
  rw [cancelTurn]
  dsimp only
  split
  · simp
  · split
    · simp
    · split
      · simp
      · split <;> simp

omit h in
theorem providerTurn_ne_panic {ring : Nat} {selector : CancelSelector} {exclude : Option RequestId}
    {owned : RequestId → Bool} (i : Nat) (slot : RequestSlot) (candidate : Option (Nat × RequestId)) :
    providerTurn ring selector exclude owned i slot candidate ≠ .panic := by
  rw [providerTurn]
  dsimp only
  split
  · cases selector
    all_goals
      dsimp only
      split <;> simp
  · simp

theorem Sound.claimCancel (selector : CancelSelector) (exclude : Option RequestId) :
    Respects (claimCancel selector exclude) r fun _ => l := by
  rw [RequestRegistry.claimCancel]
  apply ensures_get_bind
  cases selector with
  | request id =>
      dsimp only
      split
      · exact ensures_fail rfl
      · exact ((h.claimTerminal id .cancelled).mono (fun _ _ ht => ht) (fun _ _ ht => ht) False.elim).mapErr
  | userData data | timeoutUserData data =>
      refine ensures_lift_bind ?_ (fun _ _ => rfl) fun hpanic => forEnum_ne_panic cancelTurn_ne_panic _ _ _ hpanic
      intro candidate _
      split
      · exact h.claimTerminal _ _
      · exact ensures_fail rfl

theorem Sound.beginProviderCancel (id : RequestId) : Respects (beginProviderCancel id) r fun _ => l := by
  rw [RequestRegistry.beginProviderCancel]
  apply ensures_get_bind
  apply ensures_entry_bind
  intro e he
  split
  · rename_i hstate
    apply h.restate he
    rw [hstate]
    exact not_announced_issued
  · rename_i hstate
    apply h.restate he
    rw [hstate]
    exact not_announced_issued
  · exact ensures_fail rfl

theorem Sound.selectProviderCancelCandidate (selector : CancelSelector) (exclude : Option RequestId)
    (owned : RequestId → Bool) : Respects (selectProviderCancelCandidate selector exclude owned) r fun _ => l := by
  rw [RequestRegistry.selectProviderCancelCandidate]
  apply ensures_get_bind
  refine ensures_lift_bind ?_ (fun _ _ => rfl) fun hpanic => forEnum_ne_panic providerTurn_ne_panic _ _ _ hpanic
  intro candidate _
  split
  · refine (h.beginProviderCancel _).bind ?_
    intro _ t ht
    exact ensures_pure ht
  · exact ensures_fail rfl

theorem Sound.finishProviderCancel (id : RequestId) (outcome : ProviderCancelOutcome)
    (hmore : ¬ MorePending r id) : Respects (finishProviderCancel id outcome) r fun _ => l := by
  rw [RequestRegistry.finishProviderCancel]
  apply ensures_get_bind
  apply ensures_entry_bind
  intro e he
  split
  · exact ensures_fail rfl
  · rename_i mode _ hstate
    split
    · refine (h.claimTerminalAfterNonterminalShot ⟨id, e.descriptor, mode⟩ .cancelled hmore).bind ?_
      intro permit t ht
      exact ensures_pure ht
    · exact h.setState he fun hin => absurd ⟨hin, e, mode, he, hstate⟩ hmore
  · exact ensures_fail rfl

theorem Sound.finishTerminal (permit : TerminalPermit) (result flags : BitVec 32) :
    Respects (finishTerminal permit result flags) r fun _ => l := by
  rw [RequestRegistry.finishTerminal]
  apply ensures_get_bind
  apply ensures_entry_bind
  intro e he
  split
  · exact ensures_fail rfl
  · rename_i hstate
    apply h.restate he
    rw [not_not.mp hstate]
    exact not_announced_claimed

theorem Sound.publish (token : CompletionToken) :
    Ensures (publish token) r (fun p t => Sound t l ∧ t.publicationInFlight = some p.id ∧ p.slot = t.cqSlot t.cqTail)
      (fun _ t => t = r) False := by
  have hcq := cqEntries_le h
  have hreaped := h.reaped
  have hroom := h.room
  rw [RequestRegistry.publish]
  apply ensures_get_bind
  refine (requirePublishing_ensures r).bind ?_
  rintro _ t ht
  rw [ht]
  split
  · exact ensures_fail rfl
  · rename_i hnone
    have hzero : r.inFlight = 0 := by
      rw [inFlight, Option.not_isSome_iff_eq_none.mp hnone]
      rfl
    apply ensures_entry_bind
    intro e he
    split
    · rename_i completion hstate
      rw [publishedCount_eq h]
      refine ensures_lift_bind ?_ nofun nofun
      rintro published ⟨⟩
      rw [checkedAddBits_eq (by omega)]
      refine ensures_okOr_bind ?_ nofun
      rintro used ⟨⟩
      split
      · exact ensures_fail rfl
      · rename_i hspace
        have hsound : Sound (r.setState token.id (.publishing completion)) l := by
          apply h.restate he
          rw [hstate]
          exact not_announced_pending
        refine ⟨⟨h.size, h.head, h.tail, h.reaped, ?_, h.reservations, h.marks, hsound.credits, h.bounded,
          hsound.slots, ?_⟩, rfl, rfl⟩
        · change l.log.length + 1 + r.nonterminalReservations ≤ l.reaped + r.cqEntries
          omega
        · rintro id ⟨⟩
          exact ⟨_, entry_setState_self he, .inl ⟨completion, rfl⟩⟩
    · exact ensures_fail rfl

theorem Sound.publishNonterminal (issued : IssuedRequest) (result flags : BitVec 32) :
    Ensures (publishNonterminal issued result flags) r
      (fun p t => Sound t l ∧ t.publicationInFlight = some p.id ∧ p.slot = t.cqSlot t.cqTail)
        (fun _ t => t = r) False := by
  have hroom := h.room
  rw [RequestRegistry.publishNonterminal]
  apply ensures_get_bind
  refine (requirePublishing_ensures r).bind ?_
  rintro _ t ht
  rw [ht]
  split
  · exact ensures_fail rfl
  · rename_i hfree
    rw [not_or, not_not] at hfree
    have hzero : r.inFlight = 0 := by
      rw [inFlight, Option.not_isSome_iff_eq_none.mp hfree.2]
      rfl
    have hone : r.nonterminalReservations = 1 := by
      rw [h.reservations, hfree.1]
      rfl
    apply ensures_entry_bind
    intro e he
    split
    · exact ensures_fail rfl
    · rename_i hstate
      rw [not_or, not_not, not_not] at hstate
      apply ensures_set_bind
      rw [hone, checkedSub_eq le_rfl]
      refine ensures_okOr_bind ?_ nofun
      rintro reservations ⟨⟩
      refine ⟨⟨h.size, h.head, h.tail, h.reaped, ?_, rfl, h.marks, h.credits, h.bounded, h.slots, ?_⟩, rfl, rfl⟩
      · change l.log.length + 1 + 0 ≤ l.reaped + r.cqEntries
        omega
      · rintro id ⟨⟩
        exact ⟨e, he, .inr ⟨_, hstate.2⟩⟩

theorem Sound.rollbackPublication (publication : CompletionPublication) :
    Respects (rollbackPublication publication) r fun _ => l := by
  have hroom := h.room
  rw [RequestRegistry.rollbackPublication]
  apply ensures_get_bind
  split
  · exact ensures_fail rfl
  · split
    · exact ensures_fail rfl
    · apply ensures_entry_bind
      intro e he
      split
      · exact ensures_fail rfl
      · exact h.abandon

theorem Sound.rollbackNonterminalPublication (publication : CompletionPublication) :
    Respects (rollbackNonterminalPublication publication) r fun _ => l := by
  rw [RequestRegistry.rollbackNonterminalPublication]
  apply ensures_get_bind
  split
  · exact ensures_fail rfl
  · apply ensures_entry_bind
    intro e he
    split
    · exact h.abandon
    · exact ensures_fail rfl

theorem retire_ensures {publication : CompletionPublication} (he : r.entry publication.id = .ok e) :
    Ensures (retire publication e) r (fun _ t => ∃ slots freeSlots, t =
      { r with slots := slots, freeSlots := freeSlots } ∧
      SlotsSound (shapes { r with slots := slots, freeSlots := freeSlots }) freeSlots l.issued ∧
      live { r with slots := slots, freeSlots := freeSlots } + [publication.terminal].count true = r.live)
      (fun _ t => t = r) False := by
  rw [retire]
  cases publication.terminal with
  | true =>
      rw [if_pos rfl]
      split
      · exact ensures_fail rfl
      · apply ensures_of_eq (clearSlot_eq h.slots he)
        exact ⟨_, _, rfl, slots_cleared h.slots he, live_cleared he⟩
  | false =>
      rw [if_neg nofun]
      split
      · rename_i mode _
        apply ensures_modify
        refine ⟨_, r.freeSlots, rfl, ?_, ?_⟩
        · change SlotsSound (r.setState publication.id (.issued mode)).shapes r.freeSlots l.issued
          rw [shapes_setState]
          exact h.slots
        · change (r.setState publication.id (.issued mode)).live + 0 = r.live
          rw [live, shapes_setState]
          rfl
      · exact ensures_fail rfl

theorem Sound.commitPublication (publication : CompletionPublication) :
    Ensures (commitPublication publication) r
      (fun _ t => Sound t { l with log := l.log ++ [publication.terminal] } ∧ r.publicationInFlight =
        some publication.id ∧ publication.slot = r.cqSlot r.cqTail) (fun _ t => t = r) False := by
  rw [RequestRegistry.commitPublication]
  apply ensures_get_bind
  split
  · exact ensures_fail rfl
  · rename_i hid
    split
    · exact ensures_fail rfl
    · rename_i hplan
      rw [not_or, not_not, not_not] at hplan
      rw [not_not] at hid
      apply ensures_entry_bind
      intro e he
      refine Ensures.bind (retire_ensures h he) ?_
      rintro _ t ⟨slots, freeSlots, rfl, hslots, hlive⟩
      exact (h.advance hid hplan.1 hplan.2 hslots hlive).imp (fun _ _ hsound => ⟨hsound, hid, hplan.1⟩) False.elim

end Calls

end TheKernel.IoUring.RequestRegistry
