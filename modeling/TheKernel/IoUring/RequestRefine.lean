import TheKernel.IoUring.RequestRun

namespace TheKernel.IoUring.RequestRegistry

open Outcome Act Board

variable {r t : RequestRegistry} {used : List RequestId} {id id' : RequestId} {e : RequestEntry} {state : EntryState}

def found (r : RequestRegistry) (id : RequestId) : Option RequestEntry :=
  match r.entry id with
  | .ok e => some e
  | _ => none

def board (r : RequestRegistry) (used : List RequestId) : Board :=
  ⟨r.found, r.publicationInFlight, r.nonterminalReservation, (r.cqSlot r.cqTail, r.cqTail + 1), used⟩

/-- What holds after any calls, also those that give up a plan that was not
committed. -/
structure Core (r : RequestRegistry) (used : List RequestId) : Prop where
  size : ∃ k, k ≤ 16 ∧ r.cqEntries = 2 ^ k
  marks : r.publishedTerminal.length = r.cqEntries
  reservations : r.nonterminalReservations = r.nonterminalReservation.toList.length
  credits : r.live + r.publishedTerminal.count true ≤ r.terminalCredits
  bounded : r.terminalCredits ≤ r.cqEntries
  slots : SlotsSound r.shapes r.freeSlots (used.map fun id => (id.slot, id.generation))
  ring : ∀ id ∈ used, id.ring = r.ring

/-- The call does what the board says, or fails and changes nothing. -/
def Refines {α : Type} (x : Call α) (op : Op) (response : α → Response) (r : RequestRegistry)
    (used : List RequestId) : Prop :=
  Ensures x r (fun a t => ∃ used', Core t used' ∧ (board r used).Step op (response a) (board t used'))
    (fun _ t => t = r) False

section Entries

theorem found_eq_some : r.found id = some e ↔ r.entry id = .ok e := by
  rw [found]
  constructor
  · intro h
    split at h
    · next he => rw [he, Option.some.inj h]
    · cases h
  · intro h
    rw [h]

theorem entry_congr {s : RequestRegistry} (hring : s.ring = r.ring)
    (hslot : s.slots[id.slot]? = r.slots[id.slot]?) : s.entry id = r.entry id := by
  rw [entry, entry, hring, hslot]

theorem found_setState (he : r.entry id = .ok e) :
    (r.setState id state).found = Function.update r.found id (some { e with state := state }) := by
  funext id'
  rw [Function.update_apply]
  split
  · next heq =>
      rw [heq]
      exact found_eq_some.mpr (entry_setState_self he)
  · next hne =>
      obtain ⟨hring, hslot⟩ := entry_eq_ok.mp he
      by_cases hid : id'.slot = id.slot
      · -- another generation of the slot is as unknown as before
        have hbefore : r.found id' = none := by
          rw [found]
          split
          · next e' he' => exact absurd (eq_of_slot he he' hid) hne
          · rfl
        rw [hbefore, found]
        split
        · next e' he' => exact absurd (eq_of_slot (entry_setState_self he) he' hid) hne
        · rfl
      · have hsame : (r.setState id state).entry id' = r.entry id' := by
          refine entry_congr rfl ?_
          simp [setState, Ne.symm hid]
        rw [found, found, hsame]

theorem found_cleared (he : r.entry id = .ok e) : (r.cleared id).found = Function.update r.found id none := by
  funext id'
  have hlt := slot_lt he
  have hgone : ∀ id' : RequestId, id'.slot = id.slot → (r.cleared id).found id' = none := by
    intro id' hid
    rw [found]
    split
    · next e' he' =>
        have hslot := (entry_eq_ok.mp he').2
        rw [hid, cleared, List.getElem?_set_self hlt] at hslot
        simp at hslot
    · rfl
  rw [Function.update_apply]
  split
  · next heq =>
      rw [heq]
      exact hgone id rfl
  · next hne =>
      by_cases hid : id'.slot = id.slot
      · rw [hgone id' hid, found]
        split
        · next e' he' => exact absurd (eq_of_slot he he' hid) hne
        · rfl
      · have hsame : (r.cleared id).entry id' = r.entry id' := by
          refine entry_congr rfl ?_
          rw [cleared, List.getElem?_set_ne (Ne.symm hid)]
        rw [found, found, hsame]

theorem found_vacant {generation : Option Nat} (hslot : r.slots[id.slot]? = some ⟨generation, none⟩) :
    r.found id = none := by
  rw [found]
  split
  · next e he =>
      have hslot' := (entry_eq_ok.mp he).2
      rw [hslot] at hslot'
      cases hslot'
  · rfl

theorem found_taken {descriptor : RequestDescriptor} {slotIndex g sequence : Nat}
    (hslot : r.slots[slotIndex]? = some ⟨some g, none⟩) :
    (r.taken descriptor slotIndex g sequence).found =
      Function.update r.found ⟨r.ring, slotIndex, g⟩ (some ⟨descriptor, sequence, .reserved⟩) := by
  funext id'
  have hlt : slotIndex < r.slots.length := (List.getElem?_eq_some_iff.mp hslot).1
  have hnew : (r.taken descriptor slotIndex g sequence).entry ⟨r.ring, slotIndex, g⟩ = .ok ⟨descriptor,
      sequence, .reserved⟩ :=
    entry_eq_ok.mpr ⟨rfl, List.getElem?_set_self hlt⟩
  rw [Function.update_apply]
  split
  · next heq =>
      rw [heq]
      exact found_eq_some.mpr hnew
  · next hne =>
      by_cases hid : id'.slot = slotIndex
      · have hbefore : r.found id' = none := found_vacant (hid ▸ hslot)
        rw [hbefore, found]
        split
        · next e' he' => exact absurd (eq_of_slot hnew he' hid) hne
        · rfl
      · have hsame : (r.taken descriptor slotIndex g sequence).entry id' = r.entry id' := by
          refine entry_congr rfl ?_
          rw [taken, List.getElem?_set_ne (Ne.symm hid)]
        rw [found, found, hsame]

theorem board_taken {descriptor : RequestDescriptor} {slotIndex g sequence : Nat}
    (hslot : r.slots[slotIndex]? = some ⟨some g, none⟩) :
    board (r.taken descriptor slotIndex g sequence) (⟨r.ring, slotIndex, g⟩ :: used) =
      { (board r used).put ⟨r.ring, slotIndex, g⟩ (some ⟨descriptor, sequence, .reserved⟩) with
        used := ⟨r.ring, slotIndex, g⟩ :: used } := by
  rw [board, found_taken hslot]
  rfl

theorem board_setState (he : r.entry id = .ok e) :
    board (r.setState id state) used = (board r used).restate id e state := by
  rw [board, found_setState he]
  rfl

theorem board_cleared (he : r.entry id = .ok e) : board (r.cleared id) used = (board r used).put id none := by
  rw [board, found_cleared he]
  rfl

end Entries

section Core

theorem Core.setState (h : Core r used) : Core (r.setState id state) used := by
  refine ⟨h.size, h.marks, h.reservations, ?_, h.bounded, ?_, h.ring⟩
  · rw [live, shapes_setState]
    exact h.credits
  · rw [shapes_setState]
    exact h.slots

theorem publishedCount_ne_panic : r.publishedCount ≠ .panic := by
  rw [publishedCount]
  split <;> simp

theorem Core.cqSlot_lt (h : Core r used) (counter : BitVec 32) : r.cqSlot counter < r.publishedTerminal.length := by
  obtain ⟨k, hle, hk⟩ := h.size
  have hpos : 0 < 2 ^ k := Nat.two_pow_pos k
  have hpow : 2 ^ k ≤ 2 ^ 16 := Nat.pow_le_pow_right (by omega) hle
  rw [h.marks, cqSlot, BitVec.toNat_and, BitVec.toNat_ofNat, Nat.mod_eq_of_lt (by omega)]
  refine lt_of_le_of_lt Nat.and_le_right ?_
  omega

theorem Core.cqEntries_le (h : Core r used) : r.cqEntries ≤ 65536 := by
  obtain ⟨k, hle, hk⟩ := h.size
  rw [hk]
  exact Nat.pow_le_pow_right (by omega) hle

theorem Core.discard (h : Core r used) (he : r.entry id = .ok e) :
    Ensures (clearSlot id >>= fun _ => refundCredits 1) r
      (fun _ t => Core t used ∧ board t used = (board r used).put id none) (fun _ t => t = r) False := by
  have hlive := live_cleared he
  have hcredits := h.credits
  have hpos : 1 ≤ (r.cleared id).terminalCredits := by
    change 1 ≤ r.terminalCredits
    omega
  apply ensures_bind_of_eq (clearSlot_eq h.slots he)
  apply ensures_of_eq (refundCredits_eq hpos)
  refine ⟨⟨h.size, h.marks, h.reservations, ?_, ?_, slots_cleared h.slots he, h.ring⟩, board_cleared he⟩
  · change (r.cleared id).live + r.publishedTerminal.count true ≤ r.terminalCredits - 1
    omega
  · exact (Nat.sub_le _ _).trans h.bounded

end Core

section Calls

variable (h : Core r used)

include h

/-- A call that changes one request's state, and returns. -/
theorem Core.restates {op : Op} {response : Response} (he : r.entry id = .ok e)
    (hstep : (board r used).Step op response ((board r used).restate id e state)) :
    ∃ used', Core (r.setState id state) used' ∧ (board r used).Step op response (board (r.setState id state) used') :=
  ⟨used, h.setState, board_setState he ▸ hstep⟩

theorem Core.reserve (descriptor : RequestDescriptor) : Refines (reserve descriptor)
    (.reserve descriptor) .reserved r used := by
  refine (reserve_ensures h.slots h.cqEntries_le).mono ?_ (fun _ _ ht => ht) id
  rintro _ _ ⟨slotIndex, g, sequence, rfl, hlast, hslot, hfull, _, rfl⟩
  have hslots : SlotsSound (r.taken descriptor slotIndex g sequence).shapes
      (r.taken descriptor slotIndex g sequence).freeSlots
      ((slotIndex, g) :: used.map fun id => (id.slot, id.generation)) := slots_taken h.slots hlast hslot
  have hcredits := h.credits
  have hfresh : (⟨r.ring, slotIndex, g⟩ : RequestId) ∉ used := by
    intro hmem
    have hnodup := hslots.once
    rw [List.nodup_cons] at hnodup
    exact hnodup.1 (List.mem_map.mpr ⟨_, hmem, rfl⟩)
  refine ⟨⟨r.ring, slotIndex, g⟩ :: used, ⟨h.size, h.marks, h.reservations, ?_, hfull, hslots, ?_⟩, ?_⟩
  · rw [live_taken hslot]
    change r.live + 1 + r.publishedTerminal.count true ≤ r.terminalCredits + 1
    omega
  · intro id hid
    rcases List.mem_cons.mp hid with rfl | hid
    · rfl
    · exact h.ring id hid
  · rw [board_taken hslot]
    exact .reserve hfresh (found_vacant hslot)

theorem Core.rollback (reservation : RequestReservation) :
    Refines (rollback reservation) (.rollback reservation) (fun _ => .done) r used := by
  rw [RequestRegistry.rollback]
  apply ensures_get_bind
  apply ensures_entry_bind
  intro e he
  split
  · exact ensures_fail rfl
  · rename_i hstate
    refine (h.discard he).mono ?_ (fun _ _ ht => ht) id
    rintro _ t ⟨hcore, hboard⟩
    exact ⟨used, hcore, hboard ▸ .rollback (found_eq_some.mpr he) (not_not.mp hstate)⟩

theorem Core.commit (reservation : RequestReservation) :
    Refines (commit reservation) (.commit reservation) .prepared r used := by
  rw [RequestRegistry.commit]
  apply ensures_get_bind
  apply ensures_entry_bind
  intro e he
  split
  · exact ensures_fail rfl
  · rename_i hstate
    exact h.restates he (.commit (found_eq_some.mpr he) (not_not.mp hstate))

theorem Core.issue (prepared : PreparedRequest) (overrideMode : Option CancellationMode) :
    Refines ((issueWithCancellationMode prepared overrideMode).mapErr (·.error)) (.issue prepared overrideMode)
      .issued r used := by
  refine Ensures.mapErr (q := fun _ t => t = r) ?_
  rw [RequestRegistry.issueWithCancellationMode]
  apply ensures_get_bind
  refine ensures_lift_bind ?_ (fun _ _ => rfl) ?_
  · intro e he
    rw [mapErr_eq_ok] at he
    split
    · rename_i hstate
      exact h.restates he (.issue (found_eq_some.mpr he) hstate)
    all_goals exact ensures_fail rfl
  · intro hpanic
    cases hentry : r.entry prepared.id with
    | ok e => simp [hentry, Outcome.mapErr] at hpanic
    | err e => simp [hentry, Outcome.mapErr] at hpanic
    | panic => exact entry_ne_panic hentry

theorem Core.beginSideEffect (issued : IssuedRequest) :
    Refines (beginSideEffect issued) (.beginSideEffect issued) (fun _ => .done) r used := by
  rw [RequestRegistry.beginSideEffect]
  refine (requireIssued_ensures issued _).bind ?_
  rintro _ t ⟨ht, e, he, hstate, _⟩
  rw [ht]
  apply ensures_modify
  exact h.restates he (.beginSideEffect (found_eq_some.mpr he) hstate)

theorem Core.beginNonterminalShot (issued : IssuedRequest) :
    Refines (beginNonterminalShot issued) (.beginNonterminalShot issued) (fun _ => .done) r used := by
  rw [RequestRegistry.beginNonterminalShot]
  apply ensures_get_bind
  split
  · exact ensures_fail rfl
  · rename_i hnone
    have hshot := Option.not_isSome_iff_eq_none.mp hnone
    have hzero : r.nonterminalReservations = 0 := by
      rw [h.reservations, hshot]
      rfl
    refine ensures_okOr_bind ?_ fun _ => rfl
    intro unpublished _
    refine ensures_okOr_bind ?_ fun _ => rfl
    intro other _
    refine ensures_lift_bind ?_ (fun _ _ => rfl) publishedCount_ne_panic
    intro published _
    refine ensures_okOr_bind ?_ fun _ => rfl
    intro used₁ _
    refine ensures_okOr_bind ?_ fun _ => rfl
    intro used₂ _
    split
    · exact ensures_fail rfl
    · refine (requireIssued_ensures issued _).bind ?_
      rintro _ t ⟨ht, e, he, hstate, _⟩
      rw [ht, hzero, checkedAddBits_eq (by omega)]
      apply ensures_modify_bind
      refine ensures_okOr_bind ?_ (by intros; contradiction)
      rintro reservations ⟨⟩
      have hcore : Core (r.setState issued.id (.shotInFlight issued.cancellationMode)) used := h.setState
      refine ⟨used, ⟨hcore.size, hcore.marks, rfl, hcore.credits, hcore.bounded, hcore.slots, hcore.ring⟩, ?_⟩
      have hboard : board (r.setState issued.id (.shotInFlight issued.cancellationMode)) used = _ := board_setState he
      have hstep := Step.beginNonterminalShot (b := board r used) (found_eq_some.mpr he) hstate hshot
      rw [← hboard] at hstep
      exact hstep

omit h in
/-- Whether or not the request holds the reservation, the call returns. -/
theorem Core.releaseReservation (h : Core t used) (id : RequestId) :
    Ensures (releaseReservation id) t (fun _ u => Core u used ∧ board u used = (board t used).unshot id)
      (fun _ _ => False) False := by
  rw [RequestRegistry.releaseReservation]
  apply ensures_get_bind
  split
  · rename_i hid
    have hone := h.reservations
    rw [hid] at hone
    apply ensures_modify_bind
    rw [checkedSub_eq (by rw [hone]; rfl)]
    refine ensures_okOr_bind ?_ (by intros; contradiction)
    rintro reservations ⟨⟩
    refine ⟨⟨h.size, h.marks, ?_, h.credits, h.bounded, h.slots, h.ring⟩, ?_⟩
    · change t.nonterminalReservations - 1 = 0
      rw [hone]
      rfl
    · rw [unshot]
      change _ = { board t used with
        shot := if t.nonterminalReservation = some id then none else t.nonterminalReservation }
      rw [if_pos hid]
      rfl
  · rename_i hid
    refine ensures_pure ⟨h, ?_⟩
    rw [unshot]
    change _ = { board t used with
      shot := if t.nonterminalReservation = some id then none else t.nonterminalReservation }
    rw [if_neg hid]
    rfl

theorem Core.abortNonterminalShot (issued : IssuedRequest) :
    Refines (abortNonterminalShot issued) (.abortNonterminalShot issued) (fun _ => .done) r used := by
  rw [RequestRegistry.abortNonterminalShot]
  refine (requireIssued_ensures issued _).bind ?_
  rintro _ t ⟨ht, e, he, hstate, _⟩
  rw [ht]
  apply ensures_modify_bind
  refine (h.setState.releaseReservation issued.id).imp ?_ False.elim
  rintro _ u ⟨hcore, hboard⟩
  refine ⟨used, hcore, ?_⟩
  rw [hboard, board_setState he]
  exact .abortNonterminalShot (found_eq_some.mpr he) hstate

/-- The common part of the two calls that turn a shot into a terminal claim. -/
theorem Core.claimAfterShot (issued : IssuedRequest) (cause : TerminalCause) :
    Ensures (claimTerminalAfterNonterminalShot issued cause) r (fun permit u => ∃ e, r.entry issued.id = .ok e ∧
      e.state = .shotInFlight issued.cancellationMode ∧ e.descriptor = issued.descriptor ∧
      permit = ⟨issued.id, e.descriptor, cause⟩ ∧ Core u used ∧
      board u used = ((board r used).restate issued.id e (.terminalClaimed cause)).unshot issued.id) (fun _ t =>
        t = r) False := by
  rw [RequestRegistry.claimTerminalAfterNonterminalShot]
  refine (requireIssued_ensures issued _).bind ?_
  rintro _ t ⟨ht, e, he, hstate, hdescriptor⟩
  rw [ht]
  apply ensures_modify_bind
  refine Ensures.bind ((h.setState.releaseReservation issued.id).imp (fun _ _ hu => hu) False.elim) ?_
  rintro _ u ⟨hcore, hboard⟩
  rw [board_setState he] at hboard
  exact ensures_pure ⟨e, he, hstate, hdescriptor, by rw [hdescriptor], hcore, hboard⟩

theorem Core.claimTerminalAfterNonterminalShot (issued : IssuedRequest) (cause : TerminalCause) :
    Refines (claimTerminalAfterNonterminalShot issued cause) (.claimTerminalAfterNonterminalShot issued cause)
      .permitted r used := by
  refine (h.claimAfterShot issued cause).mono ?_ (fun _ _ ht => ht) id
  rintro _ u ⟨e, he, hstate, hdescriptor, rfl, hcore, hboard⟩
  exact ⟨used, hcore, hboard ▸ .claimTerminalAfterNonterminalShot (found_eq_some.mpr he) hstate hdescriptor⟩

omit h in
/-- What `claim_terminal` does, for the calls that end in it. -/
theorem claimTerminal_ensures (id : RequestId) (cause : TerminalCause) :
    Ensures (claimTerminal id cause) r (fun permit t => ∃ e, r.entry id = .ok e ∧ Claims cause e.state ∧
      permit = ⟨id, e.descriptor, cause⟩ ∧ t = r.setState id (.terminalClaimed cause)) (fun _ t => t = r) False := by
  rw [RequestRegistry.claimTerminal]
  apply ensures_get_bind
  apply ensures_entry_bind
  intro e he
  dsimp only
  split
  · rename_i hstate
    exact ⟨e, he, .inl hstate, rfl, rfl⟩
  · rename_i hstate
    exact ⟨e, he, .inr ⟨_, hstate, .inl rfl⟩, rfl, rfl⟩
  · split
    · exact ensures_fail rfl
    · rename_i hstate hcause
      exact ⟨e, he, .inr ⟨_, hstate, .inr (not_not.mp hcause)⟩, rfl, rfl⟩
  · split
    · exact ensures_fail rfl
    · rename_i hstate hcause
      exact ⟨e, he, .inr ⟨_, hstate, .inr (not_not.mp hcause)⟩, rfl, rfl⟩
  all_goals exact ensures_fail rfl

theorem Core.claimTerminal (id : RequestId) (cause : TerminalCause) :
    Refines (claimTerminal id cause) (.claimTerminal id cause) .permitted r used := by
  refine (claimTerminal_ensures id cause).mono ?_ (fun _ _ ht => ht) False.elim
  rintro _ _ ⟨e, he, hclaims, rfl, rfl⟩
  exact h.restates he (.claimTerminal (found_eq_some.mpr he) hclaims)

theorem Core.claimCancellableAtSlot (slotIndex : Nat) (cause : TerminalCause) :
    Refines (claimCancellableAtSlot slotIndex cause) (.claimCancellableAtSlot slotIndex cause) .ofPermit r used := by
  rw [RequestRegistry.claimCancellableAtSlot]
  apply ensures_get_bind
  refine ensures_okOr_bind ?_ fun _ => rfl
  intro slot hslot
  split
  · rename_i entry generation hentry hgeneration
    split
    · exact ensures_pure ⟨used, h, .skipSlot⟩
    · rename_i hstate
      refine (claimTerminal_ensures _ cause).bind ?_
      rintro _ _ ⟨e, he, hclaims, rfl, rfl⟩
      have hsame : e = entry := by
        have hslot' := (entry_eq_ok.mp he).2
        rw [hslot, Option.some.injEq] at hslot'
        rw [hslot'] at hentry
        exact Option.some.inj hentry
      rw [hsame] at he ⊢
      exact ensures_pure (h.restates he (.claimCancellableAtSlot (found_eq_some.mpr he) (not_not.mp hstate)))
  · exact ensures_pure ⟨used, h, .skipSlot⟩

theorem Core.claimCancel (selector : CancelSelector) (exclude : Option RequestId) :
    Refines (claimCancel selector exclude) (.claimCancel selector exclude) .permitted r used := by
  have hclaim : ∀ id, (∀ id', selector = .request id' → id' = id) →
      Refines (RequestRegistry.claimTerminal id .cancelled) (.claimCancel selector exclude) .permitted r used := by
    intro id hnamed
    refine (claimTerminal_ensures id .cancelled).mono ?_ (fun _ _ ht => ht) False.elim
    rintro _ _ ⟨e, he, hclaims, rfl, rfl⟩
    exact h.restates he (.claimCancel (found_eq_some.mpr he) hclaims hnamed)
  rw [RequestRegistry.claimCancel]
  apply ensures_get_bind
  cases selector with
  | request id =>
      dsimp only
      split
      · exact ensures_fail rfl
      · refine Ensures.mapErr (q := fun _ t => t = r) (hclaim id ?_)
        rintro _ ⟨⟩
        rfl
  | userData data | timeoutUserData data =>
      refine ensures_lift_bind ?_ (fun _ _ => rfl) fun hpanic => forEnum_ne_panic cancelTurn_ne_panic _ _ _ hpanic
      intro candidate _
      split
      · refine hclaim _ fun id' heq => ?_
        cases heq
      · exact ensures_fail rfl

omit h in
theorem beginProviderCancel_ensures (id : RequestId) :
    Ensures (beginProviderCancel id) r (fun _ t => ∃ e mode, r.entry id = .ok e ∧ e.state = .issued mode ∧
      t = r.setState id (.shotInFlight mode)) (fun _ t => t = r) False := by
  rw [RequestRegistry.beginProviderCancel]
  apply ensures_get_bind
  apply ensures_entry_bind
  intro e he
  split
  · rename_i hstate
    exact ⟨e, _, he, hstate, rfl⟩
  · rename_i hstate
    exact ⟨e, _, he, hstate, rfl⟩
  · exact ensures_fail rfl

theorem Core.beginProviderCancel (id : RequestId) :
    Refines (beginProviderCancel id) (.beginProviderCancel id) (fun _ => .done) r used := by
  refine (beginProviderCancel_ensures id).mono ?_ (fun _ _ ht => ht) False.elim
  rintro _ _ ⟨e, mode, he, hstate, rfl⟩
  exact h.restates he (.beginProviderCancel (found_eq_some.mpr he) hstate)

end Calls

/-- The candidate of the loop is what the selector names. -/
theorem providerTurn_named {ring : Nat} {expected : RequestId} {exclude : Option RequestId} {owned : RequestId → Bool}
    {slots : List RequestSlot} {i : Nat} {candidate candidate' : Option (Nat × RequestId)}
    (hold : ∀ c, candidate = some c → c.2 = expected)
    (h : forEnum (providerTurn ring (.request expected) exclude owned) i slots candidate = .ok candidate') :
    ∀ c, candidate' = some c → c.2 = expected := by
  induction slots generalizing i candidate with
  | nil =>
      cases h
      exact hold
  | cons slot slots ih =>
      rw [forEnum_cons] at h
      obtain ⟨next, hturn, hrest⟩ := Outcome.bind_eq_ok.mp h
      refine ih ?_ hrest
      rw [providerTurn] at hturn
      dsimp only at hturn
      split at hturn
      · split at hturn
        · rename_i hnamed
          have hid := of_decide_eq_true hnamed.2.1
          cases hturn
          intro c hc
          unfold older at hc
          split at hc
          · split at hc
            · cases hc
              exact hid
            · exact hold c hc
          · cases hc
            exact hid
        · cases hturn
          exact hold
      · cases hturn
        exact hold

section Calls

variable (h : Core r used)

include h

theorem Core.selectProviderCancelCandidate (selector : CancelSelector) (exclude : Option RequestId)
    (owned : RequestId → Bool) :
    Refines (selectProviderCancelCandidate selector exclude owned)
      (.selectProviderCancelCandidate selector exclude owned) .selected r used := by
  rw [RequestRegistry.selectProviderCancelCandidate]
  apply ensures_get_bind
  refine ensures_lift_bind ?_ (fun _ _ => rfl) fun hpanic => forEnum_ne_panic providerTurn_ne_panic _ _ _ hpanic
  intro candidate hloop
  split
  · rename_i id
    refine (beginProviderCancel_ensures id).bind ?_
    rintro _ _ ⟨e, mode, he, hstate, rfl⟩
    refine ensures_pure (h.restates he (.selectProviderCancelCandidate (found_eq_some.mpr he) hstate ?_))
    rintro expected rfl
    have hstart : ∀ c : Nat × RequestId, none = some c → c.2 = expected := by
      intro c hc
      cases hc
    exact (providerTurn_named hstart hloop _ rfl).symm
  · exact ensures_fail rfl

theorem Core.finishProviderCancel (id : RequestId) (outcome : ProviderCancelOutcome) :
    Refines (finishProviderCancel id outcome) (.finishProviderCancel id outcome) .ofPermit r used := by
  rw [RequestRegistry.finishProviderCancel]
  apply ensures_get_bind
  apply ensures_entry_bind
  intro e he
  split
  · exact ensures_fail rfl
  · rename_i mode _ hstate
    split
    · refine (h.claimAfterShot ⟨id, e.descriptor, mode⟩ .cancelled).bind ?_
      rintro _ u ⟨e', he', hstate', _, rfl, hcore, hboard⟩
      exact ensures_pure ⟨used, hcore, hboard ▸ .providerCancelled (found_eq_some.mpr he') hstate'⟩
    · exact h.restates he (.providerInFlight (found_eq_some.mpr he) hstate)
  · exact ensures_fail rfl

theorem Core.finishTerminal (permit : TerminalPermit) (result flags : BitVec 32) :
    Refines (finishTerminal permit result flags) (.finishTerminal permit result flags) .completed r used := by
  rw [RequestRegistry.finishTerminal]
  apply ensures_get_bind
  apply ensures_entry_bind
  intro e he
  split
  · exact ensures_fail rfl
  · rename_i hstate
    exact h.restates he (.finishTerminal (found_eq_some.mpr he) (not_not.mp hstate))

theorem Core.publish (token : CompletionToken) : Refines (publish token) (.publish token) .planned r used := by
  rw [RequestRegistry.publish]
  apply ensures_get_bind
  refine (requirePublishing_ensures r).bind ?_
  rintro _ t ht
  rw [ht]
  split
  · exact ensures_fail rfl
  · rename_i hnone
    apply ensures_entry_bind
    intro e he
    split
    · rename_i completion hstate
      refine ensures_lift_bind ?_ (fun _ _ => rfl) publishedCount_ne_panic
      intro published _
      refine ensures_okOr_bind ?_ fun _ => rfl
      intro _ _
      split
      · exact ensures_fail rfl
      · have hcore : Core (r.setState token.id (.publishing completion)) used := h.setState
        refine ⟨used, ⟨hcore.size, hcore.marks, hcore.reservations, hcore.credits, hcore.bounded, hcore.slots,
          hcore.ring⟩, ?_⟩
        have hboard : board (r.setState token.id (.publishing completion)) used = _ := board_setState he
        have hstep := Step.publish (b := board r used) (found_eq_some.mpr he) hstate
            (Option.not_isSome_iff_eq_none.mp hnone)
        rw [← hboard] at hstep
        exact hstep
    · exact ensures_fail rfl

theorem Core.publishNonterminal (issued : IssuedRequest) (result flags : BitVec 32) :
    Refines (publishNonterminal issued result flags) (.publishNonterminal issued result flags) .planned r used := by
  rw [RequestRegistry.publishNonterminal]
  apply ensures_get_bind
  refine (requirePublishing_ensures r).bind ?_
  rintro _ t ht
  rw [ht]
  split
  · exact ensures_fail rfl
  · rename_i hfree
    rw [not_or, not_not] at hfree
    have hone : r.nonterminalReservations = 1 := by
      rw [h.reservations, hfree.1]
      rfl
    apply ensures_entry_bind
    intro e he
    split
    · exact ensures_fail rfl
    · rename_i hstate
      rw [not_or, not_not, not_not] at hstate
      apply ensures_set_bind
      rw [hone, checkedSub_eq le_rfl]
      refine ensures_okOr_bind ?_ (by intros; contradiction)
      rintro reservations ⟨⟩
      refine ⟨used, ⟨h.size, h.marks, rfl, h.credits, h.bounded, h.slots, h.ring⟩, ?_⟩
      exact .publishNonterminal (found_eq_some.mpr he) hstate.2 hfree.1 (Option.not_isSome_iff_eq_none.mp hfree.2)

theorem Core.rollbackPublication (publication : CompletionPublication) :
    Refines (rollbackPublication publication) (.rollbackPublication publication) .completed r used := by
  rw [RequestRegistry.rollbackPublication]
  apply ensures_get_bind
  split
  · exact ensures_fail rfl
  · rename_i hplanned
    split
    · exact ensures_fail rfl
    · apply ensures_entry_bind
      intro e he
      split
      · exact ensures_fail rfl
      · rename_i hstate
        have hcore : Core (r.setState publication.id (.completionPending publication.completion)) used := h.setState
        refine ⟨used, ⟨hcore.size, hcore.marks, hcore.reservations, hcore.credits, hcore.bounded, hcore.slots,
          hcore.ring⟩, ?_⟩
        have hboard : board (r.setState publication.id (.completionPending publication.completion)) used = _ :=
          board_setState he
        have hstep := Step.rollbackPublication (b := board r used) (found_eq_some.mpr he) (not_not.mp hstate)
          (not_not.mp hplanned)
        rw [← hboard] at hstep
        exact hstep

theorem Core.rollbackNonterminalPublication (publication : CompletionPublication) :
    Refines (rollbackNonterminalPublication publication) (.rollbackNonterminalPublication publication)
      (fun _ => .done) r used := by
  rw [RequestRegistry.rollbackNonterminalPublication]
  apply ensures_get_bind
  split
  · exact ensures_fail rfl
  · rename_i hplanned
    rw [not_or, not_not] at hplanned
    apply ensures_entry_bind
    intro e he
    split
    · rename_i mode hstate
      have hcore : Core (r.setState publication.id (.issued mode)) used := h.setState
      refine ⟨used, ⟨hcore.size, hcore.marks, hcore.reservations, hcore.credits, hcore.bounded, hcore.slots,
        hcore.ring⟩, ?_⟩
      have hboard : board (r.setState publication.id (.issued mode)) used = _ := board_setState he
      have hstep := Step.rollbackNonterminalPublication (b := board r used) (found_eq_some.mpr he) hstate hplanned.2
      rw [← hboard] at hstep
      exact hstep
    · exact ensures_fail rfl

omit h in
theorem count_set_le (marks : List Bool) (i : Nat) (b : Bool) :
    (marks.set i b).count true ≤ marks.count true + [b].count true := by
  induction marks generalizing i with
  | nil => simp
  | cons mark marks ih =>
      cases i with
      | zero => simp only [List.set_cons_zero, List.count_cons, List.count_nil]; omega
      | succ i =>
          have := ih i
          simp only [List.set_cons_succ, List.count_cons, List.count_nil] at this ⊢
          omega

omit h in
/-- The tail moves over a publication whose request was dealt with. -/
theorem Core.advance {publication : CompletionPublication} {u : RequestRegistry} (hu : Core u used)
    (hslot : publication.slot = u.cqSlot u.cqTail)
    (hlive : u.live + [publication.terminal].count true + u.publishedTerminal.count true ≤ u.terminalCredits) :
    ∃ t, advance publication u = (.ok (), t) ∧ Core t used ∧ t.publicationInFlight = none ∧
      board t used = { board u used with
        planned := none, next := (u.cqSlot publication.newTail, publication.newTail + 1) } := by
  have hmark : ¬ u.publishedTerminal.length ≤ publication.slot := by
    rw [hslot, Nat.not_le]
    exact hu.cqSlot_lt _
  refine ⟨{ u with
    publishedTerminal := u.publishedTerminal.set publication.slot publication.terminal
    cqTail := publication.newTail
    publicationInFlight := none }, ?_, ⟨hu.size, ?_, hu.reservations, ?_, hu.bounded, hu.slots, hu.ring⟩, rfl, rfl⟩
  · rw [RequestRegistry.advance, get_bind, if_neg hmark]
    rfl
  · rw [List.length_set]
    exact hu.marks
  · have hcount := count_set_le u.publishedTerminal publication.slot publication.terminal
    change u.live + (u.publishedTerminal.set publication.slot publication.terminal).count true ≤ u.terminalCredits
    omega

theorem Core.settleTerminal {publication : CompletionPublication} (he : r.entry publication.id = .ok e)
    (hslot : publication.slot = r.cqSlot r.cqTail) (hterminal : publication.terminal = true)
    (hstate : e.state = .publishing publication.completion) :
    ∃ t, (retire publication e >>= fun _ => RequestRegistry.advance publication) r = (.ok (), t) ∧ Core t used ∧
      t.publicationInFlight = none ∧ board t used = { (board r used).put publication.id none with
        planned := none, next := (r.cqSlot publication.newTail, publication.newTail + 1) } := by
  have hcredits := h.credits
  have hlive := live_cleared he
  have hu : Core (r.cleared publication.id) used := by
    refine ⟨h.size, h.marks, h.reservations, ?_, h.bounded, slots_cleared h.slots he, h.ring⟩
    change (r.cleared publication.id).live + r.publishedTerminal.count true ≤ r.terminalCredits
    omega
  have hroom : (r.cleared publication.id).live + [publication.terminal].count true + r.publishedTerminal.count true ≤
      r.terminalCredits := by
    rw [hterminal]
    simp only [List.count_cons_self, List.count_nil]
    omega
  obtain ⟨t, hadvance, hcore, hnone, hboard⟩ := hu.advance hslot hroom
  refine ⟨t, ?_, hcore, hnone, ?_⟩
  · rw [retire, if_pos hterminal, if_neg (not_not.mpr hstate), bind_apply, clearSlot_eq h.slots he]
    exact hadvance
  · rw [hboard, board_cleared he]
    rfl

theorem Core.settleShot {publication : CompletionPublication} {mode : CancellationMode}
    (he : r.entry publication.id = .ok e)
    (hslot : publication.slot = r.cqSlot r.cqTail) (hterminal : publication.terminal = false)
    (hstate : e.state = .shotInFlight mode) :
    ∃ t, (retire publication e >>= fun _ => RequestRegistry.advance publication) r = (.ok (), t) ∧ Core t used ∧
      t.publicationInFlight = none ∧ board t used = { (board r used).restate publication.id e (.issued mode) with
        planned := none, next := (r.cqSlot publication.newTail, publication.newTail + 1) } := by
  have hu : Core (r.setState publication.id (.issued mode)) used := h.setState
  have hroom : (r.setState publication.id (.issued mode)).live + [publication.terminal].count true +
      r.publishedTerminal.count true ≤ r.terminalCredits := by
    rw [hterminal]
    exact hu.credits
  obtain ⟨t, hadvance, hcore, hnone, hboard⟩ := hu.advance hslot hroom
  refine ⟨t, ?_, hcore, hnone, ?_⟩
  · rw [retire, if_neg (by rw [hterminal]; exact Bool.false_ne_true), hstate]
    exact hadvance
  · rw [hboard, board_setState he]
    rfl

theorem Core.commitPublication (publication : CompletionPublication) :
    Refines (commitPublication publication) (.commitPublication publication) (fun _ => .published publication)
      r used := by
  rw [RequestRegistry.commitPublication]
  apply ensures_get_bind
  split
  · exact ensures_fail rfl
  · rename_i hid
    rw [not_not] at hid
    split
    · exact ensures_fail rfl
    · rename_i hplan
      rw [not_or, not_not, not_not] at hplan
      apply ensures_entry_bind
      intro e he
      cases hterminal : publication.terminal with
      | true =>
          by_cases hstate : e.state = .publishing publication.completion
          · obtain ⟨t, heq, hcore, -, hboard⟩ := h.settleTerminal he hplan.1 hterminal hstate
            apply ensures_of_eq heq
            exact ⟨used, hcore, hboard ▸ .commitTerminal (found_eq_some.mpr he) hstate hid hterminal⟩
          · rw [retire, if_pos hterminal, if_pos hstate]
            exact rfl
      | false =>
          cases hstate : e.state with
          | shotInFlight mode =>
              obtain ⟨t, heq, hcore, -, hboard⟩ := h.settleShot he hplan.1 hterminal hstate
              apply ensures_of_eq heq
              exact ⟨used, hcore, hboard ▸ .commitNonterminal (found_eq_some.mpr he) hstate hid hterminal⟩
          | reserved | prepared | issued | terminalClaimed | completionPending | publishing =>
              rw [retire, if_neg (by rw [hterminal]; exact Bool.false_ne_true), hstate]
              exact rfl

theorem Core.discardCompletion (token : CompletionToken) :
    Refines (discardCompletion token) (.discardCompletion token) (fun _ => .done) r used := by
  rw [RequestRegistry.discardCompletion]
  apply ensures_get_bind
  split
  · exact ensures_fail rfl
  · apply ensures_entry_bind
    intro e he
    split
    · exact ensures_fail rfl
    · rename_i hpending
      rw [not_not] at hpending
      obtain ⟨completion, hstate⟩ : ∃ completion, e.state = .completionPending completion := by
        cases hstate : e.state with
        | completionPending completion => exact ⟨completion, rfl⟩
        | reserved | prepared | issued | shotInFlight | terminalClaimed | publishing =>
            simp [hstate, isCompletionPending] at hpending
      refine (h.discard he).mono ?_ (fun _ _ ht => ht) id
      rintro _ t ⟨hcore, hboard⟩
      exact ⟨used, hcore, hboard ▸ .discardCompletion (found_eq_some.mpr he) hstate⟩

theorem Core.reap (n : Nat) :
    Ensures ((List.range n).foldlM reapTurn 0) r (fun terminal t => ∃ marks, t = { r with publishedTerminal := marks } ∧
      marks.length = r.cqEntries ∧ terminal + marks.count true = r.publishedTerminal.count true) (fun _ _ =>
        False) False := by
  have hcq := h.cqEntries_le
  have hcount : r.publishedTerminal.count true ≤ r.cqEntries := h.marks ▸ List.count_le_length
  refine ensures_foldlM (I := fun _ terminal t => ∃ marks, t = { r with publishedTerminal := marks } ∧
    marks.length = r.cqEntries ∧ terminal + marks.count true = r.publishedTerminal.count true)
    (List.range n) ⟨r.publishedTerminal, rfl, h.marks, Nat.zero_add _⟩ ?_
  rintro done y terminal t _ ⟨marks, rfl, hlength, hterminal⟩
  have hlt : cqSlot { r with publishedTerminal := marks } (r.cqHead + BitVec.ofNat 32 y) < marks.length :=
    lt_of_lt_of_eq (h.cqSlot_lt (r.cqHead + BitVec.ofNat 32 y)) (h.marks.trans hlength.symm)
  rw [reapTurn]
  apply ensures_get_bind
  refine ensures_okOr_bind ?_ fun hnone => by rw [List.getElem?_eq_getElem hlt] at hnone; cases hnone
  intro mark hmark
  obtain ⟨_, hget⟩ := List.getElem?_eq_some_iff.mp hmark
  refine (countMark_ensures (by omega)).bind ?_
  rintro _ t ⟨rfl, rfl⟩
  apply ensures_modify_bind
  apply ensures_pure
  refine ⟨_, rfl, by rw [List.length_set]; exact hlength, ?_⟩
  have hset := List.count_set hlt (a := false) (b := true)
  rw [hget] at hset
  cases mark with
  | false =>
      simp only [Bool.false_eq_true, beq_true, if_false, Nat.sub_zero, Nat.add_zero] at hset
      rw [hset]
      exact hterminal
  | true =>
      have hpos : 0 < marks.count true := List.count_pos_iff.mpr (hget ▸ List.getElem_mem hlt)
      simp only [beq_true, Bool.false_eq_true, if_false, if_true, Nat.add_zero] at hset
      rw [hset]
      simp only [List.count_cons_self, List.count_nil]
      omega

/-- The head moves, and the credits of the marks that were cleared are refunded. -/
theorem Core.pass (n : Nat) (head : RequestRegistry → BitVec 32) :
    Ensures (do
      let terminal ← (List.range n).foldlM reapTurn 0
      Act.modify fun r => { r with cqHead := head r }
      refundCredits terminal
      pure n) r (fun _ t => Core t used ∧ board t used = board r used) (fun _ _ => False) False := by
  have hcredits := h.credits
  refine (h.reap n).bind ?_
  rintro terminal t ⟨marks, rfl, hlength, hterminal⟩
  apply ensures_modify_bind
  apply ensures_bind_of_eq (refundCredits_eq (by change terminal ≤ r.terminalCredits; omega))
  refine ensures_pure ⟨⟨h.size, hlength, h.reservations, ?_, (Nat.sub_le _ _).trans h.bounded, h.slots, h.ring⟩, rfl⟩
  change r.live + marks.count true ≤ r.terminalCredits - terminal
  omega

theorem Core.observeCompletionHead (userHead : BitVec 32) :
    Refines (observeCompletionHead userHead) (.observeCompletionHead userHead) .passed r used := by
  rw [RequestRegistry.observeCompletionHead]
  apply ensures_get_bind
  split
  · exact ensures_fail rfl
  · refine ensures_lift_bind ?_ (fun _ _ => rfl) publishedCount_ne_panic
    intro published _
    split
    · exact ensures_fail rfl
    · refine (h.pass _ fun _ => userHead).imp ?_ False.elim
      rintro _ t ⟨hcore, hboard⟩
      exact ⟨used, hcore, hboard ▸ .passed trivial⟩

theorem Core.discardPublished : Refines discardPublished .discardPublished .passed r used := by
  rw [RequestRegistry.discardPublished]
  apply ensures_get_bind
  split
  · exact ensures_fail rfl
  · split
    · exact ensures_fail rfl
    · refine ensures_lift_bind ?_ (fun _ _ => rfl) publishedCount_ne_panic
      intro published _
      refine (h.pass _ fun r => r.cqTail).imp ?_ False.elim
      rintro _ t ⟨hcore, hboard⟩
      exact ⟨used, hcore, hboard ▸ .passed trivial⟩

theorem Core.withLifecycle (lifecycle : RequestLifecycle) : Core { r with lifecycle := lifecycle } used :=
  ⟨h.size, h.marks, h.reservations, h.credits, h.bounded, h.slots, h.ring⟩

/-- The calls that report progress: they change the lifecycle first, also when
the counts are out of range and the report fails. -/
theorem Core.progress {s : RequestRegistry} (hs : s = r ∨ ∃ lifecycle, s = { r with lifecycle := lifecycle }) :
    Ensures progress s (fun _ t => Core t used ∧ board t used = board r used)
      (fun _ t => Core t used ∧ board t used = board r used) False := by
  have hsame : Core s used ∧ board s used = board r used := by
    rcases hs with rfl | ⟨lifecycle, rfl⟩
    · exact ⟨h, rfl⟩
    · exact ⟨h.withLifecycle lifecycle, rfl⟩
  rw [RequestRegistry.progress]
  apply ensures_get_bind
  refine ensures_lift_bind ?_ (fun _ _ => hsame) publishedCount_ne_panic
  intro published _
  exact ensures_pure hsame

theorem Core.beginClose : Ensures beginClose r (fun _ t => Core t used ∧ board t used = board r used)
    (fun _ t => Core t used ∧ board t used = board r used) False := by
  rw [RequestRegistry.beginClose]
  apply ensures_modify_bind
  split
  · exact h.progress (.inr ⟨_, rfl⟩)
  · exact h.progress (.inl rfl)

theorem Core.beginDraining : Ensures beginDraining r (fun _ t => Core t used ∧ board t used = board r used)
    (fun _ t => Core t used ∧ board t used = board r used) False := by
  rw [RequestRegistry.beginDraining]
  apply ensures_get_bind
  split
  · exact h.progress (.inl rfl)
  · split
    · exact ensures_fail ⟨h, rfl⟩
    · split
      · exact ensures_fail ⟨h, rfl⟩
      · apply ensures_modify_bind
        exact h.progress (.inr ⟨_, rfl⟩)

theorem Core.finishClose : Refines finishClose .finishClose (fun _ => .done) r used := by
  rw [RequestRegistry.finishClose]
  apply ensures_get_bind
  split
  · exact ensures_fail rfl
  · exact ensures_pure ⟨used, h, .idle trivial⟩
  all_goals
    split
    · exact ensures_fail rfl
    · exact ensures_modify ⟨used, h.withLifecycle .closed, .idle trivial⟩

end Calls

/-- The calls that carry no token may change the lifecycle when they fail. -/
def Failed (r : RequestRegistry) (used : List RequestId) (op : Op) (t : RequestRegistry) : Prop :=
  t = r ∨ op.Idle ∧ Core t used ∧ board t used = board r used

theorem Refines.responds {α : Type} {x : Call α} {op : Op} {response : α → Response}
    (h : Refines x op response r used) : Ensures (x >>= fun a => pure (response a)) r
      (fun response t => ∃ used', Core t used' ∧ (board r used).Step op response (board t used'))
        (fun _ t => Failed r used op t) False := by
  refine (h.mono (fun _ _ ht => ht) (fun _ _ ht => .inl ht) id).bind ?_
  intro a t ht
  exact ensures_pure ht

theorem responds_of_same {α : Type} {x : Call α} {op : Op} (hidle : op.Idle)
    (h : Ensures x r (fun _ t => Core t used ∧ board t used = board r used)
      (fun _ t => Core t used ∧ board t used = board r used) False) :
    Ensures (x >>= fun _ => pure Response.done) r
      (fun response t => ∃ used', Core t used' ∧ (board r used).Step op response (board t used'))
        (fun _ t => Failed r used op t) False := by
  refine (h.mono (fun _ _ ht => ht) (fun _ _ ht => .inr ⟨hidle, ht⟩) id).bind ?_
  rintro a t ⟨hcore, hboard⟩
  exact ensures_pure ⟨used, hcore, hboard ▸ .idle hidle⟩

theorem Core.respond (h : Core r used) (op : Op) :
    Ensures (respond op) r (fun response t => ∃ used', Core t used' ∧ (board r used).Step op response (board t used'))
      (fun _ t => Failed r used op t) False := by
  cases op with
  | reserve descriptor => exact (h.reserve descriptor).responds
  | rollback reservation => exact (h.rollback reservation).responds
  | commit reservation => exact (h.commit reservation).responds
  | issue prepared overrideMode => exact (h.issue prepared overrideMode).responds
  | beginNonterminalShot issued => exact (h.beginNonterminalShot issued).responds
  | beginSideEffect issued => exact (h.beginSideEffect issued).responds
  | abortNonterminalShot issued => exact (h.abortNonterminalShot issued).responds
  | claimTerminalAfterNonterminalShot issued cause => exact (h.claimTerminalAfterNonterminalShot issued cause).responds
  | claimCancellableAtSlot slotIndex cause => exact (h.claimCancellableAtSlot slotIndex cause).responds
  | claimTerminal id cause => exact (h.claimTerminal id cause).responds
  | claimCancel selector exclude => exact (h.claimCancel selector exclude).responds
  | selectProviderCancelCandidate selector exclude owned =>
      exact (h.selectProviderCancelCandidate selector exclude owned).responds
  | beginProviderCancel id => exact (h.beginProviderCancel id).responds
  | finishProviderCancel id outcome => exact (h.finishProviderCancel id outcome).responds
  | finishTerminal permit result flags => exact (h.finishTerminal permit result flags).responds
  | publish token => exact (h.publish token).responds
  | publishNonterminal issued result flags => exact (h.publishNonterminal issued result flags).responds
  | commitPublication publication => exact (h.commitPublication publication).responds
  | rollbackPublication publication => exact (h.rollbackPublication publication).responds
  | rollbackNonterminalPublication publication => exact (h.rollbackNonterminalPublication publication).responds
  | observeCompletionHead userHead => exact (h.observeCompletionHead userHead).responds
  | beginClose => exact responds_of_same trivial h.beginClose
  | beginDraining => exact responds_of_same trivial h.beginDraining
  | discardCompletion token => exact (h.discardCompletion token).responds
  | discardPublished => exact h.discardPublished.responds
  | finishClose => exact h.finishClose.responds
  | progress => exact responds_of_same trivial (h.progress (.inl rfl))

theorem core_initial {ring capacity cqEntries : Nat} (h : new ring capacity cqEntries = .ok r) : Core r [] := by
  have hs := (Reached.start h).sound
  refine ⟨hs.size, hs.marks.length, hs.reservations, ?_, hs.bounded, hs.slots, nofun⟩
  rw [hs.marks.count]
  exact hs.credits.ge

end TheKernel.IoUring.RequestRegistry
