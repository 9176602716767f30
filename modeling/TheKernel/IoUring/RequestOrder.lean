import TheKernel.IoUring.RequestTerminal

namespace TheKernel.IoUring

open Outcome Act RequestRegistry Board

namespace RequestRegistry

def priorRequestsTerminal (r : RequestRegistry) (id : RequestId) : Outcome IoUringError Bool := do
  let sequence := (← r.entry id).sequence
  .ok (r.slots.all fun slot => match slot.entry with
    | none => true
    | some entry => decide (sequence ≤ entry.sequence) || entry.state.claimed)

section Sequence

variable {n : Option Nat}

abbrev Draws (n : Option Nat) {α : Type} (x : Call α) : Prop := Act.Keeps (fun r => r.nextSequence = n) x

theorem draws_clearSlot (id : RequestId) : Draws n (clearSlot id) := by
  refine .read fun r hr => keeps_ite (keeps_fail _) ?_
  split
  · exact keeps_fail _
  · refine keeps_ite (keeps_fail _) (.bind (keeps_set hr) fun _ => ?_)
    exact keeps_ite (keeps_pure _) (keeps_ite (keeps_fail _) (keeps_modify fun _ hs => hs))

theorem draws_refundCredits (count : Nat) : Draws n (refundCredits count) :=
  .read fun _ _ => .bind (keeps_okOr _ _) fun _ => keeps_modify fun _ hs => hs

theorem draws_requireIssued (issued : IssuedRequest) (state : EntryState) : Draws n (requireIssued issued state) :=
  .read fun _ _ => .bind (keeps_lift _) fun _ => keeps_ite (keeps_fail _) (keeps_pure _)

theorem draws_releaseReservation (id : RequestId) : Draws n (releaseReservation id) := by
  refine .read fun r hr => keeps_ite ?_ (keeps_pure _)
  exact .bind (keeps_modify fun _ hs => hs) fun _ => .bind (keeps_okOr _ _) fun _ => keeps_modify fun _ hs => hs

theorem draws_claimTerminal (id : RequestId) (cause : TerminalCause) : Draws n (claimTerminal id cause) := by
  refine .read fun r hr => .bind (keeps_lift _) fun entry => ?_
  have hclaim : Draws n (do
      Act.set (r.setState id (.terminalClaimed cause))
      pure (⟨id, entry.descriptor, cause⟩ : TerminalPermit)) := .bind (keeps_set hr) fun _ => keeps_pure _
  dsimp only
  split
  · exact hclaim
  · exact hclaim
  · exact keeps_ite (keeps_fail _) hclaim
  · exact keeps_ite (keeps_fail _) hclaim
  all_goals exact keeps_fail _

theorem draws_claimAfterShot (issued : IssuedRequest) (cause : TerminalCause) :
    Draws n (claimTerminalAfterNonterminalShot issued cause) := by
  refine .bind (draws_requireIssued _ _) fun _ => .bind (keeps_modify fun _ hs => hs) fun _ => ?_
  exact .bind (draws_releaseReservation _) fun _ => keeps_pure _

theorem draws_beginProviderCancel (id : RequestId) : Draws n (beginProviderCancel id) := by
  refine .read fun r hr => .bind (keeps_lift _) fun entry => ?_
  split
  · exact keeps_set hr
  · exact keeps_set hr
  · exact keeps_fail _

theorem draws_requirePublishing (r : RequestRegistry) : Draws n (requirePublishing r) := by
  rw [requirePublishing]
  split
  · exact keeps_fail _
  · exact keeps_fail _
  · exact keeps_pure _
  · exact keeps_pure _

theorem draws_reap (count : Nat) : Draws n ((List.range count).foldlM reapTurn 0) := by
  refine keeps_foldlM (fun terminal offset => ?_) _ _
  refine .read fun r hr => .bind (keeps_okOr _ _) fun mark => .bind ?_ fun _ =>
    .bind (keeps_modify fun _ hs => hs) fun _ => keeps_pure _
  exact keeps_ite (keeps_okOr _ _) (keeps_pure _)

theorem draws_progress : Draws n progress := .read fun _ _ => .bind (keeps_lift _) fun _ => keeps_pure _

theorem draws_issue (prepared : PreparedRequest) (overrideMode : Option CancellationMode) :
    Act.Keeps (fun r => r.nextSequence = n) (issueWithCancellationMode prepared overrideMode) := by
  refine .read fun r hr => .bind (keeps_lift _) fun entry => ?_
  split
  · exact .bind (keeps_set hr) fun _ => keeps_pure _
  all_goals exact keeps_fail _

theorem draws_beginNonterminalShot (issued : IssuedRequest) : Draws n (beginNonterminalShot issued) := by
  refine .read fun r hr => keeps_ite (keeps_fail _) (.bind (keeps_okOr _ _) fun _ => .bind (keeps_okOr _ _) fun _ => ?_)
  refine .bind (keeps_lift _) fun _ => .bind (keeps_okOr _ _) fun _ => .bind (keeps_okOr _ _) fun _ =>
    keeps_ite (keeps_fail _) ?_
  refine .bind (draws_requireIssued _ _) fun _ => .bind (keeps_modify fun _ hs => hs) fun _ => ?_
  exact .bind (keeps_okOr _ _) fun _ => keeps_modify fun _ hs => hs

theorem draws_claimCancel (selector : CancelSelector) (exclude : Option RequestId) :
    Draws n (claimCancel selector exclude) := by
  refine .read fun r hr => ?_
  cases selector with
  | request id => exact keeps_ite (keeps_fail _) (draws_claimTerminal _ _).mapErr
  | userData data | timeoutUserData data =>
      refine .bind (keeps_lift _) ?_
      rintro (_ | ⟨_, id⟩)
      · exact keeps_fail _
      · exact draws_claimTerminal _ _

theorem draws_selectProvider (selector : CancelSelector) (exclude : Option RequestId) (owned : RequestId → Bool) :
    Draws n (selectProviderCancelCandidate selector exclude owned) := by
  refine .read fun r hr => .bind (keeps_lift _) fun candidate => ?_
  split
  · exact .bind (draws_beginProviderCancel _) fun _ => keeps_pure _
  · exact keeps_fail _

theorem draws_finishProviderCancel (id : RequestId) (outcome : ProviderCancelOutcome) :
    Draws n (finishProviderCancel id outcome) := by
  refine .read fun r hr => .bind (keeps_lift _) fun entry => ?_
  split
  · exact keeps_fail _
  · cases outcome with
    | cancelled => exact .bind (draws_claimAfterShot _ _) fun _ => keeps_pure _
    | inFlight => exact .bind (keeps_set hr) fun _ => keeps_pure _
  · exact keeps_fail _

theorem draws_publish (token : CompletionToken) : Draws n (publish token) := by
  refine .read fun r hr => .bind (draws_requirePublishing _) fun _ =>
    keeps_ite (keeps_fail _) (.bind (keeps_lift _) fun entry => ?_)
  split
  · refine .bind (keeps_lift _) fun _ => .bind (keeps_okOr _ _) fun _ => keeps_ite (keeps_fail _) ?_
    exact .bind (keeps_set hr) fun _ => keeps_pure _
  · exact keeps_fail _

theorem draws_publishNonterminal (issued : IssuedRequest) (result flags : BitVec 32) :
    Draws n (publishNonterminal issued result flags) := by
  refine .read fun r hr => .bind (draws_requirePublishing _) fun _ =>
    keeps_ite (keeps_fail _) (.bind (keeps_lift _) fun entry => ?_)
  refine keeps_ite (keeps_fail _) (.bind (keeps_set hr) fun _ => .bind (keeps_okOr _ _) fun _ => ?_)
  exact .bind (keeps_modify fun _ hs => hs) fun _ => keeps_pure _

theorem draws_commitPublication (publication : CompletionPublication) : Draws n (commitPublication publication) := by
  have hretire : ∀ entry, Draws n (retire publication entry) := by
    intro entry
    refine keeps_ite (keeps_ite (keeps_fail _) (draws_clearSlot _)) ?_
    split
    · exact keeps_modify fun _ hs => hs
    · exact keeps_fail _
  have hadvance : Draws n (advance publication) := .read fun r hr => keeps_ite (keeps_fail _) (keeps_set hr)
  refine .read fun r hr => keeps_ite (keeps_fail _) (keeps_ite (keeps_fail _) ?_)
  exact .bind (keeps_lift _) fun entry => .bind (hretire entry) fun _ => hadvance

theorem draws_rollbackNonterminal (publication : CompletionPublication) :
    Draws n (rollbackNonterminalPublication publication) := by
  refine .read fun r hr => keeps_ite (keeps_fail _) (.bind (keeps_lift _) fun entry => ?_)
  split
  · exact keeps_set hr
  · exact keeps_fail _

theorem draws_finishClose : Draws n finishClose := by
  refine .read fun r hr => ?_
  split
  · exact keeps_fail _
  · exact keeps_pure _
  · exact keeps_ite (keeps_fail _) (keeps_modify fun _ hs => hs)
  · exact keeps_ite (keeps_fail _) (keeps_modify fun _ hs => hs)

theorem draws_beginClose : Draws n beginClose := by
  refine .bind (keeps_modify fun r hr => ?_) fun _ => draws_progress
  split
  · exact hr
  · exact hr

theorem draws_beginDraining : Draws n beginDraining := by
  refine .read fun r hr => keeps_ite draws_progress (keeps_ite (keeps_fail _) (keeps_ite (keeps_fail _) ?_))
  exact .bind (keeps_modify fun _ hs => hs) fun _ => draws_progress

theorem draws_observe (userHead : BitVec 32) : Draws n (observeCompletionHead userHead) := by
  refine .read fun r hr => keeps_ite (keeps_fail _) (.bind (keeps_lift _) fun _ => keeps_ite (keeps_fail _) ?_)
  refine .bind (draws_reap _) fun _ => .bind (keeps_modify fun _ hs => hs) fun _ => ?_
  exact .bind (draws_refundCredits _) fun _ => keeps_pure _

theorem draws_discardPublished : Draws n discardPublished := by
  refine .read fun r hr => keeps_ite (keeps_fail _) (keeps_ite (keeps_fail _) (.bind (keeps_lift _) fun _ => ?_))
  refine .bind (draws_reap _) fun _ => .bind (keeps_modify fun _ hs => hs) fun _ => ?_
  exact .bind (draws_refundCredits _) fun _ => keeps_pure _

theorem draws_respond {op : Op} (hop : ∀ descriptor, op ≠ .reserve descriptor) : Draws n (respond op) := by
  cases op with
  | reserve descriptor => exact absurd rfl (hop descriptor)
  | rollback reservation =>
      refine .bind ?_ fun _ => keeps_pure _
      refine .read fun r hr => .bind (keeps_lift _) fun entry => keeps_ite (keeps_fail _) ?_
      exact .bind (draws_clearSlot _) fun _ => draws_refundCredits _
  | commit reservation =>
      refine .bind ?_ fun _ => keeps_pure _
      refine .read fun r hr => .bind (keeps_lift _) fun entry => keeps_ite (keeps_fail _) ?_
      exact .bind (keeps_set hr) fun _ => keeps_pure _
  | issue prepared overrideMode => exact .bind (draws_issue _ _).mapErr fun _ => keeps_pure _
  | beginNonterminalShot issued => exact .bind (draws_beginNonterminalShot _) fun _ => keeps_pure _
  | beginSideEffect issued =>
      refine .bind ?_ fun _ => keeps_pure _
      exact .bind (draws_requireIssued _ _) fun _ => keeps_modify fun _ hs => hs
  | abortNonterminalShot issued =>
      refine .bind ?_ fun _ => keeps_pure _
      exact .bind (draws_requireIssued _ _) fun _ => .bind (keeps_modify fun _ hs => hs) fun _ =>
        draws_releaseReservation _
  | claimTerminalAfterNonterminalShot issued cause => exact .bind (draws_claimAfterShot _ _) fun _ => keeps_pure _
  | claimCancellableAtSlot slotIndex cause =>
      refine .bind ?_ fun _ => keeps_pure _
      refine .read fun r hr => .bind (keeps_okOr _ _) fun slot => ?_
      split
      · exact keeps_ite (keeps_pure _) (.bind (draws_claimTerminal _ _) fun _ => keeps_pure _)
      · exact keeps_pure _
  | claimTerminal id cause => exact .bind (draws_claimTerminal _ _) fun _ => keeps_pure _
  | claimCancel selector exclude => exact .bind (draws_claimCancel _ _) fun _ => keeps_pure _
  | selectProviderCancelCandidate selector exclude owned =>
      exact .bind (draws_selectProvider _ _ _) fun _ => keeps_pure _
  | beginProviderCancel id => exact .bind (draws_beginProviderCancel _) fun _ => keeps_pure _
  | finishProviderCancel id outcome => exact .bind (draws_finishProviderCancel _ _) fun _ => keeps_pure _
  | finishTerminal permit result flags =>
      refine .bind ?_ fun _ => keeps_pure _
      refine .read fun r hr => .bind (keeps_lift _) fun entry => keeps_ite (keeps_fail _) ?_
      exact .bind (keeps_set hr) fun _ => keeps_pure _
  | publish token => exact .bind (draws_publish _) fun _ => keeps_pure _
  | publishNonterminal issued result flags => exact .bind (draws_publishNonterminal _ _ _) fun _ => keeps_pure _
  | commitPublication publication => exact .bind (draws_commitPublication _) fun _ => keeps_pure _
  | rollbackPublication publication =>
      refine .bind ?_ fun _ => keeps_pure _
      refine .read fun r hr => keeps_ite (keeps_fail _) (keeps_ite (keeps_fail _)
        (.bind (keeps_lift _) fun entry => ?_))
      exact keeps_ite (keeps_fail _) (.bind (keeps_set hr) fun _ => keeps_pure _)
  | rollbackNonterminalPublication publication => exact .bind (draws_rollbackNonterminal _) fun _ => keeps_pure _
  | observeCompletionHead userHead => exact .bind (draws_observe _) fun _ => keeps_pure _
  | beginClose => exact .bind draws_beginClose fun _ => keeps_pure _
  | beginDraining => exact .bind draws_beginDraining fun _ => keeps_pure _
  | discardCompletion token =>
      refine .bind ?_ fun _ => keeps_pure _
      refine .read fun r hr => keeps_ite (keeps_fail _) (.bind (keeps_lift _) fun entry => keeps_ite (keeps_fail _) ?_)
      exact .bind (draws_clearSlot _) fun _ => draws_refundCredits _
  | discardPublished => exact .bind draws_discardPublished fun _ => keeps_pure _
  | finishClose => exact .bind draws_finishClose fun _ => keeps_pure _
  | progress => exact .bind draws_progress fun _ => keeps_pure _

end Sequence

end RequestRegistry

def admitted (trace : List Record) : List RequestId :=
  trace.filterMap fun record => match record.response with
    | .reserved reservation => some reservation.id
    | _ => none

def RolledBack (trace : List Record) (id : RequestId) : Prop :=
  ∃ reservation, ⟨.rollback reservation, .done⟩ ∈ trace ∧ reservation.id = id

def Terminal (trace : List Record) (id : RequestId) : Prop := ∃ record ∈ trace, record.permits id = true

/-- The sequence of a request is its place in the order of admission, and a
request leaves after its terminal claim or by a rollback. -/
structure Numbered (r : RequestRegistry) (trace : List Record) : Prop where
  next : ∀ n, r.nextSequence = some n → n = (admitted trace).length + 1
  placed : ∀ id e, r.found id = some e → 1 ≤ e.sequence ∧ (admitted trace).reverse[e.sequence - 1]? = some id
  left : ∀ id ∈ admitted trace, (∃ e, r.found id = some e) ∨ Terminal trace id ∨ RolledBack trace id
  gone : ∀ id, RolledBack trace id → id ∈ admitted trace ∧ r.found id = none
  nodup : (admitted trace).Nodup

namespace Board

variable {b b' : Board} {op : Op} {response : Response} {id id' : RequestId} {e : RequestEntry}

theorem entries_of_put {entry : RequestEntry} (h : (b.put id' (some entry)).entries id = none) :
    b.entries id = none := by
  rw [Board.put] at h
  dsimp only at h
  rw [Function.update_apply] at h
  split at h
  · cases h
  · exact h

theorem Step.leaves (h : b.Step op response b') (he : b.entries id = some e) (hnone : b'.entries id = none) :
    e.state.claimed = true ∨ ∃ reservation, op = .rollback reservation ∧ response = .done ∧ reservation.id = id := by
  have hsame : ∀ {x : RequestId} {entry : RequestEntry}, (b.put x (some entry)).entries id = none → False := by
    intro x entry h
    rw [entries_of_put h] at he
    cases he
  have hgone : ∀ {x : RequestId} {e' : RequestEntry}, b.entries x = some e' → (b.put x none).entries id = none →
      x = id ∧ e' = e := by
    intro x e' he' h
    rw [Board.put] at h
    dsimp only at h
    rw [Function.update_apply] at h
    split at h
    next hx =>
      subst hx
      rw [he] at he'
      exact ⟨rfl, (Option.some.inj he').symm⟩
    next =>
      rw [he] at h
      cases h
  cases h with
  | reserve => exact (hsame hnone).elim
  | rollback he' =>
      obtain ⟨hid, _⟩ := hgone he' hnone
      exact .inr ⟨_, rfl, rfl, hid⟩
  | discardCompletion he' hstate | commitTerminal he' hstate =>
      obtain ⟨_, rfl⟩ := hgone he' hnone
      left
      rw [hstate]
      rfl
  | publishNonterminal | skipSlot | idle | passed =>
      rw [he] at hnone
      cases hnone
  | commit | issue | beginNonterminalShot | beginSideEffect | abortNonterminalShot | claimTerminalAfterNonterminalShot
  | claimCancellableAtSlot | claimTerminal | claimCancel | selectProviderCancelCandidate | beginProviderCancel
  | providerCancelled | providerInFlight | finishTerminal | publish | commitNonterminal | rollbackPublication
  | rollbackNonterminalPublication =>
      exact (hsame hnone).elim

theorem Step.reserve_of_reserved {reservation : RequestReservation} (h : b.Step op (.reserved reservation) b') :
    ∃ descriptor, op = .reserve descriptor := by
  cases h with
  | reserve => exact ⟨_, rfl⟩

theorem Step.unused {reservation : RequestReservation} (h : b.Step op (.reserved reservation) b') :
    reservation.id ∉ b.used := by
  cases h with
  | reserve hused => exact hused

theorem Step.rolledBack {reservation : RequestReservation} (h : b.Step (.rollback reservation) response b') :
    (∃ e, b.entries reservation.id = some e) ∧ b'.entries reservation.id = none := by
  cases h with
  | rollback he => exact ⟨⟨_, he⟩, Function.update_self ..⟩
  | idle hidle | passed hidle => exact hidle.elim

theorem Step.sequence (h : b.Step op response b') (hnot : ∀ reservation, response ≠ .reserved reservation)
    {e' : RequestEntry}
    (he' : b'.entries id = some e') : ∃ e, b.entries id = some e ∧ e.sequence = e'.sequence := by
  rcases h.turns with ⟨_, _, _, hreserved, _⟩ | ⟨x, e, next, he, _, _, hentries⟩ | ⟨_, hentries, _⟩
  · exact absurd hreserved (hnot _)
  · rw [hentries, Function.update_apply] at he'
    split at he'
    next hx =>
      subst hx
      obtain ⟨state, _, rfl⟩ := Option.map_eq_some_iff.mp he'
      exact ⟨e, he, rfl⟩
    next => exact ⟨e', he', rfl⟩
  · rw [hentries] at he'
    exact ⟨e', he', rfl⟩

end Board

section Numbered

variable {r t : RequestRegistry} {trace : List Record} {used used' : List RequestId} {op : Op} {response : Response}
  {id : RequestId}

theorem Terminal.cons {record : Record} (h : Terminal trace id) : Terminal (record :: trace) id := by
  obtain ⟨old, hold, hpermits⟩ := h
  exact ⟨old, List.mem_cons_of_mem _ hold, hpermits⟩

theorem RolledBack.cons {record : Record} (h : RolledBack trace id) : RolledBack (record :: trace) id := by
  obtain ⟨reservation, hold, hid⟩ := h
  exact ⟨reservation, List.mem_cons_of_mem _ hold, hid⟩

theorem admitted_cons_of_not (hnot : ∀ reservation, response ≠ .reserved reservation) :
    admitted (⟨op, response⟩ :: trace) = admitted trace := by
  cases response with
  | reserved reservation => exact absurd rfl (hnot reservation)
  | _ => rfl

theorem Numbered.mem_admitted {e : RequestEntry} (h : Numbered r trace) (he : r.found id = some e) :
    id ∈ admitted trace :=
  List.mem_reverse.mp (List.mem_of_getElem? (h.placed id e he).2)

/-- The requests before a place in the order of admission. -/
theorem Numbered.mem_take {e : RequestEntry} (h : Numbered r trace) (he : r.found id = some e) {n : Nat} :
    id ∈ (admitted trace).reverse.take n ↔ e.sequence - 1 < n := by
  have hplace := (h.placed id e he).2
  rw [List.mem_take_iff_getElem]
  constructor
  · rintro ⟨i, hi, hid⟩
    have hlt : i < (admitted trace).reverse.length := by omega
    have hget : (admitted trace).reverse[i]? = (admitted trace).reverse[e.sequence - 1]? := by
      rw [hplace, List.getElem?_eq_getElem hlt, hid]
    have heq := (List.getElem?_inj hlt (List.nodup_reverse.mpr h.nodup)).mp hget
    omega
  · intro hlt
    obtain ⟨hlt', hget⟩ := List.getElem?_eq_some_iff.mp hplace
    exact ⟨e.sequence - 1, by omega, hget⟩

theorem Told.terminal {b : Board} {e : RequestEntry} (h : Told b trace) (he : b.entries id = some e)
    (hclaimed : e.state.claimed = true) : Terminal trace id := by
  have hcount := (h.permits id).2.2 e he
  rw [if_pos hclaimed] at hcount
  obtain ⟨record, hrecord, hpermits⟩ := List.countP_pos_iff.mp (hcount.symm ▸ Nat.one_pos)
  exact ⟨record, hrecord, hpermits⟩

theorem Numbered.step (h : Numbered r trace) (htold : Told (board r used) trace)
    (hstep : (board r used).Step op response (board t used'))
    (hnot : ∀ reservation, response ≠ .reserved reservation) (hnext : t.nextSequence = r.nextSequence) :
    Numbered t (⟨op, response⟩ :: trace) := by
  constructor
  case next =>
    rw [admitted_cons_of_not hnot, hnext]
    exact h.next
  case placed =>
    intro id e he
    obtain ⟨old, hold, hsequence⟩ := hstep.sequence hnot he
    rw [admitted_cons_of_not hnot, ← hsequence]
    exact h.placed id old hold
  case left =>
    rw [admitted_cons_of_not hnot]
    intro id hid
    rcases h.left id hid with ⟨e, he⟩ | hterminal | hrolled
    · cases hfound : t.found id with
      | some e' => exact .inl ⟨e', rfl⟩
      | none =>
          rcases hstep.leaves he hfound with hclaimed | ⟨reservation, rfl, rfl, hreservation⟩
          · exact .inr (.inl (htold.terminal he hclaimed).cons)
          · exact .inr (.inr ⟨reservation, List.mem_cons_self .., hreservation⟩)
    · exact .inr (.inl hterminal.cons)
    · exact .inr (.inr hrolled.cons)
  case gone =>
    rw [admitted_cons_of_not hnot]
    rintro id ⟨reservation, hmem, rfl⟩
    rcases List.mem_cons.mp hmem with hrecord | hold
    · cases hrecord
      obtain ⟨⟨e, he⟩, hnone⟩ := hstep.rolledBack
      exact ⟨h.mem_admitted he, hnone⟩
    · obtain ⟨hadmitted, hnone⟩ := h.gone reservation.id ⟨reservation, hold, rfl⟩
      refine ⟨hadmitted, ?_⟩
      cases hfound : t.found reservation.id with
      | none => rfl
      | some e =>
          obtain ⟨old, hold, _⟩ := hstep.sequence hnot hfound
          rw [show r.found reservation.id = some old from hold] at hnone
          cases hnone
  case nodup =>
    rw [admitted_cons_of_not hnot]
    exact h.nodup

theorem Numbered.reserve (h : Numbered r trace) {descriptor : RequestDescriptor} {sequence : Nat}
    (hsequence : r.nextSequence = some sequence) (hfresh : id ∉ admitted trace)
    (hnext : t.nextSequence = nextGeneration sequence)
    (hfound : t.found = Function.update r.found id (some ⟨descriptor, sequence, .reserved⟩)) :
    Numbered t (⟨op, .reserved ⟨id, descriptor⟩⟩ :: trace) := by
  have hlength := h.next sequence hsequence
  have hadmitted : admitted (⟨op, .reserved ⟨id, descriptor⟩⟩ :: trace) = id :: admitted trace := rfl
  constructor
  case next =>
    intro n hn
    rw [hnext, nextGeneration, checkedAddBits] at hn
    split at hn
    · cases hn
      rw [hadmitted, List.length_cons, hlength]
    · cases hn
  case placed =>
    intro id' e he
    rw [hadmitted, List.reverse_cons]
    rw [hfound, Function.update_apply] at he
    split at he
    next heq =>
      cases he
      subst heq
      dsimp only
      refine ⟨by omega, ?_⟩
      rw [List.getElem?_append_right (by rw [List.length_reverse]; omega), List.length_reverse, hlength]
      simp
    next =>
      obtain ⟨hpos, hplace⟩ := h.placed id' e he
      refine ⟨hpos, ?_⟩
      rw [List.getElem?_append_left (List.getElem?_eq_some_iff.mp hplace).1]
      exact hplace
  case left =>
    rw [hadmitted, List.forall_mem_cons]
    constructor
    · left
      rw [hfound, Function.update_self]
      exact ⟨_, rfl⟩
    · intro id' hid'
      rcases h.left id' hid' with ⟨e, he⟩ | hterminal | hrolled
      · left
        rw [hfound, Function.update_apply]
        split
        · exact ⟨_, rfl⟩
        · exact ⟨e, he⟩
      · exact .inr (.inl hterminal.cons)
      · exact .inr (.inr hrolled.cons)
  case gone =>
    rintro _ ⟨reservation, hmem, rfl⟩
    rcases List.mem_cons.mp hmem with hrecord | hold
    · cases hrecord
    · obtain ⟨hadm, hnone⟩ := h.gone reservation.id ⟨reservation, hold, rfl⟩
      have hne : reservation.id ≠ id := by
        intro heq
        rw [heq] at hadm
        exact hfresh hadm
      refine ⟨List.mem_cons_of_mem _ hadm, ?_⟩
      rw [hfound, Function.update_of_ne hne]
      exact hnone
  case nodup => exact List.nodup_cons.mpr ⟨hfresh, h.nodup⟩

theorem Numbered.congr (h : Numbered r trace) (hnext : t.nextSequence = r.nextSequence) (hfound : t.found = r.found) :
    Numbered t trace where
  next := by rw [hnext]; exact h.next
  placed := by rw [hfound]; exact h.placed
  left := by rw [hfound]; exact h.left
  gone := by rw [hfound]; exact h.gone
  nodup := h.nodup

namespace RequestRegistry

variable {ring capacity cqEntries : Nat}

theorem Trace.numbered (h : Trace ring capacity cqEntries r trace) : Numbered r trace := by
  induction h with
  | @start r h =>
      constructor
      case next =>
        intro n hn
        rw [new] at h
        split at h
        · cases h
        · split at h
          · cases h
          · cases h
            exact (Option.some.inj hn).symm
      case placed => exact fun id e he => absurd he (found_initial h id e)
      case left => intros; contradiction
      case gone =>
        rintro id ⟨_, hmem, _⟩
        cases hmem
      case nodup => exact List.nodup_nil
  | @step r t trace op response h hstep ih =>
      obtain ⟨used, hcore, htold⟩ := h.told
      obtain ⟨used', _, hboard⟩ := (hcore.respond op).ok_of hstep
      by_cases hop : ∃ descriptor, op = .reserve descriptor
      · obtain ⟨descriptor, rfl⟩ := hop
        rw [respond, Act.bind_eq_ok] at hstep
        obtain ⟨reservation, u, hreserve, hpure⟩ := hstep
        cases hpure
        obtain ⟨slotIndex, g, sequence, rfl, _, hslot, _, hsequence, rfl⟩ :=
          (reserve_ensures hcore.slots hcore.cqEntries_le).ok_of hreserve
        refine ih.reserve hsequence ?_ rfl (found_taken hslot)
        intro hmem
        obtain ⟨record, hrecord, hresponse⟩ := List.mem_filterMap.mp hmem
        refine hboard.unused ?_
        split at hresponse
        next reservation hreserved =>
          obtain ⟨reserved, descriptor'⟩ := reservation
          cases hresponse
          exact (htold.descriptor record hrecord _ descriptor' hreserved).1
        next => cases hresponse
      · have hdraws := draws_respond (fun descriptor heq => hop ⟨descriptor, heq⟩) r (show r.nextSequence =
          r.nextSequence from rfl)
        rw [hstep] at hdraws
        refine ih.step htold hboard ?_ hdraws
        rintro reservation rfl
        exact hop hboard.reserve_of_reserved
  | @failed r t trace op error h hstep ih =>
      obtain ⟨used, hcore, _⟩ := h.told
      rcases (hcore.respond op).err_of hstep with rfl | ⟨hidle, _, hboard⟩
      · exact ih
      · have hop : ∀ descriptor, op ≠ .reserve descriptor := by
          rintro descriptor rfl
          exact hidle
        have hdraws := draws_respond hop r (show r.nextSequence = r.nextSequence from rfl)
        rw [hstep] at hdraws
        exact ih.congr hdraws (congrArg Board.entries hboard)

end RequestRegistry

end Numbered

namespace RequestRegistry

section Cancel

variable {r : RequestRegistry} {selector : CancelSelector} {exclude : Option RequestId} {id : RequestId}
  {e : RequestEntry} {used : List RequestId}

structure Cancels (r : RequestRegistry) (selector : CancelSelector) (exclude : Option RequestId) (id : RequestId)
    (e : RequestEntry) : Prop where
  entry : r.entry id = .ok e
  other : some id ≠ exclude
  named : selector.matches e.descriptor = true
  state : e.state = .prepared ∨ e.state = .issued .cancellable

/-- The candidate is the oldest of the requests in the first `k` slots. -/
def Oldest (r : RequestRegistry) (selector : CancelSelector) (exclude : Option RequestId) (k : Nat) :
    Option (Nat × RequestId) → Prop
  | none => ∀ id e, Cancels r selector exclude id e → k ≤ id.slot
  | some (sequence, id) => (∃ e, Cancels r selector exclude id e ∧ e.sequence = sequence) ∧
      ∀ id' e', Cancels r selector exclude id' e' → id'.slot < k → sequence ≤ e'.sequence

theorem Oldest.skip {k : Nat} {candidate : Option (Nat × RequestId)} (h : Oldest r selector exclude k candidate)
    (hnone : ∀ id e, id.slot = k → ¬ Cancels r selector exclude id e) :
    Oldest r selector exclude (k + 1) candidate := by
  match candidate with
  | none =>
      intro id e hc
      have hle := h id e hc
      have hne : id.slot ≠ k := fun heq => hnone id e heq hc
      omega
  | some (sequence, best) =>
      refine ⟨h.1, ?_⟩
      intro id' e' hc hlt
      have hne : id'.slot ≠ k := fun heq => hnone id' e' heq hc
      exact h.2 id' e' hc (by omega)

theorem Oldest.older {k : Nat} {candidate : Option (Nat × RequestId)} (h : Oldest r selector exclude k candidate)
    (hc : Cancels r selector exclude id e) (hslot : id.slot = k) :
    Oldest r selector exclude (k + 1) (older candidate e.sequence id) := by
  have hsame : ∀ id' e', Cancels r selector exclude id' e' → id'.slot = k → e' = e := by
    intro id' e' hc' hslot'
    have hid := eq_of_slot hc.entry hc'.entry (hslot'.trans hslot.symm)
    have hentry := hc'.entry
    rw [hid, hc.entry] at hentry
    exact (Outcome.ok.inj hentry).symm
  match candidate with
  | none =>
      refine ⟨⟨e, hc, rfl⟩, ?_⟩
      intro id' e' hc' hlt
      have hle := h id' e' hc'
      rw [hsame id' e' hc' (by omega)]
  | some (sequence, best) =>
      obtain ⟨hbest, hall⟩ := h
      rw [RequestRegistry.older]
      split
      next hlt =>
        refine ⟨⟨e, hc, rfl⟩, ?_⟩
        intro id' e' hc' hslot'
        by_cases hk : id'.slot = k
        · rw [hsame id' e' hc' hk]
        · exact hlt.le.trans (hall id' e' hc' (by omega))
      next hge =>
        refine ⟨hbest, ?_⟩
        intro id' e' hc' hslot'
        by_cases hk : id'.slot = k
        · rw [hsame id' e' hc' hk]
          omega
        · exact hall id' e' hc' (by omega)

theorem cancelTurn_oldest (h : Core r used) {k : Nat} {slot : RequestSlot} (hslot : r.slots[k]? = some slot)
    {candidate : Option (Nat × RequestId)} (hc : Oldest r selector exclude k candidate) :
    ∃ next, cancelTurn r.ring selector exclude k slot candidate = .ok next ∧ Oldest r selector exclude
      (k + 1) next := by
  obtain ⟨generation, entry⟩ := slot
  have hat : ∀ id e, id.slot = k → r.entry id = .ok e → generation = some id.generation ∧ entry = some e ∧
      id.ring = r.ring := by
    intro id e hk he
    obtain ⟨hring, hat⟩ := entry_eq_ok.mp he
    rw [hk, hslot] at hat
    cases hat
    exact ⟨rfl, rfl, hring⟩
  rw [cancelTurn]
  cases entry with
  | none =>
      exact ⟨candidate, rfl,
        hc.skip fun id e hk hcancels => by (have hnone := (hat id e hk hcancels.entry).2.1; cases hnone)⟩
  | some entry =>
      cases generation with
      | none =>
          have hshape : r.shapes[k]? = some (none, true) := by simp [shapes, hslot]
          exact absurd hshape (h.slots.generation k)
      | some g =>
          have hentry : r.entry ⟨r.ring, k, g⟩ = .ok entry := entry_eq_ok.mpr ⟨rfl, hslot⟩
          have hsame : ∀ id e, id.slot = k → Cancels r selector exclude id e → id = ⟨r.ring, k, g⟩ ∧ e = entry := by
            intro id e hk hcancels
            obtain ⟨hg, he, hring⟩ := hat id e hk hcancels.entry
            obtain ⟨ring, slot, generation⟩ := id
            cases hg
            cases he
            simp only at hk hring
            subst hk
            subst hring
            exact ⟨rfl, rfl⟩
          dsimp only
          split
          next hskip =>
            refine ⟨candidate, rfl, hc.skip ?_⟩
            intro id e hk hcancels
            obtain ⟨rfl, rfl⟩ := hsame id e hk hcancels
            rcases hskip with hexcluded | hunnamed
            · exact hcancels.other hexcluded
            · exact hunnamed hcancels.named
          next hnamed =>
            rw [not_or, not_not] at hnamed
            split
            next hstate => exact ⟨_, rfl, hc.older ⟨hentry, hnamed.1, hnamed.2, hstate⟩ rfl⟩
            next hstate =>
              refine ⟨candidate, rfl, hc.skip ?_⟩
              intro id e hk hcancels
              obtain ⟨rfl, rfl⟩ := hsame id e hk hcancels
              exact hstate hcancels.state

theorem claimTerminal_eq (he : r.entry id = .ok e) (hstate : e.state = .prepared ∨ e.state = .issued .cancellable)
    (cause : TerminalCause) :
    claimTerminal id cause r = (.ok ⟨id, e.descriptor, cause⟩, r.setState id (.terminalClaimed cause)) := by
  rw [claimTerminal, Act.get_bind, he, Act.lift_ok_bind]
  rcases hstate with hstate | hstate
  · simp only [hstate]
    rfl
  · simp only [hstate]
    rfl

theorem claimCancel_eq {candidate : Option (Nat × RequestId)} (hselector : ∀ id, selector ≠ .request id)
    (hloop : forEnum (cancelTurn r.ring selector exclude) 0 r.slots none = .ok candidate) :
    claimCancel selector exclude r =
      candidate.elim (.err .cancellationTargetNotFound, r) fun best => claimTerminal best.2 .cancelled r := by
  cases selector with
  | request id => exact absurd rfl (hselector id)
  | userData data =>
      rw [claimCancel, Act.get_bind]
      dsimp only
      rw [hloop, Act.lift_ok_bind]
      cases candidate <;> rfl
  | timeoutUserData data =>
      rw [claimCancel, Act.get_bind]
      dsimp only
      rw [hloop, Act.lift_ok_bind]
      cases candidate <;> rfl

theorem claimCancel_spec (h : Core r used) (hselector : ∀ id, selector ≠ .request id) (exclude : Option RequestId) :
    (∃ id e, Cancels r selector exclude id e ∧ (∀ id' e', Cancels r selector exclude id' e' → e.sequence ≤
      e'.sequence) ∧
      claimCancel selector exclude r = (.ok ⟨id, e.descriptor, .cancelled⟩, r.setState id
        (.terminalClaimed .cancelled))) ∨
    (∀ id e, ¬ Cancels r selector exclude id e) ∧ claimCancel selector exclude r =
      (.err .cancellationTargetNotFound, r) := by
  have hall : ∀ id e, Cancels r selector exclude id e → id.slot < 0 + r.slots.length := by
    intro id e hc
    rw [Nat.zero_add]
    exact (List.getElem?_eq_some_iff.mp (entry_eq_ok.mp hc.entry).2).1
  obtain ⟨candidate, hloop, hbest⟩ := forEnum_completes (cancelTurn r.ring selector exclude)
      (fun k c => Oldest r selector exclude k c) 0
    r.slots none (fun k slot c hslot hc => cancelTurn_oldest h (by rwa [Nat.zero_add]) hc) (fun _ _ _ => Nat.zero_le _)
  have hcall := claimCancel_eq hselector hloop
  match candidate with
  | none =>
      right
      refine ⟨?_, hcall⟩
      intro id e hc
      have hle : 0 + r.slots.length ≤ id.slot := hbest id e hc
      have hlt := hall id e hc
      omega
  | some (sequence, id) =>
      obtain ⟨⟨e, hc, rfl⟩, hleast⟩ := hbest
      left
      refine ⟨id, e, hc, fun id' e' hc' => hleast id' e' hc' (hall id' e' hc'), ?_⟩
      rw [hcall]
      exact claimTerminal_eq hc.entry hc.state .cancelled

end Cancel

section Prior

variable {r : RequestRegistry} {trace : List Record} {used : List RequestId} {id : RequestId} {e : RequestEntry}

theorem priorRequestsTerminal_spec (h : Numbered r trace) (hcore : Core r used) (htold : Told (board r used) trace)
    (he : r.entry id = .ok e) :
    ∃ b after before, r.priorRequestsTerminal id = .ok b ∧ admitted trace = after ++ id :: before ∧
      (b = true ↔ ∀ id' ∈ before, ¬ RolledBack trace id' → Terminal trace id') := by
  obtain ⟨hlt, hget⟩ := List.getElem?_eq_some_iff.mp (h.placed id e (found_eq_some.mpr he)).2
  have hpos := (h.placed id e (found_eq_some.mpr he)).1
  have hsplit : admitted trace =
      ((admitted trace).reverse.drop e.sequence).reverse ++ id :: ((admitted trace).reverse.take
        (e.sequence - 1)).reverse := by
    have hdrop := List.drop_eq_getElem_cons hlt
    rw [hget, Nat.sub_add_cancel hpos] at hdrop
    have hall := List.take_append_drop (e.sequence - 1) (admitted trace).reverse
    rw [hdrop] at hall
    have hrev := congrArg List.reverse hall
    simpa using hrev.symm
  refine ⟨_, _, _, by rw [priorRequestsTerminal, he]; rfl, hsplit, ?_⟩
  simp only [List.all_eq_true, List.mem_reverse]
  constructor
  · intro hall id' hid' hkept
    have hadmitted : id' ∈ admitted trace := List.mem_reverse.mp (List.mem_of_mem_take hid')
    rcases h.left id' hadmitted with ⟨e', he'⟩ | hterminal | hrolled
    · have hlt' := (h.mem_take he').mp hid'
      have hpos' := (h.placed id' e' he').1
      have hslot := hall _ (List.mem_of_getElem? (entry_eq_ok.mp (found_eq_some.mp he')).2)
      simp only [Bool.or_eq_true, decide_eq_true_eq] at hslot
      rcases hslot with hle | hclaimed
      · omega
      · exact htold.terminal he' hclaimed
    · exact hterminal
    · exact absurd hrolled hkept
  · intro hall slot hslot
    obtain ⟨i, hi, hslot⟩ := List.mem_iff_getElem.mp hslot
    have hat : r.slots[i]? = some slot := by rw [List.getElem?_eq_getElem hi, hslot]
    obtain ⟨generation, entry⟩ := slot
    cases entry with
    | none => rfl
    | some e' =>
        cases generation with
        | none =>
            have hshape : r.shapes[i]? = some (none, true) := by simp [shapes, hat]
            exact absurd hshape (hcore.slots.generation i)
        | some g =>
            have hentry : r.found ⟨r.ring, i, g⟩ = some e' := found_eq_some.mpr (entry_eq_ok.mpr ⟨rfl, hat⟩)
            simp only [Bool.or_eq_true, decide_eq_true_eq]
            by_cases hle : e.sequence ≤ e'.sequence
            · exact .inl hle
            · right
              have hpos' := (h.placed _ e' hentry).1
              have hkept : ¬ RolledBack trace ⟨r.ring, i, g⟩ := by
                intro hrolled
                rw [(h.gone _ hrolled).2] at hentry
                cases hentry
              obtain ⟨record, hrecord, hpermits⟩ := hall _ ((h.mem_take hentry).mpr (by omega)) hkept
              have hcount := (htold.permits ⟨r.ring, i, g⟩).2.2 e' hentry
              have hone := List.countP_pos_iff.mpr ⟨record, hrecord, hpermits⟩
              by_contra hunclaimed
              rw [if_neg hunclaimed] at hcount
              omega

end Prior

/-- A cancellation by user data claims the oldest request that it may, and a
request is first once all that were admitted before it are terminal. -/
theorem cancel_in_order {ring capacity cqEntries : Nat} {r : RequestRegistry} {trace : List Record}
    (h : Trace ring capacity cqEntries r trace) :
    (∀ selector exclude, (∀ id, selector ≠ .request id) →
      (∃ id e, Cancels r selector exclude id e ∧
        (∀ id' e', Cancels r selector exclude id' e' → id' ≠ id → e.sequence < e'.sequence) ∧
        claimCancel selector exclude r = (.ok ⟨id, e.descriptor, .cancelled⟩, r.setState id
          (.terminalClaimed .cancelled)) ∧
        (r.setState id (.terminalClaimed .cancelled)).found =
          Function.update r.found id (some { e with state := .terminalClaimed .cancelled })) ∨
      (∀ id e, ¬ Cancels r selector exclude id e) ∧ claimCancel selector exclude r =
        (.err .cancellationTargetNotFound, r)) ∧
    (∀ id e, r.found id = some e → 1 ≤ e.sequence ∧ (admitted trace).reverse[e.sequence - 1]? = some id) ∧
    ∀ id e, r.entry id = .ok e → ∃ b after before, r.priorRequestsTerminal id = .ok b ∧ admitted trace =
      after ++ id :: before ∧ (b = true ↔ ∀ id' ∈ before, ¬ RolledBack trace id' → Terminal trace id') := by
  obtain ⟨used, hcore, htold⟩ := h.told
  have hnumbered := h.numbered
  refine ⟨?_, hnumbered.placed, fun id e he => priorRequestsTerminal_spec hnumbered hcore htold he⟩
  intro selector exclude hselector
  rcases claimCancel_spec hcore hselector exclude with ⟨id, e, hc, hleast, hcall⟩ | hnone
  · refine .inl ⟨id, e, hc, ?_, hcall, found_setState hc.entry⟩
    intro id' e' hc' hne
    refine lt_of_le_of_ne (hleast id' e' hc') ?_
    intro hsame
    have hplace := (hnumbered.placed id e (found_eq_some.mpr hc.entry)).2
    have hplace' := (hnumbered.placed id' e' (found_eq_some.mpr hc'.entry)).2
    rw [← hsame, hplace] at hplace'
    exact hne (Option.some.inj hplace').symm
  · exact .inr hnone

def twoReads : List Record :=
  [⟨.commit ⟨⟨1, 1, 1⟩, ⟨7, .read⟩⟩, .prepared ⟨⟨1, 1, 1⟩, ⟨7, .read⟩⟩⟩,
    ⟨.reserve ⟨7, .read⟩, .reserved ⟨⟨1, 1, 1⟩, ⟨7, .read⟩⟩⟩,
    ⟨.commit ⟨⟨1, 0, 1⟩, ⟨7, .read⟩⟩, .prepared ⟨⟨1, 0, 1⟩, ⟨7, .read⟩⟩⟩,
    ⟨.reserve ⟨7, .read⟩, .reserved ⟨⟨1, 0, 1⟩, ⟨7, .read⟩⟩⟩]

/-- The older read is claimed, and the younger is not first before that. -/
theorem cancel_in_order_reads : ∃ r, Trace 1 2 4 r twoReads ∧
    (claimCancel (.userData 7) none r).1 = .ok ⟨⟨1, 0, 1⟩, ⟨7, .read⟩, .cancelled⟩ ∧
    ∃ before : List RequestId, ¬ ∀ id' ∈ before, ¬ RolledBack twoReads id' → Terminal twoReads id' := by
  have hnew : new 1 2 4 = .ok (initial 1 2 4) := by decide
  have htrace : Trace 1 2 4 _ twoReads := .step (.step (.step (.step (.start hnew) rfl) rfl) rfl) rfl
  obtain ⟨_, _, hprior⟩ := cancel_in_order htrace
  obtain ⟨b, after, before, hb, _, hiff⟩ := hprior ⟨1, 1, 1⟩ ⟨⟨7, .read⟩, 2, .prepared⟩ (by decide +kernel)
  refine ⟨_, htrace, by decide +kernel, before, ?_⟩
  intro hall
  have htrue := hiff.mpr hall
  rw [htrue] at hb
  exact absurd hb (by decide +kernel)

end RequestRegistry

end TheKernel.IoUring
