import Mathlib.Logic.Function.Basic
import TheKernel.IoUring.RequestStep

namespace TheKernel.IoUring

open Outcome Act

inductive Response where
  | reserved (reservation : RequestReservation)
  | prepared (prepared : PreparedRequest)
  | issued (issued : IssuedRequest)
  | permitted (permit : TerminalPermit)
  | completed (token : CompletionToken)
  | planned (publication : CompletionPublication)
  | published (publication : CompletionPublication)
  | selected (id : RequestId)
  | passed (count : Nat)
  | done

def Response.ofPermit : Option TerminalPermit → Response
  | some permit => .permitted permit
  | none => .done

def Response.quiet : Response → Bool
  | .reserved _ | .planned _ | .published _ | .passed _ => false
  | _ => true

theorem Response.quiet_ofPermit (permit : Option TerminalPermit) : (Response.ofPermit permit).quiet = true := by
  cases permit <;> rfl

namespace RequestRegistry

variable {r t : RequestRegistry} {l : Ledger} {n : Nat}

theorem eq_length_of_range {done rest : List Nat} {y : Nat} (h : List.range n = done ++ y :: rest) :
    y = done.length ∧ y < n := by
  have hget := congrArg (fun xs => xs[done.length]?) h
  simp only [List.getElem?_append_right le_rfl, Nat.sub_self, List.getElem?_cons_zero] at hget
  obtain ⟨hlt, hy⟩ := List.getElem?_eq_some_iff.mp hget
  rw [List.getElem_range] at hy
  rw [List.length_range] at hlt
  omega

theorem countMark_ensures {terminal : Nat} {mark : Bool} (hsmall : terminal + 1 < 2 ^ 32) :
    Ensures (countMark terminal mark) r (fun count t => t = r ∧ count = terminal + [mark].count true)
      (fun _ _ => False) False := by
  rw [countMark]
  cases mark with
  | true =>
      rw [if_pos rfl, checkedAddBits_eq hsmall]
      exact ⟨rfl, rfl⟩
  | false => exact ensures_pure ⟨rfl, rfl⟩

/-- The loop clears the oldest marks, and counts those that were set. -/
theorem Sound.reap (h : Sound r l) (hn : l.reaped + n ≤ l.log.length) :
    Ensures ((List.range n).foldlM reapTurn 0) r
      (fun terminal t => ∃ marks, t = { r with publishedTerminal := marks } ∧
        Marks r.cqEntries marks l.log (l.reaped + n) ∧ terminal = (l.unreaped.take n).count true) (fun _ _ =>
          False) False := by
  have hwindow := window_le h
  have hcq := cqEntries_le h
  refine (ensures_foldlM (I := fun done terminal t => ∃ marks, t = { r with publishedTerminal := marks } ∧
    Marks r.cqEntries marks l.log (l.reaped + done.length) ∧ terminal = (l.unreaped.take done.length).count true)
    (List.range n) ⟨r.publishedTerminal, rfl, h.marks, by simp⟩ ?_).mono ?_ (fun _ _ hf => hf) id
  · rintro done y terminal t ⟨rest, hrange⟩ ⟨marks, rfl, hmarks, rfl⟩
    obtain ⟨rfl, hlt⟩ := eq_length_of_range hrange
    have hlog : l.log[l.reaped + done.length]? = some (l.log.get ⟨l.reaped + done.length, by omega⟩) :=
      List.getElem?_eq_getElem _
    obtain ⟨hmark, hpop⟩ := hmarks.pop (by omega) hlog
    have hslot : cqSlot { r with publishedTerminal := marks } (r.cqHead + BitVec.ofNat 32 done.length) =
        (l.reaped + done.length) % r.cqEntries := by
      rw [h.head, ← BitVec.ofNat_add]
      exact cqSlot_ofNat h _
    have hcount : (l.unreaped.take (done.length + 1)).count true =
        (l.unreaped.take done.length).count true + [l.log.get ⟨l.reaped + done.length, by omega⟩].count true := by
      have hget : l.unreaped[done.length]? = some (l.log.get ⟨l.reaped + done.length, by omega⟩) := by
        rw [Ledger.unreaped, List.getElem?_drop, hlog]
      rw [List.take_add_one, hget, List.count_append]
      rfl
    have hsmall : (l.unreaped.take done.length).count true ≤ done.length :=
      List.count_le_length.trans (List.length_take_le _ _)
    rw [reapTurn]
    apply ensures_get_bind
    rw [hslot]
    refine ensures_okOr_bind ?_ fun hnone => by rw [hmark] at hnone; cases hnone
    intro mark hsome
    cases Option.some.inj (hmark.symm.trans hsome)
    refine (countMark_ensures (by omega)).bind ?_
    rintro _ t ⟨rfl, rfl⟩
    apply ensures_modify_bind
    apply ensures_pure
    refine ⟨_, rfl, ?_, ?_⟩
    · rw [List.length_append, List.length_singleton]
      exact hpop
    · rw [List.length_append, List.length_singleton, hcount]
  · simp only [List.length_range]
    exact fun _ _ hpost => hpost

/-- The head moves over `n` completions, whose credits are refunded. -/
theorem Sound.pass (h : Sound r l) (hn : l.reaped + n ≤ l.log.length) (head : RequestRegistry → BitVec 32)
    (hhead : ∀ marks, head { r with publishedTerminal := marks } = BitVec.ofNat 32 (l.reaped + n)) :
    Ensures (do
      let terminal ← (List.range n).foldlM reapTurn 0
      Act.modify fun r => { r with cqHead := head r }
      refundCredits terminal
      pure n) r (fun count t => Sound t { l with reaped := l.reaped + count }) (fun _ _ => False) False := by
  have hcredits := h.credits
  have hroom := h.room
  refine (h.reap hn).bind ?_
  rintro _ t ⟨marks, rfl, hmarks, rfl⟩
  have hsplit : l.unreaped.count true = (l.unreaped.take n).count true + (l.log.drop (l.reaped + n)).count true := by
    rw [← List.drop_drop, ← List.count_append]
    exact congrArg _ (List.take_append_drop n _).symm
  apply ensures_modify_bind
  apply ensures_bind_of_eq (refundCredits_eq (by change _ ≤ r.terminalCredits; omega))
  apply ensures_pure
  refine ⟨h.size, hhead marks, h.tail, hn, ?_, h.reservations, hmarks, ?_, (Nat.sub_le _ _).trans h.bounded,
    h.slots, h.announced⟩
  · change l.log.length + r.inFlight + r.nonterminalReservations ≤ l.reaped + n + r.cqEntries
    omega
  · change r.terminalCredits - (l.unreaped.take n).count true = r.live + (l.log.drop (l.reaped + n)).count true
    omega

section Calls

variable (h : Sound r l)

include h

theorem Sound.observeCompletionHead (userHead : BitVec 32) :
    Respects (observeCompletionHead userHead) r fun count => { l with reaped := l.reaped + count } := by
  rw [RequestRegistry.observeCompletionHead]
  apply ensures_get_bind
  split
  · exact ensures_fail rfl
  · rw [publishedCount_eq h]
    refine ensures_lift_bind ?_ nofun nofun
    rintro published ⟨⟩
    split
    · exact ensures_fail rfl
    · rename_i hconsumed
      have hreaped := h.reaped
      have hhead : userHead = BitVec.ofNat 32 (l.reaped + (userHead - r.cqHead).toNat) := by
        rw [BitVec.ofNat_add, ← h.head, BitVec.ofNat_toNat, BitVec.setWidth_eq]
        rw [BitVec.add_comm, BitVec.sub_add_cancel]
      exact (h.pass (by omega) (fun _ => userHead) fun _ => hhead).imp (fun _ _ hsound => hsound) False.elim

theorem Sound.discardPublished :
    Respects discardPublished r fun count => { l with reaped := l.reaped + count } := by
  rw [RequestRegistry.discardPublished]
  apply ensures_get_bind
  split
  · exact ensures_fail rfl
  · split
    · exact ensures_fail rfl
    · rw [publishedCount_eq h]
      refine ensures_lift_bind ?_ nofun nofun
      rintro published ⟨⟩
      have hreaped := h.reaped
      have htail : r.cqTail = BitVec.ofNat 32 (l.reaped + (l.log.length - l.reaped)) := by
        rw [Nat.add_sub_cancel' hreaped]
        exact h.tail
      exact (h.pass (by omega) (fun r => r.cqTail) fun _ => htail).imp (fun _ _ hsound => hsound) False.elim

theorem Sound.discardCompletion (token : CompletionToken) : Respects (discardCompletion token) r fun _ => l := by
  rw [RequestRegistry.discardCompletion]
  apply ensures_get_bind
  split
  · exact ensures_fail rfl
  · apply ensures_entry_bind
    intro e he
    split
    · exact ensures_fail rfl
    · rename_i hpending
      apply h.discard he
      rw [not_not] at hpending
      cases hstate : e.state with
      | completionPending c => exact not_announced_pending
      | reserved | prepared | issued | shotInFlight | terminalClaimed | publishing =>
          simp [hstate, isCompletionPending] at hpending

theorem Sound.withLifecycle (lifecycle : RequestLifecycle) : Sound { r with lifecycle := lifecycle } l :=
  ⟨h.size, h.head, h.tail, h.reaped, h.room, h.reservations, h.marks, h.credits, h.bounded, h.slots, h.announced⟩

theorem Sound.progress : Ensures progress r (fun _ t => Sound t l) (fun _ _ => False) False := by
  rw [RequestRegistry.progress]
  apply ensures_get_bind
  rw [publishedCount_eq h]
  exact h

theorem Sound.beginClose : Respects beginClose r fun _ => l := by
  rw [RequestRegistry.beginClose]
  apply ensures_modify_bind
  split
  · exact (h.withLifecycle .closing).progress.imp (fun _ _ ht => ht) False.elim
  · exact h.progress.imp (fun _ _ ht => ht) False.elim

theorem Sound.beginDraining : Respects beginDraining r fun _ => l := by
  rw [RequestRegistry.beginDraining]
  apply ensures_get_bind
  split
  · exact h.progress.imp (fun _ _ ht => ht) False.elim
  · split
    · exact ensures_fail rfl
    · split
      · exact ensures_fail rfl
      · apply ensures_modify_bind
        exact (h.withLifecycle .draining).progress.imp (fun _ _ ht => ht) False.elim

theorem Sound.finishClose : Respects finishClose r fun _ => l := by
  rw [RequestRegistry.finishClose]
  apply ensures_get_bind
  split
  · exact ensures_fail rfl
  · exact ensures_pure h
  all_goals
    split
    · exact ensures_fail rfl
    · exact ensures_modify (h.withLifecycle .closed)

end Calls

inductive Op where
  | reserve (descriptor : RequestDescriptor)
  | rollback (reservation : RequestReservation)
  | commit (reservation : RequestReservation)
  | issue (prepared : PreparedRequest) (overrideMode : Option CancellationMode)
  | beginNonterminalShot (issued : IssuedRequest)
  | beginSideEffect (issued : IssuedRequest)
  | abortNonterminalShot (issued : IssuedRequest)
  | claimTerminalAfterNonterminalShot (issued : IssuedRequest) (cause : TerminalCause)
  | claimCancellableAtSlot (slotIndex : Nat) (cause : TerminalCause)
  | claimTerminal (id : RequestId) (cause : TerminalCause)
  | claimCancel (selector : CancelSelector) (exclude : Option RequestId)
  | selectProviderCancelCandidate (selector : CancelSelector) (exclude : Option RequestId) (owned : RequestId → Bool)
  | beginProviderCancel (id : RequestId)
  | finishProviderCancel (id : RequestId) (outcome : ProviderCancelOutcome)
  | finishTerminal (permit : TerminalPermit) (result flags : BitVec 32)
  | publish (token : CompletionToken)
  | publishNonterminal (issued : IssuedRequest) (result flags : BitVec 32)
  | commitPublication (publication : CompletionPublication)
  | rollbackPublication (publication : CompletionPublication)
  | rollbackNonterminalPublication (publication : CompletionPublication)
  | observeCompletionHead (userHead : BitVec 32)
  | beginClose
  | beginDraining
  | discardCompletion (token : CompletionToken)
  | discardPublished
  | finishClose
  | progress

def respond : Op → Call Response
  | .reserve descriptor => reserve descriptor >>= fun reservation => pure (.reserved reservation)
  | .rollback reservation => rollback reservation >>= fun _ => pure .done
  | .commit reservation => commit reservation >>= fun prepared => pure (.prepared prepared)
  | .issue prepared overrideMode =>
      (issueWithCancellationMode prepared overrideMode).mapErr (·.error) >>= fun issued => pure (.issued issued)
  | .beginNonterminalShot issued => beginNonterminalShot issued >>= fun _ => pure .done
  | .beginSideEffect issued => beginSideEffect issued >>= fun _ => pure .done
  | .abortNonterminalShot issued => abortNonterminalShot issued >>= fun _ => pure .done
  | .claimTerminalAfterNonterminalShot issued cause =>
      claimTerminalAfterNonterminalShot issued cause >>= fun permit => pure (.permitted permit)
  | .claimCancellableAtSlot slotIndex cause => claimCancellableAtSlot slotIndex cause >>= fun permit =>
      pure (.ofPermit permit)
  | .claimTerminal id cause => claimTerminal id cause >>= fun permit => pure (.permitted permit)
  | .claimCancel selector exclude => claimCancel selector exclude >>= fun permit => pure (.permitted permit)
  | .selectProviderCancelCandidate selector exclude owned =>
      selectProviderCancelCandidate selector exclude owned >>= fun id => pure (.selected id)
  | .beginProviderCancel id => beginProviderCancel id >>= fun _ => pure .done
  | .finishProviderCancel id outcome => finishProviderCancel id outcome >>= fun permit => pure (.ofPermit permit)
  | .finishTerminal permit result flags => finishTerminal permit result flags >>= fun token => pure (.completed token)
  | .publish token => publish token >>= fun publication => pure (.planned publication)
  | .publishNonterminal issued result flags =>
      publishNonterminal issued result flags >>= fun publication => pure (.planned publication)
  | .commitPublication publication => commitPublication publication >>= fun _ => pure (.published publication)
  | .rollbackPublication publication => rollbackPublication publication >>= fun token => pure (.completed token)
  | .rollbackNonterminalPublication publication => rollbackNonterminalPublication publication >>= fun _ => pure .done
  | .observeCompletionHead userHead => observeCompletionHead userHead >>= fun count => pure (.passed count)
  | .beginClose => beginClose >>= fun _ => pure .done
  | .beginDraining => beginDraining >>= fun _ => pure .done
  | .discardCompletion token => discardCompletion token >>= fun _ => pure .done
  | .discardPublished => discardPublished >>= fun count => pure (.passed count)
  | .finishClose => finishClose >>= fun _ => pure .done
  | .progress => progress >>= fun _ => pure .done

def record (l : Ledger) : Response → Ledger
  | .reserved reservation => { l with issued := (reservation.id.slot, reservation.id.generation) :: l.issued }
  | .published publication => { l with log := l.log ++ [publication.terminal] }
  | .passed count => { l with reaped := l.reaped + count }
  | _ => l

/-- While the plan of a nonterminal publication is outstanding, its request is
not touched by the calls that end a shot. -/
def Permits (r : RequestRegistry) : Op → Prop
  | .abortNonterminalShot issued | .claimTerminalAfterNonterminalShot issued _ => ¬ MorePending r issued.id
  | .finishProviderCancel id _ => ¬ MorePending r id
  | _ => True

def Planned (r t : RequestRegistry) : Response → Prop
  | .planned publication => t.publicationInFlight = some publication.id ∧ publication.slot = t.cqSlot t.cqTail
  | .published publication => r.publicationInFlight = some publication.id ∧ publication.slot = r.cqSlot r.cqTail
  | _ => True

theorem record_of_quiet {response : Response} (h : response.quiet = true) :
    record l response = l ∧ ∀ r t, Planned r t response := by
  cases response <;> first | exact ⟨rfl, fun _ _ => trivial⟩ | cases h

theorem Respects.returned {α : Type} {x : Call α} (hx : Respects x r fun _ => l) {f : α → Response}
    (hf : ∀ a, (f a).quiet = true) :
    Ensures (x >>= fun a => pure (f a)) r (fun response t => Sound t (record l response) ∧ Planned r t response)
      (fun _ t => t = r) False := by
  refine hx.bind ?_
  intro a t ht
  obtain ⟨hrecord, hplanned⟩ := record_of_quiet (hf a)
  refine ensures_pure ⟨?_, hplanned r t⟩
  rw [hrecord]
  exact ht

theorem Sound.respond (h : Sound r l) {op : Op} (hop : Permits r op) :
    Ensures (respond op) r (fun response t => Sound t (record l response) ∧ Planned r t response)
      (fun _ t => t = r) False := by
  cases op with
  | reserve descriptor =>
      refine (h.reserve descriptor).bind ?_
      intro reservation t ht
      exact ensures_pure ⟨ht, trivial⟩
  | rollback reservation => exact (h.rollback reservation).returned fun _ => rfl
  | commit reservation => exact (h.commit reservation).returned fun _ => rfl
  | issue prepared overrideMode =>
      refine Respects.returned ?_ fun _ => rfl
      exact ((h.issueWithCancellationMode prepared overrideMode).mono (fun _ _ ht => ht) (fun _ _ ht => ht) id).mapErr
  | beginNonterminalShot issued => exact (h.beginNonterminalShot issued).returned fun _ => rfl
  | beginSideEffect issued => exact (h.beginSideEffect issued).returned fun _ => rfl
  | abortNonterminalShot issued => exact (h.abortNonterminalShot issued hop).returned fun _ => rfl
  | claimTerminalAfterNonterminalShot issued cause =>
      exact (h.claimTerminalAfterNonterminalShot issued cause hop).returned fun _ => rfl
  | claimCancellableAtSlot slotIndex cause =>
      exact (h.claimCancellableAtSlot slotIndex cause).returned Response.quiet_ofPermit
  | claimTerminal id cause => exact (h.claimTerminal id cause).returned fun _ => rfl
  | claimCancel selector exclude => exact (h.claimCancel selector exclude).returned fun _ => rfl
  | selectProviderCancelCandidate selector exclude owned =>
      exact (h.selectProviderCancelCandidate selector exclude owned).returned fun _ => rfl
  | beginProviderCancel id => exact (h.beginProviderCancel id).returned fun _ => rfl
  | finishProviderCancel id outcome => exact (h.finishProviderCancel id outcome hop).returned Response.quiet_ofPermit
  | finishTerminal permit result flags => exact (h.finishTerminal permit result flags).returned fun _ => rfl
  | publish token =>
      refine (h.publish token).bind ?_
      rintro publication t ⟨ht, hplan⟩
      exact ensures_pure ⟨ht, hplan⟩
  | publishNonterminal issued result flags =>
      refine (h.publishNonterminal issued result flags).bind ?_
      rintro publication t ⟨ht, hplan⟩
      exact ensures_pure ⟨ht, hplan⟩
  | commitPublication publication =>
      refine (h.commitPublication publication).bind ?_
      rintro _ t ⟨ht, hplan⟩
      exact ensures_pure ⟨ht, hplan⟩
  | rollbackPublication publication => exact (h.rollbackPublication publication).returned fun _ => rfl
  | rollbackNonterminalPublication publication =>
      exact (h.rollbackNonterminalPublication publication).returned fun _ => rfl
  | observeCompletionHead userHead =>
      refine (h.observeCompletionHead userHead).bind ?_
      intro count t ht
      exact ensures_pure ⟨ht, trivial⟩
  | beginClose => exact h.beginClose.returned fun _ => rfl
  | beginDraining => exact h.beginDraining.returned fun _ => rfl
  | discardCompletion token => exact (h.discardCompletion token).returned fun _ => rfl
  | discardPublished =>
      refine h.discardPublished.bind ?_
      intro count t ht
      exact ensures_pure ⟨ht, trivial⟩
  | finishClose => exact h.finishClose.returned fun _ => rfl
  | progress => exact Respects.returned (h.progress.imp (fun _ _ ht => ht) id) fun _ => rfl

/-- The registries that calls can lead to, with what has passed through them. -/
inductive Reached (ring capacity cqEntries : Nat) : RequestRegistry → Ledger → Prop
  | start {r : RequestRegistry} (h : new ring capacity cqEntries = .ok r) : Reached ring capacity cqEntries r
      ⟨[], 0, []⟩
  | step {r t : RequestRegistry} {l op response} (h : Reached ring capacity cqEntries r l) (hop : Permits r op)
      (hstep : respond op r = (.ok response, t)) : Reached ring capacity cqEntries t (record l response)
  | failed {r t : RequestRegistry} {l op error} (h : Reached ring capacity cqEntries r l) (hop : Permits r op)
      (hstep : respond op r = (.err error, t)) : Reached ring capacity cqEntries t l

variable {ring capacity cqEntries : Nat}

theorem sound_initial (hpow : 2 ^ cqEntries.log2 = cqEntries) (hmax : cqEntries ≤ maxCqEntries) :
    Sound (initial ring capacity cqEntries) ⟨[], 0, []⟩ := by
  have hshapes : (initial ring capacity cqEntries).shapes = List.replicate capacity (some 1, false) := by
    simp [shapes, initial]
  have hlog : cqEntries.log2 ≤ 16 := by
    by_contra hlt
    have hlarge : 2 ^ 17 ≤ 2 ^ cqEntries.log2 := Nat.pow_le_pow_right (by omega) (by omega)
    rw [maxCqEntries] at hmax
    omega
  refine ⟨⟨cqEntries.log2, hlog, hpow.symm⟩, rfl, rfl, le_rfl, ?_, rfl, Marks.start, ?_, Nat.zero_le _,
    ?_, (by intros; contradiction)⟩
  · simp [inFlight, initial]
  · rw [live, hshapes]
    simp [initial, Ledger.unreaped, List.countP_replicate]
  · rw [hshapes]
    exact SlotsSound.start capacity

theorem Reached.sound (h : Reached ring capacity cqEntries r l) : Sound r l := by
  induction h with
  | start h =>
      rw [new] at h
      split at h
      · cases h
      · split at h
        · cases h
        · rename_i hgeometry
          cases h
          rw [not_or, not_or, not_not] at hgeometry
          exact sound_initial hgeometry.2.1 (by omega)
  | step h hop hstep ih => exact ((ih.respond hop).ok_of hstep).1
  | failed h hop hstep ih =>
      have ht := (ih.respond hop).err_of hstep
      rw [ht]
      exact ih

/-- Every terminal credit is a live request or a terminal completion that
userspace has not passed, and no publication overwrites such a completion. -/
theorem credits_cover_completions (h : Reached ring capacity cqEntries r l) :
    (r.terminalCredits = r.slots.countP (fun slot => slot.entry.isSome) + (l.log.drop l.reaped).count true ∧
      r.terminalCredits ≤ r.cqEntries) ∧
    (r.cqHead = BitVec.ofNat 32 l.reaped ∧ r.cqTail = BitVec.ofNat 32 l.log.length ∧
      (r.cqTail - r.cqHead).toNat = l.log.length - l.reaped ∧ (r.cqTail - r.cqHead).toNat ≤ r.cqEntries) ∧
    (r.publicationInFlight.isSome → ∀ k, l.reaped ≤ k → k < l.log.length →
      r.cqSlot r.cqTail ≠ r.cqSlot (BitVec.ofNat 32 k)) ∧
    (∀ i : Nat, r.publishedTerminal[i]? = some true ↔
      ∃ k : Nat, l.reaped ≤ k ∧ l.log[k]? = some true ∧ i = r.cqSlot (BitVec.ofNat 32 k)) ∧
    (r.freeSlots.Nodup ∧ ∀ i : Nat, i ∈ r.freeSlots ↔
      ∃ slot, r.slots[i]? = some slot ∧ slot.entry = none ∧ slot.generation.isSome) ∧
    l.issued.Nodup ∧
    ∀ op, Permits r op → (respond op r).1 ≠ .panic ∧
      (∀ publication t, respond op r = (.ok (.planned publication), t) →
        t.publicationInFlight = some publication.id ∧ publication.slot = t.cqSlot t.cqTail) ∧
      ∀ publication t, respond op r = (.ok (.published publication), t) →
        r.publicationInFlight = some publication.id ∧ publication.slot = r.cqSlot r.cqTail := by
  have hs := h.sound
  have hroom := hs.room
  refine ⟨⟨?_, hs.bounded⟩, ⟨hs.head, hs.tail, ?_⟩, ?_, ?_, ⟨hs.slots.nodup, ?_⟩, hs.slots.once, ?_⟩
  · have hlive : r.live = r.slots.countP (fun slot => slot.entry.isSome) := List.countP_map ..
    rw [← hlive]
    exact hs.credits
  · have hcq := cqEntries_le hs
    rw [hs.head, hs.tail, toNat_sub_ofNat hs.reaped (by omega)]
    omega
  · intro hin k hk hlt hslot
    obtain ⟨id, hid⟩ := Option.isSome_iff_exists.mp hin
    rw [inFlight, hid, Option.toList_some, List.length_singleton] at hroom
    rw [hs.tail, cqSlot_ofNat hs, cqSlot_ofNat hs] at hslot
    have heq := Marks.eq_of_mod hlt.le (by omega) hslot.symm
    omega
  · intro i
    rw [hs.marks.marked]
    constructor
    · rintro ⟨_, k, hk, hlog, rfl⟩
      exact ⟨k, hk, hlog, (cqSlot_ofNat hs k).symm⟩
    · rintro ⟨k, hk, hlog, rfl⟩
      rw [cqSlot_ofNat hs]
      exact ⟨Nat.mod_lt _ (cqEntries_pos hs), k, hk, hlog, rfl⟩
  · intro i
    rw [hs.slots.free i, shapes, List.getElem?_map]
    constructor
    · rintro ⟨g, hg⟩
      obtain ⟨slot, hslot, heq⟩ := Option.map_eq_some_iff.mp hg
      simp only [Prod.mk.injEq] at heq
      exact ⟨slot, hslot, by simpa using heq.2, by simp [heq.1]⟩
    · rintro ⟨slot, hslot, hvacant, hsome⟩
      obtain ⟨g, hg⟩ := Option.isSome_iff_exists.mp hsome
      exact ⟨g, by simp [hslot, hvacant, hg]⟩
  · intro op hop
    have hrespond := hs.respond hop
    refine ⟨fun hpanic => hrespond.panic_of hpanic, ?_, ?_⟩
    · intro publication t ht
      exact (hrespond.ok_of ht).2
    · intro publication t ht
      exact (hrespond.ok_of ht).2

/-- The responses to calls that all return, and the registry they leave. -/
def respondAll : List Op → RequestRegistry → Option (List Response × RequestRegistry)
  | [], r => some ([], r)
  | op :: ops, r =>
      match respond op r with
      | (.ok response, t) => (respondAll ops t).map fun result => (response :: result.1, result.2)
      | _ => none

theorem Reached.respondAll {ops : List Op} {responses : List Response} (h : Reached ring capacity cqEntries r l)
    (hops : ∀ op ∈ ops, ∀ r, Permits r op) (hrun : respondAll ops r = some (responses, t)) :
    Reached ring capacity cqEntries t (responses.foldl record l) := by
  induction ops generalizing r l responses with
  | nil =>
      cases hrun
      exact h
  | cons op ops ih =>
      rw [RequestRegistry.respondAll] at hrun
      split at hrun
      · rename_i response s hstep
        obtain ⟨⟨rest, t'⟩, hrest, heq⟩ := Option.map_eq_some_iff.mp hrun
        cases heq
        rw [List.foldl_cons]
        exact ih (h.step (hops op List.mem_cons_self r) hstep) (fun op hop => hops op (List.mem_cons_of_mem _ hop))
          hrest
      · cases hrun

-- A read that stays issued behind a completion with `MORE`, and a `nop` whose
-- terminal completion is published.
def mixedOps : List Op :=
  [.reserve ⟨7, .read⟩, .commit ⟨⟨1, 0, 1⟩, ⟨7, .read⟩⟩, .issue ⟨⟨1, 0, 1⟩, ⟨7, .read⟩⟩ none,
    .beginNonterminalShot ⟨⟨1, 0, 1⟩, ⟨7, .read⟩, .cancellable⟩,
    .publishNonterminal ⟨⟨1, 0, 1⟩, ⟨7, .read⟩, .cancellable⟩ 5 2, .commitPublication ⟨⟨1, 0, 1⟩, ⟨7, 5, 2⟩,
      0, 1, false⟩,
    .reserve ⟨8, .nop⟩, .commit ⟨⟨1, 1, 1⟩, ⟨8, .nop⟩⟩, .issue ⟨⟨1, 1, 1⟩, ⟨8, .nop⟩⟩ none,
    .claimTerminal ⟨1, 1, 1⟩ .completed, .finishTerminal ⟨⟨1, 1, 1⟩, ⟨8, .nop⟩, .completed⟩ 0 0, .publish ⟨⟨1, 1, 1⟩⟩,
    .commitPublication ⟨⟨1, 1, 1⟩, ⟨8, 0, 0⟩, 1, 2, true⟩]

theorem credits_cover_completions_mixed : ∃ responses r, respondAll mixedOps (initial 1 2 4) = some (responses, r) ∧
    responses.foldl record ⟨[], 0, []⟩ = ⟨[false, true], 0, [(1, 1), (0, 1)]⟩ ∧
    r.terminalCredits = r.slots.countP (fun slot => slot.entry.isSome) + [false, true].count true ∧
    r.slots.countP (fun slot => slot.entry.isSome) = 1 ∧ (r.cqTail - r.cqHead).toNat = 2 ∧
    (∀ i : Nat, r.publishedTerminal[i]? = some true ↔
      ∃ k : Nat, 0 ≤ k ∧ [false, true][k]? = some true ∧ i = r.cqSlot (BitVec.ofNat 32 k)) ∧
    r.publishedTerminal = [false, true, false, false] ∧ r.freeSlots = [1] := by
  have hrun : ∃ responses r, respondAll mixedOps (initial 1 2 4) = some (responses, r) ∧
      responses.foldl record ⟨[], 0, []⟩ = ⟨[false, true], 0, [(1, 1), (0, 1)]⟩ ∧
      r.slots.countP (fun slot => slot.entry.isSome) = 1 ∧ r.publishedTerminal = [false, true, false, false] ∧
      r.freeSlots = [1] := ⟨_, _, rfl, rfl, rfl, rfl, rfl⟩
  have hpermits : ∀ op ∈ mixedOps, ∀ r, Permits r op := by
    intro op hop r
    simp only [mixedOps, List.mem_cons, List.not_mem_nil, or_false] at hop
    rcases hop with rfl | rfl | rfl | rfl | rfl | rfl | rfl | rfl | rfl | rfl | rfl | rfl | rfl <;> exact trivial
  obtain ⟨responses, r, hrun, hledger, hlive, hmarks, hfree⟩ := hrun
  have hreached := Reached.respondAll (.start (show new 1 2 4 = .ok (initial 1 2 4) by decide)) hpermits hrun
  rw [hledger] at hreached
  obtain ⟨⟨hcredits, -⟩, ⟨-, -, hcount, -⟩, -, hmarked, -⟩ := credits_cover_completions hreached
  exact ⟨responses, r, hrun, hledger, hcredits, hlive, hcount, hmarked, hmarks, hfree⟩

def Op.Idle : Op → Prop
  | .observeCompletionHead _ | .beginClose | .beginDraining | .discardPublished | .finishClose | .progress => True
  | _ => False

end RequestRegistry

open RequestRegistry

/-- The requests as the callers know them: by their ids, which are used once. -/
structure Board where
  entries : RequestId → Option RequestEntry
  planned : Option RequestId
  shot : Option RequestId
  next : Nat × BitVec 32
  used : List RequestId

namespace Board

def put (b : Board) (id : RequestId) (entry : Option RequestEntry) : Board :=
  { b with entries := Function.update b.entries id entry }

def restate (b : Board) (id : RequestId) (entry : RequestEntry) (state : EntryState) : Board :=
  b.put id (some { entry with state := state })

/-- The reservation for a nonterminal completion goes with the shot. -/
def unshot (b : Board) (id : RequestId) : Board := { b with shot := if b.shot = some id then none else b.shot }

def Claims (cause : TerminalCause) (state : EntryState) : Prop :=
  state = .prepared ∨ ∃ mode, state = .issued mode ∧ (mode = .cancellable ∨ cause = .completed)

/-- What every call that returns does to the requests. -/
inductive Step (b : Board) : Op → Response → Board → Prop
  | reserve {descriptor : RequestDescriptor} {sequence : Nat} {id : RequestId} (hused : id ∉ b.used)
      (hnone : b.entries id = none) :
      Step b (.reserve descriptor) (.reserved ⟨id, descriptor⟩)
        { b.put id (some ⟨descriptor, sequence, .reserved⟩) with used := id :: b.used }
  | rollback {reservation : RequestReservation} {e : RequestEntry} (he : b.entries reservation.id = some e)
      (hstate : e.state = .reserved) : Step b (.rollback reservation) .done (b.put reservation.id none)
  | commit {reservation : RequestReservation} {e : RequestEntry} (he : b.entries reservation.id = some e)
      (hstate : e.state = .reserved) :
      Step b (.commit reservation) (.prepared ⟨reservation.id, e.descriptor⟩) (b.restate reservation.id e .prepared)
  | issue {prepared : PreparedRequest} {overrideMode : Option CancellationMode} {mode : CancellationMode}
      {e : RequestEntry} (he : b.entries prepared.id = some e) (hstate : e.state = .prepared) :
      Step b (.issue prepared overrideMode) (.issued ⟨prepared.id, e.descriptor, mode⟩)
        (b.restate prepared.id e (.issued mode))
  | beginNonterminalShot {issued : IssuedRequest} {e : RequestEntry} (he : b.entries issued.id = some e)
      (hstate : e.state = .issued issued.cancellationMode) (hshot : b.shot = none) :
      Step b (.beginNonterminalShot issued) .done
        { b.restate issued.id e (.shotInFlight issued.cancellationMode) with shot := some issued.id }
  | beginSideEffect {issued : IssuedRequest} {e : RequestEntry} (he : b.entries issued.id = some e)
      (hstate : e.state = .issued issued.cancellationMode) :
      Step b (.beginSideEffect issued) .done (b.restate issued.id e (.shotInFlight issued.cancellationMode))
  | abortNonterminalShot {issued : IssuedRequest} {e : RequestEntry} (he : b.entries issued.id = some e)
      (hstate : e.state = .shotInFlight issued.cancellationMode) :
      Step b (.abortNonterminalShot issued) .done
        ((b.restate issued.id e (.issued issued.cancellationMode)).unshot issued.id)
  | claimTerminalAfterNonterminalShot {issued : IssuedRequest} {cause : TerminalCause} {e : RequestEntry}
      (he : b.entries issued.id = some e) (hstate : e.state = .shotInFlight issued.cancellationMode)
      (hdescriptor : e.descriptor = issued.descriptor) :
      Step b (.claimTerminalAfterNonterminalShot issued cause) (.permitted ⟨issued.id, e.descriptor, cause⟩)
        ((b.restate issued.id e (.terminalClaimed cause)).unshot issued.id)
  | claimCancellableAtSlot {slotIndex : Nat} {cause : TerminalCause} {id : RequestId} {e : RequestEntry}
      (he : b.entries id = some e) (hstate : e.state = .issued .cancellable) :
      Step b (.claimCancellableAtSlot slotIndex cause) (.permitted ⟨id, e.descriptor, cause⟩)
        (b.restate id e (.terminalClaimed cause))
  | skipSlot {slotIndex : Nat} {cause : TerminalCause} : Step b (.claimCancellableAtSlot slotIndex cause) .done b
  | claimTerminal {id : RequestId} {cause : TerminalCause} {e : RequestEntry} (he : b.entries id = some e)
      (hstate : Claims cause e.state) :
      Step b (.claimTerminal id cause) (.permitted ⟨id, e.descriptor, cause⟩) (b.restate id e (.terminalClaimed cause))
  | claimCancel {selector : CancelSelector} {exclude : Option RequestId} {id : RequestId} {e : RequestEntry}
      (he : b.entries id = some e) (hstate : Claims .cancelled e.state)
      (hnamed : ∀ id', selector = .request id' → id' = id) :
      Step b (.claimCancel selector exclude) (.permitted ⟨id, e.descriptor, .cancelled⟩)
        (b.restate id e (.terminalClaimed .cancelled))
  | selectProviderCancelCandidate {selector : CancelSelector} {exclude : Option RequestId} {owned : RequestId → Bool}
      {id : RequestId} {mode : CancellationMode} {e : RequestEntry} (he : b.entries id = some e)
        (hstate : e.state = .issued mode)
      (hnamed : ∀ id', selector = .request id' → id' = id) :
      Step b (.selectProviderCancelCandidate selector exclude owned) (.selected id)
        (b.restate id e (.shotInFlight mode))
  | beginProviderCancel {id : RequestId} {mode : CancellationMode} {e : RequestEntry} (he : b.entries id = some e)
      (hstate : e.state = .issued mode) : Step b (.beginProviderCancel id) .done (b.restate id e (.shotInFlight mode))
  | providerCancelled {id : RequestId} {mode : CancellationMode} {e : RequestEntry} (he : b.entries id = some e)
      (hstate : e.state = .shotInFlight mode) :
      Step b (.finishProviderCancel id .cancelled) (.permitted ⟨id, e.descriptor, .cancelled⟩)
        ((b.restate id e (.terminalClaimed .cancelled)).unshot id)
  | providerInFlight {id : RequestId} {mode : CancellationMode} {e : RequestEntry} (he : b.entries id = some e)
      (hstate : e.state = .shotInFlight mode) :
      Step b (.finishProviderCancel id .inFlight) .done (b.restate id e (.issued mode))
  | finishTerminal {permit : TerminalPermit} {result flags : BitVec 32} {e : RequestEntry}
      (he : b.entries permit.id = some e) (hstate : e.state = .terminalClaimed permit.cause) :
      Step b (.finishTerminal permit result flags) (.completed ⟨permit.id⟩)
        (b.restate permit.id e (.completionPending ⟨e.descriptor.userData, result, flags⟩))
  | publish {token : CompletionToken} {completion : Completion} {e : RequestEntry} (he : b.entries token.id = some e)
      (hstate : e.state = .completionPending completion) (hplanned : b.planned = none) :
      Step b (.publish token) (.planned ⟨token.id, completion, b.next.1, b.next.2, true⟩)
        { b.restate token.id e (.publishing completion) with planned := some token.id }
  | publishNonterminal {issued : IssuedRequest} {result flags : BitVec 32} {e : RequestEntry}
      (he : b.entries issued.id = some e) (hstate : e.state = .shotInFlight issued.cancellationMode)
      (hshot : b.shot = some issued.id) (hplanned : b.planned = none) :
      Step b (.publishNonterminal issued result flags)
        (.planned ⟨issued.id, ⟨e.descriptor.userData, result, flags⟩, b.next.1, b.next.2, false⟩)
        { b with planned := some issued.id, shot := none }
  | commitTerminal {publication : CompletionPublication} {next : Nat × BitVec 32} {e : RequestEntry}
      (he : b.entries publication.id = some e) (hstate : e.state = .publishing publication.completion)
      (hplanned : b.planned = some publication.id) (hterminal : publication.terminal = true) :
      Step b (.commitPublication publication) (.published publication)
        { b.put publication.id none with planned := none, next := next }
  | commitNonterminal {publication : CompletionPublication} {mode : CancellationMode} {next : Nat × BitVec 32}
      {e : RequestEntry} (he : b.entries publication.id = some e) (hstate : e.state = .shotInFlight mode)
      (hplanned : b.planned = some publication.id) (hterminal : publication.terminal = false) :
      Step b (.commitPublication publication) (.published publication)
        { b.restate publication.id e (.issued mode) with planned := none, next := next }
  | rollbackPublication {publication : CompletionPublication} {e : RequestEntry}
      (he : b.entries publication.id = some e)
      (hstate : e.state = .publishing publication.completion) (hplanned : b.planned = some publication.id) :
      Step b (.rollbackPublication publication) (.completed ⟨publication.id⟩)
        { b.restate publication.id e (.completionPending publication.completion) with planned := none }
  | rollbackNonterminalPublication {publication : CompletionPublication} {mode : CancellationMode} {e : RequestEntry}
      (he : b.entries publication.id = some e) (hstate : e.state = .shotInFlight mode)
      (hplanned : b.planned = some publication.id) :
      Step b (.rollbackNonterminalPublication publication) .done
        { b.restate publication.id e (.issued mode) with planned := none }
  | discardCompletion {token : CompletionToken} {completion : Completion} {e : RequestEntry}
      (he : b.entries token.id = some e) (hstate : e.state = .completionPending completion) :
      Step b (.discardCompletion token) .done (b.put token.id none)
  | idle {op : Op} (hidle : op.Idle) : Step b op .done b
  | passed {op : Op} {count : Nat} (hidle : op.Idle) : Step b op (.passed count) b

end Board

end TheKernel.IoUring
