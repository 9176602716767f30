import Mathlib.Data.List.Range
import TheKernel.Lib.Action
import TheKernel.Lib.Machine

namespace TheKernel.IoUring

open Outcome Act

inductive IoUringError where
  | overflow
  | generationExhausted
  | invalidQueueGeometry
  | corruptCompletionHead
  | completionQueueFull
  | requestCapacityExceeded
  | unknownRequest
  | invalidRequestState
  | requestUncancellable
  | terminalAlreadyClaimed
  | completionNotPending
  | publicationInFlight
  | invalidCompletionConsumption
  | closing
  | draining
  | closed
  | invalidLifecycleTransition
  | busy
  | cancellationTargetNotFound
  deriving DecidableEq

inductive CancellationMode where
  | cancellable
  | providerControlled
  | uncancellable
  deriving DecidableEq

inductive RequestOperation where
  | nop
  | read
  | write
  | openAt2
  | fsync
  | close
  | fadvise
  | syncFileRange
  | fallocate
  | shutdown
  | pollAdd
  | timeout
  | timeoutRemove
  | pollRemove
  | asyncCancel
  | provideBuffers
  | removeBuffers
  | accept
  | uringCmd
  | rejected (opcode : BitVec 8)
  deriving DecidableEq

def RequestOperation.cancellationMode : RequestOperation → CancellationMode
  | .pollAdd | .timeout | .read | .accept => .cancellable
  | _ => .uncancellable

structure RequestDescriptor where
  userData : BitVec 64
  operation : RequestOperation
  deriving DecidableEq

structure RequestId where
  ring : Nat
  slot : Nat
  generation : Nat
  deriving DecidableEq

inductive RequestLifecycle where
  | opened
  | closing
  | draining
  | closed
  deriving DecidableEq

inductive TerminalCause where
  | completed
  | cancelled
  | closing
  | preparationFailed
  deriving DecidableEq

inductive CancelSelector where
  | userData (data : BitVec 64)
  | timeoutUserData (data : BitVec 64)
  | request (id : RequestId)

def CancelSelector.matches : CancelSelector → RequestDescriptor → Bool
  | .userData data, descriptor => descriptor.userData = data
  | .timeoutUserData data, descriptor => descriptor.userData = data ∧ descriptor.operation = .timeout
  | .request _, _ => false

inductive ProviderCancelOutcome where
  | cancelled
  | inFlight

structure Completion where
  userData : BitVec 64
  result : BitVec 32
  flags : BitVec 32
  deriving DecidableEq

structure RequestReservation where
  id : RequestId
  descriptor : RequestDescriptor

structure PreparedRequest where
  id : RequestId
  descriptor : RequestDescriptor

structure IssuedRequest where
  id : RequestId
  descriptor : RequestDescriptor
  cancellationMode : CancellationMode

structure RequestIssueError where
  error : IoUringError
  prepared : PreparedRequest

structure TerminalPermit where
  id : RequestId
  descriptor : RequestDescriptor
  cause : TerminalCause
  deriving DecidableEq

structure CompletionToken where
  id : RequestId

structure CompletionPublication where
  id : RequestId
  completion : Completion
  slot : Nat
  newTail : BitVec 32
  terminal : Bool
  deriving DecidableEq

inductive EntryState where
  | reserved
  | prepared
  | issued (mode : CancellationMode)
  | shotInFlight (mode : CancellationMode)
  | terminalClaimed (cause : TerminalCause)
  | completionPending (completion : Completion)
  | publishing (completion : Completion)
  deriving DecidableEq

structure RequestEntry where
  descriptor : RequestDescriptor
  sequence : Nat
  state : EntryState
  deriving DecidableEq

structure RequestSlot where
  generation : Option Nat
  entry : Option RequestEntry
  deriving DecidableEq

structure RequestProgress where
  lifecycle : RequestLifecycle
  reserved : Nat
  prepared : Nat
  issued : Nat
  uncancellableIssued : Nat
  terminalClaimed : Nat
  completionPending : Nat
  publishing : Nat
  terminalCredits : Nat
  published : Nat

structure RequestRegistry where
  ring : Nat
  capacity : Nat
  slots : List RequestSlot
  freeSlots : List Nat
  nextSequence : Option Nat
  lifecycle : RequestLifecycle
  cqEntries : Nat
  cqHead : BitVec 32
  cqTail : BitVec 32
  terminalCredits : Nat
  publicationInFlight : Option RequestId
  nonterminalReservations : Nat
  nonterminalReservation : Option RequestId
  publishedTerminal : List Bool
  deriving DecidableEq

namespace RequestRegistry

def maxEntries : Nat := 32768

def maxCqEntries : Nat := 65536

/-- The registry that `new` returns. -/
def initial (ring requestCapacity cqEntries : Nat) : RequestRegistry :=
  ⟨ring, requestCapacity, List.replicate requestCapacity ⟨some 1, none⟩, (List.range requestCapacity).reverse, some 1,
    .opened, cqEntries, 0, 0, 0, none, 0, none, List.replicate cqEntries false⟩

def new (ring requestCapacity cqEntries : Nat) : Outcome IoUringError RequestRegistry :=
  if requestCapacity = 0 ∨ maxEntries < requestCapacity then .err .requestCapacityExceeded
  else if cqEntries = 0 ∨ 2 ^ cqEntries.log2 ≠ cqEntries ∨ maxCqEntries < cqEntries then .err .invalidQueueGeometry
  else .ok (initial ring requestCapacity cqEntries)

def nextGeneration (generation : Nat) : Option Nat := checkedAddBits 64 generation 1

def entry (r : RequestRegistry) (id : RequestId) : Outcome IoUringError RequestEntry :=
  if id.ring ≠ r.ring then .err .unknownRequest
  else
    match r.slots[id.slot]? with
    | none => .err .unknownRequest
    | some slot =>
        if slot.generation ≠ some id.generation then .err .unknownRequest
        else
          match slot.entry with
          | none => .err .unknownRequest
          | some entry => .ok entry

def setState (r : RequestRegistry) (id : RequestId) (state : EntryState) : RequestRegistry :=
  { r with slots := r.slots.modify id.slot fun slot =>
      { slot with entry := slot.entry.map fun entry => { entry with state := state } } }

def publishedCount (r : RequestRegistry) : Outcome IoUringError Nat :=
  let published := (r.cqTail - r.cqHead).toNat
  if published ≤ r.cqEntries then .ok published else .err .invalidQueueGeometry

def cqSlot (r : RequestRegistry) (counter : BitVec 32) : Nat := (counter &&& BitVec.ofNat 32 (r.cqEntries - 1)).toNat

abbrev Call (α : Type) := Act RequestRegistry IoUringError α

def clearSlot (id : RequestId) : Call Unit := do
  let r ← Act.get
  if id.ring ≠ r.ring then fail .unknownRequest
  else
    match r.slots[id.slot]? with
    | none => fail .unknownRequest
    | some slot =>
        if slot.generation ≠ some id.generation ∨ slot.entry = none then fail .unknownRequest
        else do
          let next := nextGeneration id.generation
          Act.set { r with slots := r.slots.set id.slot ⟨next, none⟩ }
          if next = none then pure ()
          else if r.slots.length ≤ r.freeSlots.length then fail .invalidRequestState
          else Act.modify fun r => { r with freeSlots := r.freeSlots ++ [id.slot] }

def refundCredits (count : Nat) : Call Unit := do
  let r ← Act.get
  let credits ← okOr (checkedSub r.terminalCredits count) .invalidCompletionConsumption
  Act.modify fun r => { r with terminalCredits := credits }

def reserve (descriptor : RequestDescriptor) : Call RequestReservation := do
  let r ← Act.get
  match r.lifecycle with
  | .closing => fail .closing
  | .draining => fail .draining
  | .closed => fail .closed
  | .opened =>
      if r.cqEntries ≤ r.terminalCredits then fail .completionQueueFull
      else do
        let sequence ← okOr r.nextSequence .generationExhausted
        match r.freeSlots.getLast? with
        | none =>
            if r.slots.any fun slot => slot.entry.isSome then fail .requestCapacityExceeded
              else fail .generationExhausted
        | some slotIndex => do
            let slot ← okOr r.slots[slotIndex]? .requestCapacityExceeded
            if slot.entry.isSome then fail .invalidRequestState
            else do
              let generation ← okOr slot.generation .generationExhausted
              let id : RequestId := ⟨r.ring, slotIndex, generation⟩
              let credits ← okOr (checkedAddBits 32 r.terminalCredits 1) .overflow
              Act.set { r with
                terminalCredits := credits
                nextSequence := nextGeneration sequence
                freeSlots := r.freeSlots.dropLast
                slots := r.slots.set slotIndex { slot with entry := some ⟨descriptor, sequence, .reserved⟩ } }
              pure ⟨id, descriptor⟩

def rollback (reservation : RequestReservation) : Call Unit := do
  let r ← Act.get
  let entry ← lift (r.entry reservation.id)
  if entry.state ≠ .reserved then fail .invalidRequestState
  else do
    clearSlot reservation.id
    refundCredits 1

def commit (reservation : RequestReservation) : Call PreparedRequest := do
  let r ← Act.get
  let entry ← lift (r.entry reservation.id)
  if entry.state ≠ .reserved then fail .invalidRequestState
  else do
    Act.set (r.setState reservation.id .prepared)
    pure ⟨reservation.id, entry.descriptor⟩

def issueWithCancellationMode (prepared : PreparedRequest) (overrideMode : Option CancellationMode) :
    Act RequestRegistry RequestIssueError IssuedRequest := do
  let r ← Act.get
  let entry ← lift ((r.entry prepared.id).mapErr fun error => ⟨error, prepared⟩)
  match entry.state with
  | .prepared => do
      let mode := overrideMode.getD entry.descriptor.operation.cancellationMode
      Act.set (r.setState prepared.id (.issued mode))
      pure ⟨prepared.id, entry.descriptor, mode⟩
  | .terminalClaimed _ | .completionPending _ | .publishing _ | .shotInFlight _ =>
      fail ⟨.terminalAlreadyClaimed, prepared⟩
  | .reserved | .issued _ => fail ⟨.invalidRequestState, prepared⟩

/-- The check of `begin_nonterminal_shot`, `begin_side_effect`,
`abort_nonterminal_shot` and `claim_terminal_after_nonterminal_shot`. -/
def requireIssued (issued : IssuedRequest) (state : EntryState) : Call Unit := do
  let r ← Act.get
  let entry ← lift (r.entry issued.id)
  if entry.descriptor ≠ issued.descriptor ∨ entry.state ≠ state then fail .invalidRequestState else pure ()

def beginNonterminalShot (issued : IssuedRequest) : Call Unit := do
  let r ← Act.get
  if r.nonterminalReservation.isSome then fail .busy
  else do
    let unpublished ← okOr (checkedSub r.terminalCredits (r.publishedTerminal.count true)) .invalidRequestState
    let other ← okOr (checkedSub unpublished 1) .invalidRequestState
    let published ← lift r.publishedCount
    let used ← okOr (checkedAddBits 32 published other) .overflow
    let used ← okOr (checkedAddBits 32 used r.nonterminalReservations) .overflow
    if r.cqEntries ≤ used then fail .completionQueueFull
    else do
      requireIssued issued (.issued issued.cancellationMode)
      Act.modify fun r => r.setState issued.id (.shotInFlight issued.cancellationMode)
      let reservations ← okOr (checkedAddBits 32 r.nonterminalReservations 1) .overflow
      Act.modify fun r => { r with nonterminalReservations := reservations, nonterminalReservation := some issued.id }

def beginSideEffect (issued : IssuedRequest) : Call Unit := do
  requireIssued issued (.issued issued.cancellationMode)
  Act.modify fun r => r.setState issued.id (.shotInFlight issued.cancellationMode)

/-- The common end of `abort_nonterminal_shot` and
`claim_terminal_after_nonterminal_shot`. -/
def releaseReservation (id : RequestId) : Call Unit := do
  let r ← Act.get
  if r.nonterminalReservation = some id then do
    Act.modify fun r => { r with nonterminalReservation := none }
    let reservations ← okOr (checkedSub r.nonterminalReservations 1) .invalidRequestState
    Act.modify fun r => { r with nonterminalReservations := reservations }
  else pure ()

def abortNonterminalShot (issued : IssuedRequest) : Call Unit := do
  requireIssued issued (.shotInFlight issued.cancellationMode)
  Act.modify fun r => r.setState issued.id (.issued issued.cancellationMode)
  releaseReservation issued.id

def claimTerminalAfterNonterminalShot (issued : IssuedRequest) (cause : TerminalCause) : Call TerminalPermit := do
  requireIssued issued (.shotInFlight issued.cancellationMode)
  Act.modify fun r => r.setState issued.id (.terminalClaimed cause)
  releaseReservation issued.id
  pure ⟨issued.id, issued.descriptor, cause⟩

def claimTerminal (id : RequestId) (cause : TerminalCause) : Call TerminalPermit := do
  let r ← Act.get
  let entry ← lift (r.entry id)
  let claim : Call TerminalPermit := do
    Act.set (r.setState id (.terminalClaimed cause))
    pure ⟨id, entry.descriptor, cause⟩
  match entry.state with
  | .prepared | .issued .cancellable => claim
  | .issued .uncancellable | .issued .providerControlled =>
      if cause ≠ .completed then fail .requestUncancellable
      else claim
  | .terminalClaimed _ | .completionPending _ | .publishing _ | .shotInFlight _ => fail .terminalAlreadyClaimed
  | .reserved => fail .invalidRequestState

def claimCancellableAtSlot (slotIndex : Nat) (cause : TerminalCause) : Call (Option TerminalPermit) := do
  let r ← Act.get
  let slot ← okOr r.slots[slotIndex]? .unknownRequest
  match slot.entry, slot.generation with
  | some entry, some generation =>
      if entry.state ≠ .issued .cancellable then pure none
      else do
        let permit ← claimTerminal ⟨r.ring, slotIndex, generation⟩ cause
        pure (some permit)
  | _, _ => pure none

def older (candidate : Option (Nat × RequestId)) (sequence : Nat) (id : RequestId) : Option (Nat × RequestId) :=
  match candidate with
  | some (best, _) => if sequence < best then some (sequence, id) else candidate
  | none => some (sequence, id)

def cancelTurn (ring : Nat) (selector : CancelSelector) (exclude : Option RequestId) (slotIndex : Nat)
    (slot : RequestSlot)
    (candidate : Option (Nat × RequestId)) : Outcome IoUringError (Option (Nat × RequestId)) :=
  match slot.entry with
  | none => .ok candidate
  | some entry =>
      match slot.generation with
      | none => .err .generationExhausted
      | some generation =>
          let id : RequestId := ⟨ring, slotIndex, generation⟩
          if some id = exclude ∨ ¬ selector.matches entry.descriptor then .ok candidate
          else if entry.state = .prepared ∨ entry.state = .issued .cancellable then .ok
            (older candidate entry.sequence id)
          else .ok candidate

def claimCancel (selector : CancelSelector) (exclude : Option RequestId) : Call TerminalPermit := do
  let r ← Act.get
  match selector with
  | .request id =>
      if some id = exclude then fail .cancellationTargetNotFound
      else (claimTerminal id .cancelled).mapErr fun error =>
        match error with
        | .unknownRequest | .terminalAlreadyClaimed | .requestUncancellable => .cancellationTargetNotFound
        | error => error
  | .userData _ | .timeoutUserData _ => do
      let candidate ← lift (forEnum (cancelTurn r.ring selector exclude) 0 r.slots none)
      match candidate with
      | some (_, id) => claimTerminal id .cancelled
      | none => fail .cancellationTargetNotFound

def beginProviderCancel (id : RequestId) : Call Unit := do
  let r ← Act.get
  let entry ← lift (r.entry id)
  match entry.state with
  | .issued .cancellable => Act.set (r.setState id (.shotInFlight .cancellable))
  | .issued .providerControlled => Act.set (r.setState id (.shotInFlight .providerControlled))
  | _ => fail .cancellationTargetNotFound

def providerTurn (ring : Nat) (selector : CancelSelector) (exclude : Option RequestId) (owned : RequestId → Bool)
    (slotIndex : Nat) (slot : RequestSlot) (candidate : Option (Nat × RequestId)) :
    Outcome IoUringError (Option (Nat × RequestId)) :=
  match slot.entry, slot.generation with
  | some entry, some generation =>
      let id : RequestId := ⟨ring, slotIndex, generation⟩
      let named : Bool := match selector with
        | .request expected => id = expected
        | _ => selector.matches entry.descriptor
      if some id ≠ exclude ∧ named ∧ owned id ∧
          (entry.state = .issued .cancellable ∨ entry.state = .issued .providerControlled) then
        .ok (older candidate entry.sequence id)
      else .ok candidate
  | _, _ => .ok candidate

def selectProviderCancelCandidate (selector : CancelSelector) (exclude : Option RequestId) (owned : RequestId → Bool) :
    Call RequestId := do
  let r ← Act.get
  let candidate ← lift (forEnum (providerTurn r.ring selector exclude owned) 0 r.slots none)
  match candidate with
  | some (_, id) => do
      beginProviderCancel id
      pure id
  | none => fail .cancellationTargetNotFound

def finishProviderCancel (id : RequestId) (outcome : ProviderCancelOutcome) : Call (Option TerminalPermit) := do
  let r ← Act.get
  let entry ← lift (r.entry id)
  match entry.state with
  | .shotInFlight .uncancellable => fail .terminalAlreadyClaimed
  | .shotInFlight mode =>
      match outcome with
      | .cancelled => do
          let permit ← claimTerminalAfterNonterminalShot ⟨id, entry.descriptor, mode⟩ .cancelled
          pure (some permit)
      | .inFlight => do
          Act.set (r.setState id (.issued mode))
          pure none
  | _ => fail .terminalAlreadyClaimed

def finishTerminal (permit : TerminalPermit) (result flags : BitVec 32) : Call CompletionToken := do
  let r ← Act.get
  let entry ← lift (r.entry permit.id)
  if entry.state ≠ .terminalClaimed permit.cause then fail .invalidRequestState
  else do
    Act.set (r.setState permit.id (.completionPending ⟨entry.descriptor.userData, result, flags⟩))
    pure ⟨permit.id⟩

def requirePublishing (r : RequestRegistry) : Call Unit :=
  match r.lifecycle with
  | .draining => fail .draining
  | .closed => fail .closed
  | .opened | .closing => pure ()

def publish (token : CompletionToken) : Call CompletionPublication := do
  let r ← Act.get
  requirePublishing r
  if r.publicationInFlight.isSome then fail .publicationInFlight
  else do
    let entry ← lift (r.entry token.id)
    match entry.state with
    | .completionPending completion => do
        let published ← lift r.publishedCount
        let used ← okOr (checkedAddBits 32 published r.nonterminalReservations) .overflow
        if r.cqEntries ≤ used then fail .completionQueueFull
        else do
          Act.set { r.setState token.id (.publishing completion) with publicationInFlight := some token.id }
          pure ⟨token.id, completion, r.cqSlot r.cqTail, r.cqTail + 1, true⟩
    | _ => fail .completionNotPending

def publishNonterminal (issued : IssuedRequest) (result flags : BitVec 32) : Call CompletionPublication := do
  let r ← Act.get
  requirePublishing r
  if r.nonterminalReservation ≠ some issued.id ∨ r.publicationInFlight.isSome then fail .publicationInFlight
  else do
    let entry ← lift (r.entry issued.id)
    if entry.descriptor ≠ issued.descriptor ∨ entry.state ≠ .shotInFlight issued.cancellationMode then
      fail .invalidRequestState
    else do
      Act.set { r with publicationInFlight := some issued.id, nonterminalReservation := none }
      let reservations ← okOr (checkedSub r.nonterminalReservations 1) .invalidRequestState
      Act.modify fun r => { r with nonterminalReservations := reservations }
      pure ⟨issued.id, ⟨entry.descriptor.userData, result, flags⟩, r.cqSlot r.cqTail, r.cqTail + 1, false⟩

def retire (publication : CompletionPublication) (entry : RequestEntry) : Call Unit :=
  if publication.terminal then
    if entry.state ≠ .publishing publication.completion then fail .invalidRequestState else clearSlot publication.id
  else
    match entry.state with
    | .shotInFlight mode => Act.modify fun r => r.setState publication.id (.issued mode)
    | _ => fail .invalidRequestState

def advance (publication : CompletionPublication) : Call Unit := do
  let r ← Act.get
  if r.publishedTerminal.length ≤ publication.slot then fail .invalidQueueGeometry
  else Act.set { r with
    publishedTerminal := r.publishedTerminal.set publication.slot publication.terminal
    cqTail := publication.newTail
    publicationInFlight := none }

def commitPublication (publication : CompletionPublication) : Call Unit := do
  let r ← Act.get
  if r.publicationInFlight ≠ some publication.id then fail .publicationInFlight
  else if publication.slot ≠ r.cqSlot r.cqTail ∨ publication.newTail ≠ r.cqTail + 1 then fail .invalidQueueGeometry
  else do
    let entry ← lift (r.entry publication.id)
    retire publication entry
    advance publication

def rollbackPublication (publication : CompletionPublication) : Call CompletionToken := do
  let r ← Act.get
  if r.publicationInFlight ≠ some publication.id then fail .publicationInFlight
  else if ¬ publication.terminal then fail .invalidRequestState
  else do
    let entry ← lift (r.entry publication.id)
    if entry.state ≠ .publishing publication.completion then fail .invalidRequestState
    else do
      Act.set { r.setState publication.id (.completionPending publication.completion) with publicationInFlight := none }
      pure ⟨publication.id⟩

def rollbackNonterminalPublication (publication : CompletionPublication) : Call Unit := do
  let r ← Act.get
  if publication.terminal ∨ r.publicationInFlight ≠ some publication.id then fail .publicationInFlight
  else do
    let entry ← lift (r.entry publication.id)
    match entry.state with
    | .shotInFlight mode => Act.set { r.setState publication.id (.issued mode) with publicationInFlight := none }
    | _ => fail .invalidRequestState

def countMark (terminal : Nat) (mark : Bool) : Call Nat :=
  if mark then okOr (checkedAddBits 32 terminal 1) .overflow else pure terminal

/-- One turn of the loops of `observe_completion_head` and
`discard_published`: the count of terminal completions so far. -/
def reapTurn (terminal offset : Nat) : Call Nat := do
  let r ← Act.get
  let slot := r.cqSlot (r.cqHead + BitVec.ofNat 32 offset)
  let mark ← okOr r.publishedTerminal[slot]? .invalidQueueGeometry
  let terminal ← countMark terminal mark
  Act.modify fun r => { r with publishedTerminal := r.publishedTerminal.set slot false }
  pure terminal

def observeCompletionHead (userHead : BitVec 32) : Call Nat := do
  let r ← Act.get
  if r.publicationInFlight.isSome then fail .publicationInFlight
  else do
    let consumed := (userHead - r.cqHead).toNat
    let published ← lift r.publishedCount
    if published < consumed then fail .corruptCompletionHead
    else do
      let terminal ← (List.range consumed).foldlM reapTurn 0
      Act.modify fun r => { r with cqHead := userHead }
      refundCredits terminal
      pure consumed

def count (r : RequestRegistry) (p : EntryState → Bool) : Nat :=
  r.slots.countP fun slot => (slot.entry.map fun entry => p entry.state).getD false

def isInFlight : EntryState → Bool
  | .issued _ | .shotInFlight _ => true
  | _ => false

def isUncancellable : EntryState → Bool
  | .issued .uncancellable | .shotInFlight .uncancellable => true
  | _ => false

def isTerminalClaimed : EntryState → Bool
  | .terminalClaimed _ => true
  | _ => false

def isCompletionPending : EntryState → Bool
  | .completionPending _ => true
  | _ => false

def isPublishing : EntryState → Bool
  | .publishing _ => true
  | _ => false

def progress : Call RequestProgress := do
  let r ← Act.get
  let published ← lift r.publishedCount
  pure ⟨r.lifecycle, r.count (· = .reserved), r.count (· = .prepared), r.count isInFlight, r.count isUncancellable,
    r.count isTerminalClaimed, r.count isCompletionPending, r.count isPublishing, r.terminalCredits, published⟩

def beginClose : Call RequestProgress := do
  Act.modify fun r => if r.lifecycle = .opened then { r with lifecycle := .closing } else r
  progress

def beginDraining : Call RequestProgress := do
  let r ← Act.get
  if r.lifecycle = .draining then progress
  else if r.lifecycle ≠ .closing then fail .invalidLifecycleTransition
  else if r.slots.any fun slot => (slot.entry.map fun entry => !isCompletionPending entry.state).getD false then
    fail .busy
  else do
    Act.modify fun r => { r with lifecycle := .draining }
    progress

def discardCompletion (token : CompletionToken) : Call Unit := do
  let r ← Act.get
  if r.lifecycle ≠ .draining then fail .invalidLifecycleTransition
  else do
    let entry ← lift (r.entry token.id)
    if ¬ isCompletionPending entry.state then fail .invalidRequestState
    else do
      clearSlot token.id
      refundCredits 1

def discardPublished : Call Nat := do
  let r ← Act.get
  if r.lifecycle ≠ .draining then fail .invalidLifecycleTransition
  else if r.publicationInFlight.isSome then fail .publicationInFlight
  else do
    let published ← lift r.publishedCount
    let terminal ← (List.range published).foldlM reapTurn 0
    Act.modify fun r => { r with cqHead := r.cqTail }
    refundCredits terminal
    pure published

def finishClose : Call Unit := do
  let r ← Act.get
  match r.lifecycle with
  | .opened => fail .invalidLifecycleTransition
  | .closed => pure ()
  | .closing | .draining =>
      if r.publicationInFlight.isSome ∨ (r.slots.any fun slot => slot.entry.isSome) ∨ r.terminalCredits ≠
        0 then fail .busy
      else Act.modify fun r => { r with lifecycle := .closed }

end RequestRegistry

end TheKernel.IoUring
