import TheKernel.Lib.Action
import TheKernel.Lib.Machine
import TheKernel.Lib.Ring
import TheKernel.Lib.Slots

namespace TheKernel.Fd

open Outcome Act

abbrev ReadyMask := BitVec 32

/-- Error, hangup and invalid descriptor. -/
def ReadyMask.unconditional : ReadyMask := 0x38

def interestAll : BitVec 32 := 0x23C7

structure InterestMask where
  bits : BitVec 32
  known : bits &&& ~~~interestAll = 0

def ReadyMask.deliverable (ready : ReadyMask) (interest : InterestMask) : ReadyMask :=
  ready &&& (interest.bits ||| ReadyMask.unconditional)

structure InterestMode where
  edge : Bool
  oneShot : Bool
  exclusive : Bool

structure EpollKey where
  ofd : Nat
  fd : Nat
  deriving DecidableEq

structure EpollInterest (U S : Type) where
  key : EpollKey
  interest : InterestMask
  mode : InterestMode
  userData : U
  subscription : S

@[ext] structure EpollToken where
  epoll : Nat
  slot : Nat
  generation : Nat
  deriving DecidableEq

structure DeliveryToken where
  interest : EpollToken
  serial : Nat
  events : ReadyMask
  deriving DecidableEq

structure DeliveryPreparation where
  interest : EpollToken

structure ReadyEvent (V : Type) where
  delivery : DeliveryToken
  events : ReadyMask
  userData : V

inductive DeliveryOutcome where
  | copied (stillReady : ReadyMask)
  | suppressed
  | fault

inductive NotifyOutcome where
  | enqueued
  | coalesced
  | ignored

inductive EpollError where
  | noMemory
  | capacity
  | duplicate
  | notFound
  | staleToken
  | unsupportedMode
  | generationExhausted
  | readyQueueFull
  | rescanRequired

structure RescanProgress where
  scanned : Nat
  enqueued : Nat
  complete : Bool

structure EpollPublishError (U S : Type) where
  error : EpollError
  interest : EpollInterest U S

structure DeliveryCommitError (V : Type) where
  error : EpollError
  userData : V

structure RescanToken where
  epoll : Nat
  generation : Nat

structure Entry (U S : Type) where
  generation : Nat
  interest : EpollInterest U S
  enabled : Bool
  queued : Bool
  inDelivery : Option Nat
  ready : ReadyMask
  duringDelivery : ReadyMask

def Entry.finished {U S : Type} (entry : Entry U S) (events : ReadyMask) : DeliveryOutcome → Entry U S
  | .fault =>
      { entry with inDelivery := none, ready := entry.ready ||| (events ||| entry.duringDelivery), duringDelivery := 0 }
  | .suppressed => { entry with inDelivery := none, ready := entry.ready ||| entry.duringDelivery, duringDelivery := 0 }
  | .copied stillReady =>
      { entry with
        inDelivery := none
        ready :=
          if entry.interest.mode.edge then entry.ready ||| entry.duringDelivery
          else entry.ready ||| entry.duringDelivery ||| stillReady.deliverable entry.interest.interest
        enabled := if entry.interest.mode.oneShot then false else entry.enabled
        duringDelivery := 0 }

structure RescanState where
  generation : Nat
  cursor : Nat
  remaining : Nat

abbrev ReadyQueue := Ring EpollToken

structure EpollCore (U S : Type) where
  id : Nat
  entries : List (Option (Entry U S))
  ready : ReadyQueue
  nextGeneration : Nat
  nextDelivery : Nat
  nextRescan : Nat
  rescan : Option RescanState

namespace EpollCore

variable {U S V : Type}

/-- The core that `try_new` returns. -/
def initial (id capacity : Nat) : EpollCore U S :=
  ⟨id, List.replicate capacity none, ⟨List.replicate capacity ⟨id, 0, 0⟩, 0, 0⟩, 1, 1, 1, none⟩

def tryNew (id capacity : Nat) : Outcome EpollError (EpollCore U S) :=
  if capacity = usizeMax then .err .capacity else .ok (initial id capacity)

def allocateGeneration : Act (EpollCore U S) EpollError Nat := do
  let c ← get
  match checkedAdd c.nextGeneration 1 with
  | none => fail .generationExhausted
  | some next => do
      set { c with nextGeneration := next }
      pure c.nextGeneration

def allocateDelivery : Act (EpollCore U S) EpollError Nat := do
  let c ← get
  match checkedAdd c.nextDelivery 1 with
  | none => fail .generationExhausted
  | some next => do
      set { c with nextDelivery := next }
      pure c.nextDelivery

def startRescan : Act (EpollCore U S) EpollError Unit := do
  let c ← get
  match checkedAdd c.nextRescan 1 with
  | none => fail .generationExhausted
  | some next => set { c with nextRescan := next, rescan := some ⟨c.nextRescan, 0, c.entries.length⟩ }

def validateMode (mode : InterestMode) : Outcome EpollError Unit :=
  if mode.exclusive then .err .unsupportedMode else .ok ()

def entry (c : EpollCore U S) (token : EpollToken) : Outcome EpollError (Entry U S) :=
  if token.epoll ≠ c.id then .err .staleToken
  else
    match c.entries[token.slot]? with
    | some (some entry) => if entry.generation = token.generation then .ok entry else .err .staleToken
    | _ => .err .staleToken

def setEntry (slot : Nat) (entry : Option (Entry U S)) (c : EpollCore U S) : EpollCore U S :=
  { c with entries := c.entries.set slot entry }

def add (interest : EpollInterest U S) : Act (EpollCore U S) (EpollPublishError U S) EpollToken := do
  let c ← get
  lift ((validateMode interest.mode).mapErr fun error => ⟨error, interest⟩)
  if c.entries.reduceOption.any (fun entry => entry.interest.key = interest.key) then fail ⟨.duplicate, interest⟩
  else
    match freeSlot c.entries with
    | none => fail ⟨.capacity, interest⟩
    | some slot => do
        let generation ← allocateGeneration.mapErr fun error => ⟨error, interest⟩
        modify (setEntry slot (some ⟨generation, interest, true, false, none, 0, 0⟩))
        pure ⟨c.id, slot, generation⟩

def replaced (id : Nat) (token : EpollToken) (generation : Nat) (replacement : EpollInterest U S) (old : Entry U S)
    (queue : ReadyQueue) : Entry U S × ReadyQueue :=
  let ready := old.ready.deliverable replacement.interest
  let queued := old.queued && ready != 0
  (⟨generation, replacement, true, queued, none, ready, 0⟩,
    if queued then queue.replace token ⟨id, token.slot, generation⟩ else queue.remove token)

def modifyInterest (token : EpollToken) (replacement : EpollInterest U S) :
    Act (EpollCore U S) (EpollPublishError U S) (EpollToken × EpollInterest U S) := do
  let c ← get
  lift ((validateMode replacement.mode).mapErr fun error => ⟨error, replacement⟩)
  match c.entry token with
  | .ok old =>
      if old.interest.key ≠ replacement.key then fail ⟨.staleToken, replacement⟩
      else do
        let generation ← allocateGeneration.mapErr fun error => ⟨error, replacement⟩
        let new := replaced c.id token generation replacement old c.ready
        modify fun c => { setEntry token.slot (some new.1) c with ready := new.2 }
        pure (⟨c.id, token.slot, generation⟩, old.interest)
  | _ => fail ⟨.staleToken, replacement⟩

def remove (token : EpollToken) : Act (EpollCore U S) EpollError (EpollInterest U S) := do
  let c ← get
  let old ← lift (c.entry token)
  modify fun c => { setEntry token.slot none c with ready := c.ready.remove token }
  pure old.interest

/-- A push onto the ready queue, with the rescan that one that fails asks for. -/
def enqueue (token : EpollToken) : Act (EpollCore U S) EpollError Unit := do
  let c ← get
  match c.ready.push token with
  | none => do
      startRescan
      fail .readyQueueFull
  | some queue => do
      set { c with ready := queue }
      let entry ← lift (c.entry token)
      modify (setEntry token.slot (some { entry with queued := true }))

def notify (token : EpollToken) (ready : ReadyMask) : Act (EpollCore U S) EpollError NotifyOutcome := do
  let c ← get
  let entry ← lift (c.entry token)
  if ¬ entry.enabled then pure .ignored
  else
    let deliverable := ready.deliverable entry.interest.interest
    if deliverable = 0 then pure .ignored
    else if entry.inDelivery.isSome then do
      modify (setEntry token.slot (some { entry with duringDelivery := entry.duringDelivery ||| deliverable }))
      pure .coalesced
    else do
      modify (setEntry token.slot (some { entry with ready := entry.ready ||| deliverable }))
      if entry.queued then pure .coalesced
      else do
        enqueue token
        pure .enqueued

def isQueued (c : EpollCore U S) (token : EpollToken) : Bool :=
  match c.entry token with
  | .ok entry => entry.queued
  | _ => false

/-- The loop of `prepare_delivery`, with the number of records in the queue. -/
def nextCandidate : Nat → Act (EpollCore U S) EpollError (Option EpollToken)
  | 0 => pure none
  | n + 1 => do
      let c ← get
      match c.ready.peek with
      | none => pure none
      | some token =>
          if c.isQueued token then pure (some token)
          else do
            set { c with ready := c.ready.pop.2 }
            nextCandidate n

def prepareDelivery : Act (EpollCore U S) EpollError (Option DeliveryPreparation) := do
  let c ← get
  let candidate ← nextCandidate c.ready.len
  match candidate with
  | some token => pure (some ⟨token⟩)
  | none => if c.rescan.isSome then fail .rescanRequired else pure none

def commitDelivery (preparation : DeliveryPreparation) (userData : V) :
    Act (EpollCore U S) (DeliveryCommitError V) (ReadyEvent V) := do
  let c ← get
  let token := preparation.interest
  if ¬ (c.ready.peek = some token ∧ c.isQueued token) then fail ⟨.staleToken, userData⟩
  else do
    let serial ← allocateDelivery.mapErr fun error => ⟨error, userData⟩
    modify fun c => { c with ready := c.ready.pop.2 }
    let entry ← lift ((c.entry token).mapErr fun error => ⟨error, userData⟩)
    modify (setEntry token.slot (some { entry with queued := false, inDelivery := some serial, ready := 0 }))
    pure ⟨⟨token, serial, entry.ready⟩, entry.ready, userData⟩

def finishDelivery (delivery : DeliveryToken) (outcome : DeliveryOutcome) : Act (EpollCore U S) EpollError Unit := do
  let c ← get
  let token := delivery.interest
  let entry ← lift (c.entry token)
  if entry.inDelivery ≠ some delivery.serial then fail .staleToken
  else do
    let entry := entry.finished delivery.events outcome
    modify (setEntry token.slot (some entry))
    if entry.enabled ∧ entry.ready ≠ 0 ∧ ¬ entry.queued then enqueue token else pure ()

/-- The loop of `rescan_ready` for `n` more slots, with the number of interests
it has enqueued. -/
def rescanLoop : Nat → RescanState → Nat → Act (EpollCore U S) EpollError (RescanState × Nat)
  | 0, state, enqueued => pure (state, enqueued)
  | n + 1, state, enqueued => do
      let c ← get
      let slot := state.cursor
      let cell ← expect c.entries[slot]?
      let next : RescanState :=
        { state with cursor := (state.cursor + 1) % c.entries.length, remaining := state.remaining - 1 }
      match cell with
      | none => rescanLoop n next enqueued
      | some entry =>
          if entry.enabled ∧ entry.ready ≠ 0 ∧ ¬ entry.queued ∧ entry.inDelivery = none then
            match c.ready.push ⟨c.id, slot, entry.generation⟩ with
            | none => do
                set { c with rescan := some state }
                fail .readyQueueFull
            | some queue => do
                set { setEntry slot (some { entry with queued := true }) c with ready := queue }
                rescanLoop n next (enqueued + 1)
          else rescanLoop n next enqueued

def rescanReady (token : RescanToken) (maxEntries : Nat) : Act (EpollCore U S) EpollError RescanProgress := do
  let c ← get
  match c.rescan with
  | none => fail .staleToken
  | some state =>
      if token.epoll ≠ c.id ∨ token.generation ≠ state.generation then fail .staleToken
      else if c.entries = [] ∨ state.remaining = 0 then do
        set { c with rescan := none }
        pure ⟨0, 0, true⟩
      else if maxEntries = 0 then pure ⟨0, 0, false⟩
      else do
        let target := min maxEntries state.remaining
        let reached ← rescanLoop target state 0
        let complete := reached.1.remaining = 0
        modify fun c => { c with rescan := if complete then none else some reached.1 }
        pure ⟨target, reached.2, complete⟩

end EpollCore

end TheKernel.Fd
