import TheKernel.Lib.Action
import TheKernel.Lib.Slots
import TheKernel.Mm.Range

namespace TheKernel.Mm

open Act

inductive PinAccess where
  | read
  | write
  deriving DecidableEq

inductive PinDuration where
  | synchronous
  | asyncIo
  | longTerm
  deriving DecidableEq

inductive PinUse where
  | userCopy
  | blockIo
  | networkIo
  | dma
  | other
  deriving DecidableEq

structure PinRequest where
  range : UserRange
  access : PinAccess
  duration : PinDuration
  useKind : PinUse
  owner : PinOwner

@[ext] structure PinAccounting where
  pages : Nat
  bytes : Nat
  tokens : Nat
  deriving DecidableEq

structure PinQuota where
  maxPages : Nat
  maxBytes : Nat
  maxTokens : Nat

def PinQuota.admits (quota : PinQuota) (accounting : PinAccounting) : Bool :=
  accounting.pages ≤ quota.maxPages && accounting.bytes ≤ quota.maxBytes && accounting.tokens ≤ quota.maxTokens

namespace PinAccounting

instance : Zero PinAccounting := ⟨⟨0, 0, 0⟩⟩

instance : Add PinAccounting := ⟨fun a b => ⟨a.pages + b.pages, a.bytes + b.bytes, a.tokens + b.tokens⟩⟩

def checkedAdd (usage charge : PinAccounting) : Outcome MmError PinAccounting :=
  if usage.pages + charge.pages ≤ wordMax ∧ usage.bytes + charge.bytes ≤ wordMax ∧
      usage.tokens + charge.tokens ≤ wordMax then
    .ok ⟨usage.pages + charge.pages, usage.bytes + charge.bytes, usage.tokens + charge.tokens⟩
  else .err .overflow

def checkedSub (usage charge : PinAccounting) : Outcome MmError PinAccounting :=
  if charge.pages ≤ usage.pages ∧ charge.bytes ≤ usage.bytes ∧ charge.tokens ≤ usage.tokens then
    .ok ⟨usage.pages - charge.pages, usage.bytes - charge.bytes, usage.tokens - charge.tokens⟩
  else .err .overflow

def forRange (range : PageRange) : Outcome MmError PinAccounting :=
  if range.pageCount ≤ wordMax ∧ range.len ≤ wordMax then .ok ⟨range.pageCount, range.len, 1⟩ else .err .overflow

end PinAccounting

def following (raw : Nat) : Option Nat := if raw + 1 ≤ wordMax then some (raw + 1) else none

structure PinBudgetCharge where
  budget : Nat
  token : Nat
  deriving DecidableEq

structure PinBudgetRecord where
  charge : PinBudgetCharge
  range : PageRange
  accounting : PinAccounting

structure PinBudget where
  identity : Nat
  pageSize : PageSize
  quota : PinQuota
  usage : PinAccounting
  records : List (Option PinBudgetRecord)
  nextCharge : Option Nat

def allocatePinBudgetIdentity : Act Nat MmError Nat := do
  let current ← get
  if current = 0 then fail .idExhausted
  else do
    set (if current = wordMax then 0 else current + 1)
    pure current

namespace PinBudget

def new (chargeCapacity pageSize : Nat) (quota : PinQuota) (firstCharge : Nat) : Act Nat MmError PinBudget := do
  let pageSize ← lift (PageSize.new pageSize)
  if firstCharge = 0 then fail .invalidIdentity
  else do
    let identity ← allocatePinBudgetIdentity
    pure ⟨identity, pageSize, quota, ⟨0, 0, 0⟩, List.replicate chargeCapacity none, some firstCharge⟩

def reserve (request : PinRequest) : Act PinBudget MmError PinBudgetCharge := do
  let s ← get
  let range ← lift (PageRange.covering request.range s.pageSize)
  let recordIndex ← okOr (freeSlot s.records) .capacityExceeded
  let accounting ← lift (PinAccounting.forRange range)
  let newUsage ← lift (s.usage.checkedAdd accounting)
  if !s.quota.admits newUsage then fail .quotaExceeded
  else do
    let token ← okOr s.nextCharge .idExhausted
    let charge : PinBudgetCharge := ⟨s.identity, token⟩
    modify fun s => { s with
      nextCharge := following token
      usage := newUsage
      records := s.records.set recordIndex (some ⟨charge, range, accounting⟩) }
    pure charge

def recordIndex (charge : PinBudgetCharge) : Act PinBudget MmError (Nat × PinBudgetRecord) := do
  let s ← get
  if charge.budget ≠ s.identity then fail .budgetMismatch
  else okOr (findSlot (fun record => record.charge = charge) s.records) .unknownToken

def release (charge : PinBudgetCharge) : Act PinBudget MmError Unit := do
  let (index, record) ← recordIndex charge
  let s ← get
  let newUsage ← lift (s.usage.checkedSub record.accounting)
  modify fun s => { s with records := s.records.set index none, usage := newUsage }

end PinBudget

structure PinToken where
  registry : Nat
  sequence : Nat
  deriving DecidableEq

structure PinReservation where
  token : PinToken
  deriving DecidableEq

inductive RecordState where
  | reserved
  | active
  deriving DecidableEq

structure PinSnapshot where
  addressSpace : AddressSpaceId
  range : PageRange

structure PinRecord where
  token : PinToken
  request : PinRequest
  range : PageRange
  snapshot : PinSnapshot
  validatedUntil : Nat
  validatedMappings : Nat
  charge : PinAccounting
  state : RecordState

structure OwnerAccount where
  owner : PinOwner
  quota : PinQuota
  usage : PinAccounting

inductive PinRegistryState where
  | opened
  | closing
  | tearingDown
  | closed
  deriving DecidableEq

structure LifecycleProgress where
  active : Nat
  reserved : Nat
  deriving DecidableEq

def LifecycleProgress.total (progress : LifecycleProgress) : Nat := progress.active + progress.reserved

structure TeardownReport where
  cancelledReservations : Nat
  activeRemaining : Nat
  deriving DecidableEq

structure PinRegistry where
  identity : Nat
  pageSize : PageSize
  globalQuota : PinQuota
  globalUsage : PinAccounting
  owners : List (Option OwnerAccount)
  records : List (Option PinRecord)
  nextToken : Option Nat
  state : PinRegistryState

def allocatePinRegistryIdentity : Act Nat MmError Nat := do
  let current ← get
  if current + 1 ≤ wordMax then do
    set (current + 1)
    if current = 0 then fail .invalidIdentity else pure current
  else fail .idExhausted

namespace PinRegistry

def new (ownerCapacity tokenCapacity pageSize : Nat) (globalQuota : PinQuota) (firstToken : Nat) :
    Act Nat MmError PinRegistry := do
  let pageSize ← lift (PageSize.new pageSize)
  if firstToken = 0 then fail .invalidIdentity
  else do
    let identity ← allocatePinRegistryIdentity
    pure ⟨identity, pageSize, globalQuota, ⟨0, 0, 0⟩, List.replicate ownerCapacity none,
      List.replicate tokenCapacity none, some firstToken, .opened⟩

def ensureOpen (s : PinRegistry) : Outcome MmError Unit :=
  match s.state with
  | .opened => .ok ()
  | .closing => .err .closing
  | .tearingDown => .err .tearingDown
  | .closed => .err .closed

def ownerIndex (s : PinRegistry) (owner : PinOwner) : Option (Nat × OwnerAccount) :=
  findSlot (fun account => account.owner = owner) s.owners

def recordIndex (s : PinRegistry) (token : PinToken) : Option (Nat × PinRecord) :=
  findSlot (fun record => record.token = token) s.records

def configureOwner (owner : PinOwner) (quota : PinQuota) : Act PinRegistry MmError Unit := do
  let s ← get
  lift s.ensureOpen
  match s.ownerIndex owner with
  | some (index, account) =>
      if !quota.admits account.usage then fail .ownerBusy
      else modify fun s => { s with owners := s.owners.set index (some { account with quota := quota }) }
  | none => do
      let index ← okOr (freeSlot s.owners) .capacityExceeded
      modify fun s => { s with owners := s.owners.set index (some ⟨owner, quota, ⟨0, 0, 0⟩⟩) }

def removeOwner (owner : PinOwner) : Act PinRegistry MmError Unit := do
  let s ← get
  lift s.ensureOpen
  let (index, account) ← okOr (s.ownerIndex owner) .ownerNotConfigured
  if account.usage ≠ ⟨0, 0, 0⟩ then fail .ownerBusy
  else modify fun s => { s with owners := s.owners.set index none }

def validateMapping (s : PinRegistry) (request : PinRequest) (range : PageRange) (snapshot : MappingSnapshot) :
    Outcome MmError Unit :=
  if snapshot.range.pageSize ≠ s.pageSize ∨ ¬ snapshot.range.contains range then .err .rangeNotMapped
  else if request.access = .read ∧ ¬ snapshot.access.readable then .err .accessDenied
  else if request.access = .write ∧ ¬ snapshot.access.writable then .err .accessDenied
  else if request.duration = .longTerm ∧ ¬ snapshot.longTermPinnable then .err .unsupportedPin
  else if request.useKind = .dma ∧ request.duration ≠ .longTerm then .err .unsupportedPin
  else if request.duration = .longTerm ∧ request.access = .write ∧ snapshot.kind = .fileShared ∧
      ¬ snapshot.writableFilePinSupported then .err .unsupportedPin
  else if (snapshot.kind = .device ∨ snapshot.kind = .special) ∧ request.duration = .longTerm then .err .unsupportedPin
  else .ok ()

def conflicts (record : PinRecord) (request : PinRequest) (range : PageRange) (addressSpace : AddressSpaceId) : Bool :=
  record.snapshot.addressSpace = addressSpace && record.range.overlaps range &&
    (record.request.access = .write || request.access = .write) &&
    (record.state = .reserved || record.request.duration ≠ .longTerm)

def validateOverlap (s : PinRegistry) (request : PinRequest) (range : PageRange) (addressSpace : AddressSpaceId) :
    Outcome MmError Unit :=
  if s.records.any fun o => o.any fun record => conflicts record request range addressSpace then .err .pinOverlap
  else .ok ()

def allocateToken : Act PinRegistry MmError PinToken := do
  let s ← get
  let raw ← okOr s.nextToken .idExhausted
  modify fun s => { s with nextToken := following raw }
  pure ⟨s.identity, raw⟩

def reserve (request : PinRequest) (addressSpace : AddressSpaceId) : Act PinRegistry MmError PinReservation := do
  let s ← get
  lift s.ensureOpen
  let range ← lift (PageRange.covering request.range s.pageSize)
  lift (s.validateOverlap request range addressSpace)
  let (ownerIndex, owner) ← okOr (s.ownerIndex request.owner) .ownerNotConfigured
  let recordIndex ← okOr (freeSlot s.records) .capacityExceeded
  let charge ← lift (PinAccounting.forRange range)
  let newOwnerUsage ← lift (owner.usage.checkedAdd charge)
  let newGlobalUsage ← lift (s.globalUsage.checkedAdd charge)
  if !owner.quota.admits newOwnerUsage || !s.globalQuota.admits newGlobalUsage then fail .quotaExceeded
  else do
    let token ← allocateToken
    modify fun s => { s with
      owners := s.owners.set ownerIndex (some { owner with usage := newOwnerUsage })
      globalUsage := newGlobalUsage
      records := s.records.set recordIndex
        (some ⟨token, request, range, ⟨addressSpace, range⟩, range.start, 0, charge, .reserved⟩) }
    pure ⟨token⟩

def removeRecord (index : Nat) : Act PinRegistry MmError Unit := do
  let s ← get
  let record ← okOr s.records[index]?.join .unknownToken
  modify fun s => { s with records := s.records.set index none }
  let (ownerIndex, owner) ← okOr (s.ownerIndex record.request.owner) .ownerNotConfigured
  let ownerUsage ← lift (owner.usage.checkedSub record.charge)
  modify fun s => { s with owners := s.owners.set ownerIndex (some { owner with usage := ownerUsage }) }
  let globalUsage ← lift (s.globalUsage.checkedSub record.charge)
  modify fun s => { s with globalUsage := globalUsage }

def validation (s : PinRegistry) (record : PinRecord) (expected : ExpectedMapping) (current : MappingSnapshot)
    (covered : PageRange) : Outcome MmError Unit :=
  if covered.pageSize ≠ s.pageSize ∨ covered.start ≠ record.validatedUntil ∨ ¬ record.range.contains covered then
    .err .nonContiguousCoverage
  else if expected.addressSpace ≠ record.snapshot.addressSpace then .err .staleGeneration
  else do
    expected.revalidateRange current covered
    s.validateMapping record.request covered current

def revalidateNext (reservation : PinReservation) (expected : ExpectedMapping) (current : MappingSnapshot)
    (covered : PageRange) : Act PinRegistry MmError Unit := do
  let s ← get
  let (index, record) ← okOr (s.recordIndex reservation.token) .unknownToken
  if record.state ≠ .reserved then fail .invalidTokenState
  else match s.validation record expected current covered with
    | .err error => do
        removeRecord index
        fail error
    | .panic => lift .panic
    | .ok () => do
        modify fun s => { s with records := s.records.set index (some { record with validatedUntil := covered.stop }) }
        if record.validatedMappings + 1 ≤ wordMax then
          modify fun s => { s with
            records := s.records.set index (some { record with
              validatedUntil := covered.stop
              validatedMappings := record.validatedMappings + 1 }) }
        else fail .overflow

def commit (reservation : PinReservation) : Act PinRegistry MmError PinToken := do
  let s ← get
  let (index, record) ← okOr (s.recordIndex reservation.token) .unknownToken
  if record.state ≠ .reserved then fail .invalidTokenState
  else if record.validatedUntil ≠ record.range.stop ∨ record.validatedMappings = 0 then fail .incompleteRevalidation
  else do
    modify fun s => { s with records := s.records.set index (some { record with state := .active }) }
    pure record.token

/-- A record in the given state leaves: `cancel_reservation` and `release`. -/
def discard (state : RecordState) (token : PinToken) : Act PinRegistry MmError Unit := do
  let s ← get
  let (index, record) ← okOr (s.recordIndex token) .unknownToken
  if record.state ≠ state then fail .invalidTokenState else removeRecord index

def cancelReservation (reservation : PinReservation) : Act PinRegistry MmError Unit :=
  discard .reserved reservation.token

def release (token : PinToken) : Act PinRegistry MmError Unit := discard .active token

def activeCount (s : PinRegistry) : Nat := s.records.countP fun o => o.any fun record => record.state = .active

def reservedCount (s : PinRegistry) : Nat := s.records.countP fun o => o.any fun record => record.state = .reserved

def progress (s : PinRegistry) : LifecycleProgress := ⟨s.activeCount, s.reservedCount⟩

def beginClose : Act PinRegistry MmError LifecycleProgress := do
  let s ← get
  match s.state with
  | .opened => modify fun s => { s with state := .closing }
  | .closing => pure ()
  | .tearingDown => fail .tearingDown
  | .closed => fail .closed
  let s ← get
  pure s.progress

def cancelReserved (cancelled index : Nat) : Act PinRegistry MmError Nat := do
  let s ← get
  if s.records[index]?.join.any fun record => record.state = .reserved then do
    removeRecord index
    if cancelled + 1 ≤ wordMax then pure (cancelled + 1) else fail .overflow
  else pure cancelled

def beginTeardown : Act PinRegistry MmError TeardownReport := do
  let s ← get
  if s.state = .closed then fail .closed
  else do
    modify fun s => { s with state := .tearingDown }
    let cancelled ← (List.range s.records.length).foldlM cancelReserved 0
    let s ← get
    pure ⟨cancelled, s.activeCount⟩

def finishTeardown : Act PinRegistry MmError Unit := do
  let s ← get
  match s.state with
  | .opened => fail .busy
  | .closing | .tearingDown => if s.progress.total ≠ 0 then fail .busy else modify fun s => { s with state := .closed }
  | .closed => pure ()

end PinRegistry

inductive RegistryCall where
  | configureOwner (owner : PinOwner) (quota : PinQuota)
  | removeOwner (owner : PinOwner)
  | reserve (request : PinRequest) (addressSpace : AddressSpaceId)
  | revalidateNext (reservation : PinReservation) (expected : ExpectedMapping) (current : MappingSnapshot)
      (covered : PageRange)
  | commit (reservation : PinReservation)
  | cancelReservation (reservation : PinReservation)
  | release (token : PinToken)
  | beginClose
  | beginTeardown
  | finishTeardown

inductive BudgetCall where
  | reserve (request : PinRequest)
  | release (charge : PinBudgetCharge)

inductive PinReply where
  | done
  | reserved (reservation : PinReservation)
  | committed (token : PinToken)
  | progress (progress : LifecycleProgress)
  | report (report : TeardownReport)
  | charged (charge : PinBudgetCharge)
  deriving DecidableEq

def RegistryCall.run : RegistryCall → Act PinRegistry MmError PinReply
  | .configureOwner owner quota => do
      PinRegistry.configureOwner owner quota
      pure .done
  | .removeOwner owner => do
      PinRegistry.removeOwner owner
      pure .done
  | .reserve request addressSpace => do
      let reservation ← PinRegistry.reserve request addressSpace
      pure (.reserved reservation)
  | .revalidateNext reservation expected current covered => do
      PinRegistry.revalidateNext reservation expected current covered
      pure .done
  | .commit reservation => do
      let token ← PinRegistry.commit reservation
      pure (.committed token)
  | .cancelReservation reservation => do
      PinRegistry.cancelReservation reservation
      pure .done
  | .release token => do
      PinRegistry.release token
      pure .done
  | .beginClose => do
      let progress ← PinRegistry.beginClose
      pure (.progress progress)
  | .beginTeardown => do
      let report ← PinRegistry.beginTeardown
      pure (.report report)
  | .finishTeardown => do
      PinRegistry.finishTeardown
      pure .done

def BudgetCall.run : BudgetCall → Act PinBudget MmError PinReply
  | .reserve request => do
      let charge ← PinBudget.reserve request
      pure (.charged charge)
  | .release charge => do
      PinBudget.release charge
      pure .done

end TheKernel.Mm
