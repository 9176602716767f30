import TheKernel.Lib.Action
import TheKernel.Lib.Slots
import TheKernel.Mm.Range

namespace TheKernel.Mm

inductive UffdApiLifecycle where
  | created
  | initialized
  deriving DecidableEq

structure UffdApiState where
  lifecycle : UffdApiLifecycle

def UffdApiState.requireInitialized (api : UffdApiState) : Outcome MmError Unit :=
  if api.lifecycle = .initialized then .ok () else .err .uffdNotInitialized

structure UffdRegisterMode where
  bits : Nat
  deriving DecidableEq

def UffdRegisterMode.missing : UffdRegisterMode := ⟨1⟩

structure UffdRegistrationRequest where
  handler : FaultHandlerId
  addressSpace : AddressSpaceId
  mapping : MappingId
  generation : MappingGeneration
  range : PageRange
  mode : UffdRegisterMode
  supported : mode = .missing
  deriving DecidableEq

def UffdRegistrationRequest.new (handler : FaultHandlerId) (mapping : MappingSnapshot) (range : PageRange)
    (mode : UffdRegisterMode) : Outcome MmError UffdRegistrationRequest :=
  if mapping.kind ≠ .anonymousPrivate then .err .unsupportedUffdMapping
  else if ¬ mapping.range.contains range then .err .rangeNotMapped
  else if h : mode = .missing then .ok ⟨handler, mapping.addressSpace, mapping.mapping, mapping.generation,
    range, mode, h⟩
  else .err .unsupportedUffdMode

structure UffdRegistration where
  id : UffdRegistrationId
  request : UffdRegistrationRequest
  deriving DecidableEq

namespace UffdRegistration

def handler (registration : UffdRegistration) : FaultHandlerId := registration.request.handler

def addressSpace (registration : UffdRegistration) : AddressSpaceId := registration.request.addressSpace

def mapping (registration : UffdRegistration) : MappingId := registration.request.mapping

def generation (registration : UffdRegistration) : MappingGeneration := registration.request.generation

def range (registration : UffdRegistration) : PageRange := registration.request.range

def mode (registration : UffdRegistration) : UffdRegisterMode := registration.request.mode

def revalidate (registration : UffdRegistration) (current : MappingSnapshot) : Outcome MmError Unit :=
  if registration.addressSpace ≠ current.addressSpace ∨ registration.mapping ≠ current.mapping ∨
      registration.generation ≠ current.generation then .err .staleGeneration
  else if current.kind ≠ .anonymousPrivate then .err .unsupportedUffdMapping
  else if ¬ current.range.contains registration.range then .err .rangeNotMapped
  else .ok ()

end UffdRegistration

/-- A fragment that takes the place of a registration, and inherits its owner. -/
structure UffdRegistrationReplacement where
  source : UffdRegistrationId
  request : UffdRegistrationRequest

structure UffdRegistrationIntent where
  handler : FaultHandlerId
  range : PageRange
  mode : UffdRegisterMode
  supported : mode = .missing

structure UffdRegistrationDeltaPlan where
  revision : Nat
  removed : Nat
  replacements : Nat
  nextIdAfter : Option UffdRegistrationId
  deriving DecidableEq

def UffdRegistrationDeltaPlan.isNoop (plan : UffdRegistrationDeltaPlan) : Bool :=
  plan.removed = 0 ∧ plan.replacements = 0

structure CanonicalRegistrationDelta where
  desired : UffdRegistrationRequest
  noOp : Bool

structure UffdRegistrationPlan where
  revision : Nat
  removed : Nat
  published : Nat
  reused : Nat
  nextIdAfter : Option UffdRegistrationId
  deriving DecidableEq

def UffdRegistrationPlan.changesTable (plan : UffdRegistrationPlan) : Bool :=
  plan.removed ≠ 0 ∨ plan.published ≠ 0

structure UffdRegistrationCommit where
  removed : Nat
  published : Nat
  reused : Nat

def UffdRegistrationId.next (id : UffdRegistrationId) : Option UffdRegistrationId :=
  if id.raw + 1 ≤ wordMax then some ⟨id.raw + 1, Nat.succ_ne_zero _⟩ else none

def advanceRegistrationIds (next : Option UffdRegistrationId) : Nat → Outcome MmError (Option UffdRegistrationId)
  | 0 => .ok next
  | count + 1 =>
      match next with
      | none => .err .idExhausted
      | some raw => advanceRegistrationIds raw.next count

def rangesOverlap (left right : PageRange) : Bool := left.start < right.stop ∧ right.start < left.stop

def rangesTouch (left right : PageRange) : Bool :=
  left.pageSize = right.pageSize ∧ left.start ≤ right.stop ∧ right.start ≤ left.stop

def pageRangeIntersection (left right : PageRange) : Option PageRange :=
  if left.pageSize ≠ right.pageSize then none
  else if min left.stop right.stop ≤ max left.start right.start then none
  else (PageRange.withPageSize (max left.start right.start) (min left.stop right.stop - max left.start right.start)
    left.pageSize).toOption

structure UffdRegistrationTable where
  records : List (Option UffdRegistration)
  nextId : Option UffdRegistrationId
  revision : Nat
  deriving DecidableEq

abbrev UffdOwner := FaultHandlerId × AddressSpaceId × UffdRegisterMode

def UffdRegistrationRequest.owner (request : UffdRegistrationRequest) : UffdOwner :=
  (request.handler, request.addressSpace, request.mode)

structure RequestCounts where
  owner : Option UffdOwner
  unique : Nat
  published : Nat
  reused : Nat

namespace UffdRegistrationTable

def new (capacity firstId : Nat) : Outcome MmError UffdRegistrationTable :=
  if h : firstId = 0 then .err .invalidIdentity else .ok ⟨List.replicate capacity none, some ⟨firstId, h⟩, 1⟩

def iter (table : UffdRegistrationTable) : List UffdRegistration := table.records.reduceOption

def len (table : UffdRegistrationTable) : Nat := table.iter.length

def get (table : UffdRegistrationTable) (id : UffdRegistrationId) : Outcome MmError UffdRegistration :=
  match table.iter.find? (·.id = id) with
  | some registration => .ok registration
  | none => .err .unknownUffdRegistration

def validateVmaProfile (range : PageRange) (vmas : List MappingSnapshot) : Outcome MmError AddressSpaceId :=
  match vmas with
  | [] => .err .rangeNotMapped
  | first :: _ => do
      let _ ← vmas.foldlM (fun previousEnd snapshot =>
        if snapshot.addressSpace ≠ first.addressSpace ∨ snapshot.kind ≠ .anonymousPrivate ∨
            snapshot.range.pageSize ≠ range.pageSize ∨ previousEnd.any (snapshot.range.start < ·) ∨
            pageRangeIntersection range snapshot.range = none then
          Outcome.err MmError.invalidUffdRegistrationBatch
        else .ok (some snapshot.range.stop)) none
      .ok first.addressSpace

def registrationFoldsInto (intent : UffdRegistrationIntent) (snapshot : MappingSnapshot) (desired : PageRange)
    (registration : UffdRegistration) : Outcome MmError Bool :=
  if registration.addressSpace ≠ snapshot.addressSpace ∨ registration.handler ≠ intent.handler ∨
      registration.mode ≠ intent.mode ∨ ¬ rangesTouch registration.range desired ∨
      ¬ rangesOverlap registration.range snapshot.range then .ok false
  else do
    registration.revalidate snapshot
    .ok true

def takeIn (intent : UffdRegistrationIntent) (snapshot : MappingSnapshot) (desired : PageRange)
    (registration : UffdRegistration) : Outcome MmError PageRange := do
  if ← registrationFoldsInto intent snapshot desired registration then
    let start := min desired.start registration.range.start
    let stop := max desired.stop registration.range.stop
    PageRange.withPageSize start (stop - start) snapshot.range.pageSize
  else .ok desired

def foldPass (intent : UffdRegistrationIntent) (snapshot : MappingSnapshot) (registrations : List UffdRegistration)
    (desired : PageRange) : Outcome MmError PageRange :=
  registrations.foldlM (takeIn intent snapshot) desired

/-- The `loop` around it. A loop that never settles counts as a panic. -/
def foldLoop (intent : UffdRegistrationIntent) (snapshot : MappingSnapshot) (registrations : List UffdRegistration) :
    Nat → PageRange → Outcome MmError PageRange
  | 0, _ => .panic
  | passes + 1, before => do
      let desired ← foldPass intent snapshot registrations before
      if desired = before then .ok desired else foldLoop intent snapshot registrations passes desired

/-- Nothing stale and nothing of another handler lies in the target. -/
def checkTarget (intent : UffdRegistrationIntent) (snapshot : MappingSnapshot) (target : PageRange) :
    List UffdRegistration → Outcome MmError Unit
  | [] => .ok ()
  | registration :: rest =>
      if registration.addressSpace = snapshot.addressSpace ∧ rangesOverlap registration.range target then do
        registration.revalidate snapshot
        if registration.handler ≠ intent.handler then .err .busy else checkTarget intent snapshot target rest
      else checkTarget intent snapshot target rest

def foldsAmong (intent : UffdRegistrationIntent) (snapshot : MappingSnapshot) (desired : PageRange) :
    List UffdRegistration → Outcome MmError (List UffdRegistration)
  | [] => .ok []
  | registration :: rest => do
      let folds ← registrationFoldsInto intent snapshot desired registration
      let others ← foldsAmong intent snapshot desired rest
      .ok (if folds then registration :: others else others)

def canonicalRegisterDelta (table : UffdRegistrationTable) (intent : UffdRegistrationIntent)
    (snapshot : MappingSnapshot) : Outcome MmError CanonicalRegistrationDelta :=
  match pageRangeIntersection intent.range snapshot.range with
  | none => .err .rangeNotMapped
  | some target => do
      checkTarget intent snapshot target table.iter
      let range ← foldLoop intent snapshot table.iter (table.len + 1) target
      let desired ← UffdRegistrationRequest.new intent.handler snapshot range intent.mode
      let connected ← foldsAmong intent snapshot desired.range table.iter
      .ok ⟨desired, connected.length = 1 && connected.any (·.request = desired)⟩

/-- What the snapshots ask for: the identities to remove and the requests in
their place, in the order of the snapshots. -/
def registerDeltas (table : UffdRegistrationTable) (intent : UffdRegistrationIntent) :
    List MappingSnapshot → Outcome MmError (List UffdRegistrationId × List UffdRegistrationRequest)
  | [] => .ok ([], [])
  | snapshot :: rest => do
      let delta ← table.canonicalRegisterDelta intent snapshot
      if delta.noOp then table.registerDeltas intent rest
      else do
        let folded ← foldsAmong intent snapshot delta.desired.range table.iter
        let (removed, requests) ← table.registerDeltas intent rest
        .ok (folded.map (·.id) ++ removed, delta.desired :: requests)

def planRegisterDelta (table : UffdRegistrationTable) (intent : UffdRegistrationIntent)
    (vmas : List MappingSnapshot) : Outcome MmError UffdRegistrationDeltaPlan := do
  let _ ← validateVmaProfile intent.range vmas
  let (removed, requests) ← table.registerDeltas intent vmas
  if table.len < removed.length then .err .inconsistentAccounting
  else if table.records.length < table.len - removed.length then .err .inconsistentAccounting
  else if table.records.length - (table.len - removed.length) < requests.length then .err .capacityExceeded
  else do
    let nextIdAfter ← advanceRegistrationIds table.nextId requests.length
    if requests.length ≠ 0 ∧ table.revision = wordMax then .err .idExhausted
    else .ok ⟨table.revision, removed.length, requests.length, nextIdAfter⟩

def preflightRegisterDelta (table : UffdRegistrationTable) (api : UffdApiState) (intent : UffdRegistrationIntent)
    (vmas : List MappingSnapshot) : Outcome MmError UffdRegistrationDeltaPlan := do
  api.requireInitialized
  table.planRegisterDelta intent vmas

def replayRegisterDelta (table : UffdRegistrationTable) (plan : UffdRegistrationDeltaPlan)
    (intent : UffdRegistrationIntent) (vmas : List MappingSnapshot) :
    Outcome MmError (List UffdRegistrationId × List UffdRegistrationRequest) := do
  if table.revision ≠ plan.revision then .err .staleGeneration
  else do
    let current ← table.planRegisterDelta intent vmas
    if current ≠ plan then .err .staleGeneration else table.registerDeltas intent vmas

def singleOwner (requireSingleOwner : Bool) (owner : Option UffdOwner) (currentOwner : UffdOwner) :
    Outcome MmError (Option UffdOwner) :=
  if requireSingleOwner then
    if owner.any (· ≠ currentOwner) then .err .invalidUffdRegistrationBatch else .ok (some currentOwner)
  else .ok owner

def checkRemoved (table : UffdRegistrationTable) (removed : List UffdRegistrationId) (requireSingleOwner : Bool) :
    Outcome MmError (Option UffdOwner) :=
  Outcome.forEnum (fun index id owner =>
    if id ∈ removed.take index then .err .invalidUffdRegistrationBatch
    else do
      let registration ← table.get id
      singleOwner requireSingleOwner owner registration.request.owner) 0 removed none

/-- Whether a request is registered as it stands, and collides with nothing
that stays. -/
def findExact (removed : List UffdRegistrationId) (request : UffdRegistrationRequest)
    (registrations : List UffdRegistration) : Outcome MmError Bool :=
  registrations.foldlM (fun exact registered =>
    if registered.id ∈ removed ∨ registered.addressSpace ≠ request.addressSpace ∨
        ¬ rangesOverlap registered.range request.range then .ok exact
    else if registered.handler ≠ request.handler then .err .busy
    else if registered.request = request then .ok true
    else .err .uffdRegistrationOverlap) false

def countRequests (table : UffdRegistrationTable) (removed : List UffdRegistrationId)
    (requests : List UffdRegistrationRequest) (requireSingleOwner : Bool) (owner : Option UffdOwner) :
    Outcome MmError RequestCounts :=
  Outcome.forEnum (fun index request counts => do
    let owner ← singleOwner requireSingleOwner counts.owner request.owner
    if (requests.take index).any (fun previous => previous ≠ request ∧ rangesOverlap previous.range request.range) then
      .err .invalidUffdRegistrationBatch
    else if request ∈ requests.take index then .ok { counts with owner }
    else do
      let exact ← findExact removed request table.iter
      if exact then .ok ⟨owner, counts.unique + 1, counts.published, counts.reused + 1⟩
      else .ok ⟨owner, counts.unique + 1, counts.published + 1, counts.reused⟩) 0 requests ⟨owner, 0, 0, 0⟩

def planRequestChanges (table : UffdRegistrationTable) (removed : List UffdRegistrationId)
    (requests : List UffdRegistrationRequest) (requireSingleOwner : Bool) : Outcome MmError UffdRegistrationPlan :=
  if removed.isEmpty ∧ requests.isEmpty then .err .zeroLength
  else do
    let owner ← table.checkRemoved removed requireSingleOwner
    let counts ← table.countRequests removed requests requireSingleOwner owner
    if table.len < removed.length then .err .inconsistentAccounting
    else if table.records.length < table.len - removed.length then .err .inconsistentAccounting
    else if table.records.length - (table.len - removed.length) < counts.published then .err .capacityExceeded
    else if counts.unique ≠ counts.published + counts.reused then .err .inconsistentAccounting
    else do
      let nextIdAfter ← advanceRegistrationIds table.nextId counts.published
      if counts.published ≠ 0 ∧ table.revision = wordMax then .err .idExhausted
      else .ok ⟨table.revision, removed.length, counts.published, counts.reused, nextIdAfter⟩

def clearRemoved (removed : List UffdRegistrationId) (records : List (Option UffdRegistration)) :
    List (Option UffdRegistration) :=
  records.map fun record => if record.any (·.id ∈ removed) then none else record

/-- Publish the requests that are not registered yet, with the identities
from `nextId` on. -/
def publish (requests : List UffdRegistrationRequest) (nextId : Option UffdRegistrationId) :
    Act UffdRegistrationTable MmError Unit :=
  requests.zipIdx.foldlM (fun nextId (request, index) => do
    let table ← Act.get
    if request ∈ requests.take index ∨ table.iter.any (·.request = request) then pure nextId
    else do
      let raw ← Act.expect nextId
      let slot ← Act.expect (freeSlot table.records)
      Act.set { table with records := table.records.set slot (some ⟨raw, request⟩) }
      pure raw.next) nextId >>= fun _ => pure ()

def visit (requests : List UffdRegistrationRequest) : Act UffdRegistrationTable MmError (List UffdRegistration) :=
  requests.zipIdx.foldlM (fun visited (request, index) => do
    if request ∈ requests.take index then pure visited
    else do
      let table ← Act.get
      let registration ← Act.expect (table.iter.find? (·.request = request))
      pure (visited ++ [registration])) []

def commitRequestChanges (plan : UffdRegistrationPlan) (removed : List UffdRegistrationId)
    (requests : List UffdRegistrationRequest) (requireSingleOwner : Bool) :
    Act UffdRegistrationTable MmError (UffdRegistrationCommit × List UffdRegistration) := do
  let table ← Act.get
  if table.revision ≠ plan.revision then Act.fail .staleGeneration
  else do
    let current ← Act.lift (table.planRequestChanges removed requests requireSingleOwner)
    if current ≠ plan then Act.fail .staleGeneration
    else do
      Act.set { table with records := clearRemoved removed table.records }
      publish requests table.nextId
      Act.modify fun table => { table with nextId := plan.nextIdAfter }
      Act.modify fun table =>
        if plan.changesTable ∧ table.revision ≠ wordMax then { table with revision := table.revision + 1 } else table
      let visited ← visit requests
      pure (⟨plan.removed, plan.published, plan.reused⟩, visited)

def preflightRegister (table : UffdRegistrationTable) (api : UffdApiState) (requests : List UffdRegistrationRequest) :
    Outcome MmError UffdRegistrationPlan := do
  api.requireInitialized
  if requests.isEmpty then .err .zeroLength else table.planRequestChanges [] requests true

def commitRegister (plan : UffdRegistrationPlan) (requests : List UffdRegistrationRequest) :
    Act UffdRegistrationTable MmError (UffdRegistrationCommit × List UffdRegistration) :=
  commitRequestChanges plan [] requests true

def registerBatch (api : UffdApiState) (requests : List UffdRegistrationRequest) :
    Act UffdRegistrationTable MmError (UffdRegistrationCommit × List UffdRegistration) := do
  let table ← Act.get
  let plan ← Act.lift (table.preflightRegister api requests)
  commitRegister plan requests

def register (api : UffdApiState) (request : UffdRegistrationRequest) :
    Act UffdRegistrationTable MmError UffdRegistration := do
  let (_, visited) ← registerBatch api [request]
  Act.okOr visited.getLast? .inconsistentAccounting

def preflightReplace (table : UffdRegistrationTable) (api : UffdApiState) (removed : List UffdRegistrationId)
    (replacements : List UffdRegistrationRequest) : Outcome MmError UffdRegistrationPlan := do
  api.requireInitialized
  if removed.isEmpty then .err .zeroLength else table.planRequestChanges removed replacements true

def commitReplace (plan : UffdRegistrationPlan) (removed : List UffdRegistrationId)
    (replacements : List UffdRegistrationRequest) :
    Act UffdRegistrationTable MmError (UffdRegistrationCommit × List UffdRegistration) :=
  commitRequestChanges plan removed replacements true

def replaceBatch (api : UffdApiState) (removed : List UffdRegistrationId)
    (replacements : List UffdRegistrationRequest) :
    Act UffdRegistrationTable MmError (UffdRegistrationCommit × List UffdRegistration) := do
  let table ← Act.get
  let plan ← Act.lift (table.preflightReplace api removed replacements)
  commitReplace plan removed replacements

def validateMappingReplacements (table : UffdRegistrationTable) (removed : List UffdRegistrationId)
    (replacements : List UffdRegistrationReplacement) : Outcome MmError Unit :=
  match removed with
  | [] => .err .zeroLength
  | first :: _ => do
      let owner ← table.get first
      removed.forM fun id => do
        let registration ← table.get id
        if registration.addressSpace ≠ owner.addressSpace then .err .invalidUffdRegistrationBatch else .ok ()
      replacements.forM fun replacement =>
        if replacement.source ∉ removed then .err .invalidUffdRegistrationBatch
        else do
          let source ← table.get replacement.source
          if source.handler ≠ replacement.request.handler ∨ source.addressSpace ≠ replacement.request.addressSpace ∨
              source.mode ≠ replacement.request.mode then .err .invalidUffdRegistrationBatch
          else .ok ()

def preflightMappingReplace (table : UffdRegistrationTable) (removed : List UffdRegistrationId)
    (replacements : List UffdRegistrationReplacement) : Outcome MmError UffdRegistrationPlan := do
  table.validateMappingReplacements removed replacements
  table.planRequestChanges removed (replacements.map (·.request)) false

def commitMappingReplace (plan : UffdRegistrationPlan) (removed : List UffdRegistrationId)
    (replacements : List UffdRegistrationReplacement) :
    Act UffdRegistrationTable MmError (UffdRegistrationCommit × List UffdRegistration) := do
  let table ← Act.get
  if table.revision ≠ plan.revision then Act.fail .staleGeneration
  else do
    Act.lift (table.validateMappingReplacements removed replacements)
    commitRequestChanges plan removed (replacements.map (·.request)) false

def mappingReplaceBatch (removed : List UffdRegistrationId) (replacements : List UffdRegistrationReplacement) :
    Act UffdRegistrationTable MmError (UffdRegistrationCommit × List UffdRegistration) := do
  let table ← Act.get
  let plan ← Act.lift (table.preflightMappingReplace removed replacements)
  commitMappingReplace plan removed replacements

def preflightMappingRemove (table : UffdRegistrationTable) (removed : List UffdRegistrationId) :
    Outcome MmError UffdRegistrationPlan :=
  table.preflightMappingReplace removed []

def commitMappingRemove (plan : UffdRegistrationPlan) (removed : List UffdRegistrationId) :
    Act UffdRegistrationTable MmError (UffdRegistrationCommit × List UffdRegistration) :=
  commitMappingReplace plan removed []

def unregister (id : UffdRegistrationId) : Act UffdRegistrationTable MmError UffdRegistration := do
  let table ← Act.get
  let (slot, registration) ← Act.okOr (findSlot (·.id = id) table.records) .unknownUffdRegistration
  Act.set { table with records := table.records.set slot none, revision := min (table.revision + 1) wordMax }
  pure registration

def detachHandler (handler : FaultHandlerId) : Act UffdRegistrationTable MmError Nat := do
  let table ← Act.get
  let removed := (table.iter.filter (·.handler = handler)).length
  if removed = 0 then pure 0
  else do
    Act.set { table with
      records := table.records.map fun record => if record.any (·.handler = handler) then none else record
      revision := min (table.revision + 1) wordMax }
    pure removed

/-- One `UFFDIO_REGISTER` on the table: a delta that is satisfied already
changes nothing, one that removes nothing is a registration, any other one a
replacement. -/
def registerRange (api : UffdApiState) (intent : UffdRegistrationIntent) (vmas : List MappingSnapshot) :
    Act UffdRegistrationTable MmError Unit := do
  let table ← Act.get
  let plan ← Act.lift (table.preflightRegisterDelta api intent vmas)
  if plan.isNoop then pure ()
  else do
    let (removed, replacements) ← Act.lift (table.replayRegisterDelta plan intent vmas)
    if removed.isEmpty then do
      let _ ← registerBatch api replacements
      pure ()
    else do
      let _ ← replaceBatch api removed replacements
      pure ()

end UffdRegistrationTable

end TheKernel.Mm
