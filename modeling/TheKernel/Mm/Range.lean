import TheKernel.Lib.Outcome

namespace TheKernel.Mm

inductive MmError where
  | zeroLength
  | overflow
  | addressOutOfRange
  | invalidPageSize
  | unaligned
  | invalidIdentity
  | rangeNotMapped
  | accessDenied
  | invalidAccess
  | unsupportedPin
  | quotaExceeded
  | budgetMismatch
  | capacityExceeded
  | unboundedLimit
  | ownerNotConfigured
  | ownerBusy
  | pinOverlap
  | mappingPinned
  | staleGeneration
  | unknownToken
  | invalidTokenState
  | idExhausted
  | closing
  | tearingDown
  | closed
  | busy
  | invalidRemap
  | nonContiguousCoverage
  | incompleteRevalidation
  | unsupportedUffdMapping
  | unsupportedUffdMode
  | uffdNotInitialized
  | invalidUffdRegistrationBatch
  | uffdRegistrationOverlap
  | unknownUffdRegistration
  | inconsistentAccounting
  deriving DecidableEq

def wordMax : Nat := 2 ^ 64 - 1

inductive IdKind where
  | addressSpace
  | mapping
  | generation
  | pinOwner
  | faultHandler
  | uffdRegistration

structure Id (kind : IdKind) where
  raw : Nat
  nonzero : raw ≠ 0
  deriving DecidableEq

abbrev AddressSpaceId := Id .addressSpace

abbrev MappingId := Id .mapping

abbrev MappingGeneration := Id .generation

abbrev PinOwner := Id .pinOwner

abbrev FaultHandlerId := Id .faultHandler

abbrev UffdRegistrationId := Id .uffdRegistration

/-- A nonempty half-open range of bytes. -/
structure UserRange where
  start : Nat
  stop : Nat
  nonempty : start < stop
  bounded : stop ≤ wordMax
  deriving DecidableEq

namespace UserRange

def new (start length : Nat) : Outcome MmError UserRange :=
  if hzero : length = 0 then .err .zeroLength
  else if h : start + length ≤ wordMax then .ok ⟨start, start + length, by omega, h⟩ else .err .overflow

def len (range : UserRange) : Nat := range.stop - range.start

def contains (range other : UserRange) : Bool := range.start ≤ other.start ∧ other.stop ≤ range.stop

def overlaps (range other : UserRange) : Bool := range.start < other.stop ∧ other.start < range.stop

def Has (range : UserRange) (address : Nat) : Prop := range.start ≤ address ∧ address < range.stop

theorem overlaps_iff {range other : UserRange} :
    range.overlaps other = true ↔ ∃ address, range.Has address ∧ other.Has address := by
  rw [overlaps, decide_eq_true_eq]
  constructor
  · rintro ⟨hleft, hright⟩
    have h₁ := range.nonempty
    have h₂ := other.nonempty
    refine ⟨max range.start other.start, ⟨?_, ?_⟩, ?_, ?_⟩ <;> omega
  · rintro ⟨address, ⟨h₁, h₂⟩, h₃, h₄⟩
    omega

end UserRange

structure PageSize where
  bytes : Nat
  power : 2 ^ Nat.log2 bytes = bytes
  bounded : bytes ≤ wordMax
  deriving DecidableEq

namespace PageSize

def new (bytes : Nat) : Outcome MmError PageSize :=
  if bytes = 0 then .err .zeroLength
  else if h : 2 ^ Nat.log2 bytes = bytes ∧ bytes ≤ wordMax then .ok ⟨bytes, h.1, h.2⟩ else .err .invalidPageSize

/-- `value & (bytes - 1) == 0`. -/
def isAligned (size : PageSize) (value : Nat) : Bool := value % size.bytes = 0

/-- `value & !(bytes - 1)`. -/
def alignDown (size : PageSize) (value : Nat) : Nat := value / size.bytes * size.bytes

def alignUp (size : PageSize) (value : Nat) : Outcome MmError Nat :=
  if value + (size.bytes - 1) ≤ wordMax then .ok (size.alignDown (value + (size.bytes - 1))) else .err .overflow

end PageSize

/-- A nonempty range of whole pages. -/
structure PageRange where
  range : UserRange
  pageSize : PageSize
  startAligned : pageSize.isAligned range.start = true
  lengthAligned : pageSize.isAligned range.len = true
  deriving DecidableEq

namespace PageRange

def withPageSize (start length : Nat) (pageSize : PageSize) : Outcome MmError PageRange :=
  if h : pageSize.isAligned start ∧ pageSize.isAligned length then
    if hzero : length = 0 then .err .zeroLength
    else if hbound : start + length ≤ wordMax then
      .ok ⟨⟨start, start + length, by omega, hbound⟩, pageSize, h.1, by simpa [UserRange.len] using h.2⟩
    else .err .overflow
  else .err .unaligned

theorem withPageSize_eq_ok {start length : Nat} {pageSize : PageSize} {pages : PageRange}
    (h : withPageSize start length pageSize = .ok pages) :
    pages.range.start = start ∧ pages.range.len = length ∧ pages.pageSize = pageSize := by
  rw [withPageSize] at h
  split at h
  · split at h
    · cases h
    · split at h
      · cases h
        exact ⟨rfl, Nat.add_sub_cancel_left .., rfl⟩
      · cases h
  · cases h

def covering (range : UserRange) (pageSize : PageSize) : Outcome MmError PageRange := do
  let stop ← pageSize.alignUp range.stop
  withPageSize (pageSize.alignDown range.start) (stop - pageSize.alignDown range.start) pageSize

def start (range : PageRange) : Nat := range.range.start

def stop (range : PageRange) : Nat := range.range.stop

def len (range : PageRange) : Nat := range.range.len

def pageCount (range : PageRange) : Nat := range.len / range.pageSize.bytes

def contains (range other : PageRange) : Bool :=
  range.pageSize.bytes = other.pageSize.bytes && range.range.contains other.range

def overlaps (range other : PageRange) : Bool :=
  range.pageSize.bytes = other.pageSize.bytes && range.range.overlaps other.range

end PageRange

def pages (start stop : Nat) (h : start < stop ∧ stop ≤ wordMax ∧ start % 4096 = 0 ∧ (stop - start) % 4096 = 0) :
    PageRange :=
  ⟨⟨start, stop, h.1, h.2.1⟩, ⟨4096, by decide, by decide⟩, decide_eq_true h.2.2.1, decide_eq_true h.2.2.2⟩

structure MappingAccess where
  readable : Bool
  writable : Bool
  executable : Bool
  deriving DecidableEq

inductive MappingKind where
  | anonymousPrivate
  | anonymousShared
  | filePrivate
  | fileShared
  | device
  | special
  deriving DecidableEq

structure MappingSnapshot where
  addressSpace : AddressSpaceId
  mapping : MappingId
  generation : MappingGeneration
  range : PageRange
  access : MappingAccess
  kind : MappingKind
  longTermPinnable : Bool
  writableFilePinSupported : Bool
  deriving DecidableEq

structure ExpectedMapping where
  addressSpace : AddressSpaceId
  mapping : MappingId
  generation : MappingGeneration
  range : PageRange

namespace ExpectedMapping

def revalidate (expected : ExpectedMapping) (current : MappingSnapshot) : Outcome MmError Unit :=
  if expected.addressSpace ≠ current.addressSpace ∨ expected.mapping ≠ current.mapping ∨
      expected.generation ≠ current.generation then .err .staleGeneration
  else if ¬ current.range.contains expected.range then .err .rangeNotMapped
  else .ok ()

def revalidateRange (expected : ExpectedMapping) (current : MappingSnapshot) (operationRange : PageRange) :
    Outcome MmError Unit := do
  expected.revalidate current
  if ¬ expected.range.contains operationRange ∨ ¬ current.range.contains operationRange then .err .rangeNotMapped
    else .ok ()

theorem revalidateRange_ne_panic (expected : ExpectedMapping) (current : MappingSnapshot) (operationRange : PageRange) :
    expected.revalidateRange current operationRange ≠ .panic := by
  rw [revalidateRange]
  cases hrange : expected.revalidate current with
  | ok _ =>
      apply Outcome.guard_ne_panic
      simp
  | err e => simp
  | panic =>
      rw [revalidate] at hrange
      refine (Outcome.guard_ne_panic (Outcome.guard_ne_panic ?_) hrange).elim
      simp

end ExpectedMapping

end TheKernel.Mm
