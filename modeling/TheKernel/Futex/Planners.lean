import TheKernel.Lib.Outcome

namespace TheKernel.Futex

open Outcome

inductive FutexError where
  | invalidCommand | invalidFlags | invalidAddress | invalidCount | invalidTimeout | invalidValue | tooManyWaiters
  | duplicateAddress
  deriving DecidableEq

def futex2SizeMask : BitVec 32 := 0x03#32

def futex2SizeU32 : BitVec 32 := 0x02#32

def futex2Numa : BitVec 32 := 0x04#32

def futex2Mpol : BitVec 32 := 0x08#32

def futex2Private : BitVec 32 := 128#32

def futex2ValidMask : BitVec 32 := futex2SizeMask ||| futex2Numa ||| futex2Mpol ||| futex2Private

def futexWaitvMax : Nat := 128

inductive TimeoutClock where
  | monotonic | realtime

structure Timeout where
  seconds : Int
  nanos : Int
  absolute : Bool
  clock : TimeoutClock

def Timeout.validate (t : Timeout) : Outcome FutexError Timeout :=
  if t.seconds < 0 ∨ t.nanos < 0 ∨ 1000000000 ≤ t.nanos then .err .invalidTimeout else .ok t

def validateTimeout : Option Timeout → Outcome FutexError (Option Timeout)
  | some t => t.validate >>= fun t => .ok (some t)
  | none => .ok none

structure FutexWord where
  address : BitVec 64
  expected : BitVec 32
  isPrivate : Bool
  deriving DecidableEq

def FutexWord.withBytes (address : BitVec 64) (expected : BitVec 32) (isPrivate : Bool) (bytes : Nat) :
    Outcome FutexError FutexWord :=
  if address.toNat % bytes ≠ 0 then .err .invalidAddress else .ok ⟨address, expected, isPrivate⟩

structure FutexWaitV where
  val : BitVec 64
  uaddr : BitVec 64
  flags : BitVec 32
  reserved : BitVec 32

structure Futex2Flags where
  isPrivate : Bool
  numa : Bool
  mpol : Bool
  deriving DecidableEq

def Futex2Flags.wordBytes (flags : Futex2Flags) : Nat := if flags.numa then 8 else 4

def parseFutex2Flags (flags : BitVec 32) : Outcome FutexError Futex2Flags :=
  if flags &&& ~~~futex2ValidMask ≠ 0#32 ∨ flags &&& futex2SizeMask ≠ futex2SizeU32 then .err .invalidFlags
  else .ok ⟨flags &&& futex2Private ≠ 0#32, flags &&& futex2Numa ≠ 0#32, flags &&& futex2Mpol ≠ 0#32⟩

structure Futex2RequeuePlan where
  source : FutexWord
  target : FutexWord
  wake : Nat
  requeue : Nat
  flags : Futex2Flags

def requeueWord (waiter : FutexWaitV) : Outcome FutexError (FutexWord × Futex2Flags) :=
  if waiter.reserved ≠ 0#32 ∨ 2 ^ 32 - 1 < waiter.val.toNat then .err .invalidValue else do
    let flags ← parseFutex2Flags waiter.flags
    let word ← FutexWord.withBytes waiter.uaddr (waiter.val.truncate 32) flags.isPrivate flags.wordBytes
    .ok (word, flags)

def validateRequeueFlags (flags : BitVec 32) : Outcome FutexError Unit :=
  if flags = 0#32 then .ok () else .err .invalidFlags

def planRequeue (source target : FutexWaitV) (flags : BitVec 32) (wake requeue : BitVec 32) :
    Outcome FutexError Futex2RequeuePlan := do
  validateRequeueFlags flags
  let (sourceWord, sourceDecoded) ← requeueWord source
  let (targetWord, _) ← requeueWord target
  if source.flags ≠ target.flags then .err .invalidFlags
  else if wake.toInt < 0 ∨ requeue.toInt < 0 then .err .invalidCount
  else .ok ⟨sourceWord, targetWord, wake.toNat, requeue.toNat, sourceDecoded⟩

structure WaitVPlan where
  words : List FutexWaitV
  timeout : Option Timeout

def checkWaiter (words : List FutexWaitV) (i : Nat) (w : FutexWaitV) : Outcome FutexError Unit :=
  if w.reserved ≠ 0#32 ∨ 2 ^ 32 - 1 < w.val.toNat then .err .invalidValue else do
    let _ ← parseFutex2Flags w.flags
    if w.uaddr &&& 3#64 ≠ 0#64 then .err .invalidAddress
    else if (words.take i).any (·.uaddr = w.uaddr) then .err .duplicateAddress
    else .ok ()

def planWaitv (words : List FutexWaitV) (flags : BitVec 32) (timeout : Option Timeout) : Outcome FutexError WaitVPlan :=
  if flags ≠ 0#32 then .err .invalidFlags
  else if words = [] ∨ futexWaitvMax < words.length then .err .tooManyWaiters
  else do
    forEnum (fun i w _ => checkWaiter words i w) 0 words ()
    let timeout ← validateTimeout timeout
    .ok ⟨words, timeout⟩

namespace FutexWaitV

variable {w : FutexWaitV}

/-- The descriptor passes the checks that both planners make of it. -/
def WellShaped (w : FutexWaitV) : Prop :=
  w.reserved = 0#32 ∧ w.val.toNat < 2 ^ 32 ∧ w.flags &&& ~~~futex2ValidMask = 0#32 ∧
    w.flags &&& futex2SizeMask = futex2SizeU32

def bytes (w : FutexWaitV) : Nat := if w.flags &&& futex2Numa ≠ 0#32 then 8 else 4

def HalfAligned (w : FutexWaitV) : Prop := w.flags &&& futex2Numa ≠ 0#32 ∧ w.uaddr.toNat % 8 = 4

def AcceptedByWaitv (w : FutexWaitV) : Prop :=
  ∃ words flags timeout, w ∈ words ∧ (planWaitv words flags timeout).isOk = true

/-- Some accepted requeue has the word as its source. -/
def AcceptedByRequeue (w : FutexWaitV) : Prop :=
  ∃ target flags wake requeue, (planRequeue w target flags wake requeue).isOk = true

instance : Decidable w.WellShaped := inferInstanceAs (Decidable (_ ∧ _ ∧ _ ∧ _))

instance : Decidable w.HalfAligned := inferInstanceAs (Decidable (_ ∧ _))

end FutexWaitV

variable {w : FutexWaitV}

theorem parseFutex2Flags_eq_ok {flags : BitVec 32} {decoded : Futex2Flags} :
    parseFutex2Flags flags = .ok decoded ↔
      (flags &&& ~~~futex2ValidMask = 0#32 ∧ flags &&& futex2SizeMask = futex2SizeU32) ∧
        ⟨flags &&& futex2Private ≠ 0#32, flags &&& futex2Numa ≠ 0#32, flags &&& futex2Mpol ≠ 0#32⟩ = decoded := by
  rw [parseFutex2Flags, guard_eq_ok, not_or, not_not, not_not, Outcome.ok.injEq]

theorem and_three_eq_zero_iff (x : BitVec 64) : x &&& 3#64 = 0#64 ↔ x.toNat % 4 = 0 := by
  rw [← BitVec.toNat_inj, BitVec.toNat_and]
  have hmask : x.toNat &&& (3#64).toNat = x.toNat % 2 ^ 2 := Nat.and_two_pow_sub_one_eq_mod x.toNat 2
  rw [hmask]
  rfl

theorem checkWaiter_eq_ok {words : List FutexWaitV} {i : Nat} :
    checkWaiter words i w = .ok () ↔
      w.WellShaped ∧ w.uaddr.toNat % 4 = 0 ∧ ∀ earlier ∈ words.take i, earlier.uaddr ≠ w.uaddr := by
  rw [checkWaiter, guard_eq_ok, bind_eq_ok, not_or, not_not, FutexWaitV.WellShaped]
  simp only [parseFutex2Flags_eq_ok, guard_eq_ok, not_not, and_three_eq_zero_iff, List.any_eq_true, decide_eq_true_eq,
    not_exists, not_and, and_true]
  constructor
  · rintro ⟨⟨hreserved, hval⟩, _, ⟨hflags, -⟩, halign, hdistinct⟩
    exact ⟨⟨hreserved, by omega, hflags⟩, halign, hdistinct⟩
  · rintro ⟨⟨hreserved, hval, hflags⟩, halign, hdistinct⟩
    exact ⟨⟨hreserved, by omega⟩, _, ⟨hflags, rfl⟩, halign, hdistinct⟩

theorem withBytes_eq_ok {address : BitVec 64} {expected : BitVec 32} {isPrivate : Bool} {bytes : Nat}
    {word : FutexWord} : FutexWord.withBytes address expected isPrivate bytes = .ok word ↔
      address.toNat % bytes = 0 ∧ ⟨address, expected, isPrivate⟩ = word := by
  rw [FutexWord.withBytes, guard_eq_ok, not_not, Outcome.ok.injEq]

theorem requeueWord_isOk : (requeueWord w).isOk = true ↔ w.WellShaped ∧ w.uaddr.toNat % w.bytes = 0 := by
  rw [isOk_iff]
  simp only [requeueWord, guard_eq_ok, bind_eq_ok, parseFutex2Flags_eq_ok, withBytes_eq_ok, not_or, not_not,
    FutexWaitV.WellShaped, FutexWaitV.bytes, Futex2Flags.wordBytes]
  constructor
  · rintro ⟨_, ⟨hreserved, hval⟩, _, ⟨hflags, rfl⟩, _, ⟨halign, -⟩, -⟩
    exact ⟨⟨hreserved, by omega, hflags⟩, by simpa using halign⟩
  · rintro ⟨⟨hreserved, hval, hflags⟩, halign⟩
    exact ⟨_, ⟨hreserved, by omega⟩, _, ⟨hflags, rfl⟩, _, ⟨by simpa using halign, rfl⟩, rfl⟩

/-- An accepted vector: every word of it passes the loop's checks. -/
theorem planWaitv_isOk {words : List FutexWaitV} {flags : BitVec 32} {timeout : Option Timeout}
    (h : (planWaitv words flags timeout).isOk = true) : ∀ w ∈ words, w.WellShaped ∧ w.uaddr.toNat % 4 = 0 := by
  intro w hw
  obtain ⟨plan, hplan⟩ := isOk_iff.mp h
  rw [planWaitv, guard_eq_ok, guard_eq_ok, unit_bind_eq_ok, forEnum_check] at hplan
  obtain ⟨i, hi⟩ := List.getElem?_of_mem hw
  have hcheck := checkWaiter_eq_ok.mp (hplan.2.2.1 i w hi)
  exact ⟨hcheck.1, hcheck.2.1⟩

theorem acceptedByWaitv_iff : w.AcceptedByWaitv ↔ w.WellShaped ∧ w.uaddr.toNat % 4 = 0 := by
  constructor
  · rintro ⟨words, flags, timeout, hw, hok⟩
    exact planWaitv_isOk hok w hw
  · rintro ⟨hshape, halign⟩
    refine ⟨[w], 0#32, none, List.mem_singleton_self w, ?_⟩
    have hcheck : checkWaiter [w] 0 w = .ok () := checkWaiter_eq_ok.mpr ⟨hshape, halign, by simp⟩
    simp [planWaitv, futexWaitvMax, hcheck, validateTimeout]

theorem acceptedByRequeue_iff : w.AcceptedByRequeue ↔ w.WellShaped ∧ w.uaddr.toNat % w.bytes = 0 := by
  rw [← requeueWord_isOk, isOk_iff]
  constructor
  · rintro ⟨target, flags, wake, requeue, hok⟩
    obtain ⟨plan, hplan⟩ := isOk_iff.mp hok
    rw [planRequeue, unit_bind_eq_ok, bind_eq_ok] at hplan
    obtain ⟨-, word, hword, -⟩ := hplan
    exact ⟨word, hword⟩
  · rintro ⟨word, hword⟩
    refine ⟨w, 0#32, 0#32, 0#32, ?_⟩
    simp [planRequeue, validateRequeueFlags, hword]

/-- A multiple of four is a multiple of the word's size unless it is that of a half. -/
theorem aligned_iff_not_halfAligned (h : w.uaddr.toNat % 4 = 0) : w.uaddr.toNat % w.bytes = 0 ↔ ¬ w.HalfAligned := by
  rw [FutexWaitV.bytes, FutexWaitV.HalfAligned]
  split
  · rename_i hnuma
    constructor
    · intro hzero hhalf
      have := hhalf.2
      omega
    · intro hhalf
      have hne : w.uaddr.toNat % 8 ≠ 4 := fun hfour => hhalf ⟨hnuma, hfour⟩
      omega
  · rename_i hnuma
    exact ⟨fun _ hhalf => hnuma hhalf.1, fun _ => h⟩

/-- Exactly the words that span two halves and start at the second one make the
planners disagree: the words of an accepted vector are aligned to their size,
and a word passes one planner as it passes the other, if and only if it is not
a well-shaped word of that kind. -/
theorem waitv_agrees_with_requeue_iff (words : List FutexWaitV) (flags : BitVec 32) (timeout : Option Timeout)
    (w : FutexWaitV) :
    ((planWaitv words flags timeout).isOk = true →
      ((∀ x ∈ words, x.uaddr.toNat % x.bytes = 0) ↔ ∀ x ∈ words, ¬ x.HalfAligned)) ∧
    ((w.AcceptedByWaitv ↔ w.AcceptedByRequeue) ↔ ¬ (w.WellShaped ∧ w.HalfAligned)) := by
  constructor
  · intro hok
    have hall := planWaitv_isOk hok
    exact forall₂_congr fun x hx => aligned_iff_not_halfAligned (hall x hx).2
  · rw [acceptedByWaitv_iff, acceptedByRequeue_iff]
    by_cases hshape : w.WellShaped
    · by_cases halign : w.uaddr.toNat % 4 = 0
      · simp [hshape, halign, aligned_iff_not_halfAligned halign]
      · have hbytes : w.uaddr.toNat % w.bytes ≠ 0 := by
          rw [FutexWaitV.bytes]
          split <;> omega
        have hhalf : ¬ w.HalfAligned := fun h => by
          have := h.2
          omega
        simp [halign, hbytes, hhalf]
    · simp [hshape]

def halfWord : FutexWaitV := ⟨0#64, 0x1004#64, futex2SizeU32 ||| futex2Numa, 0#32⟩

theorem waitv_accepts_halfWord :
    (planWaitv [halfWord] 0#32 none).isOk = true ∧ halfWord.uaddr.toNat % halfWord.bytes = 4 ∧
      (∀ wake requeue, planRequeue halfWord halfWord 0#32 wake requeue = .err .invalidAddress) ∧
      halfWord.AcceptedByWaitv ∧ ¬ halfWord.AcceptedByRequeue := by
  have hword : requeueWord halfWord = .err .invalidAddress := by decide
  refine ⟨by decide, by decide, fun wake requeue => ?_, ?_, ?_⟩
  · rw [planRequeue, hword]
    rfl
  · exact acceptedByWaitv_iff.mpr ⟨by decide, by decide⟩
  · rw [acceptedByRequeue_iff]
    decide

end TheKernel.Futex
