import TheKernel.Lib.BitWords
import TheKernel.Cred.IdMap

namespace TheKernel.Cred

def capLastCap : Nat := 40

def ngroupsMax : Nat := 65536

/-- `[u32; CAPABILITY_WORDS]`. -/
abbrev CapabilityWords := BitWords 2 32

def capabilityValidMaskWord (word : Nat) : BitVec 32 :=
  if capLastCap < word * 32 then 0
  else if capLastCap - word * 32 ≥ 31 then BitVec.allOnes 32
  else BitVec.twoPow 32 (capLastCap - word * 32 + 1) - 1

def capabilityValidMask : CapabilityWords := ⟨fun word => capabilityValidMaskWord word⟩

def secbitNoroot : BitVec 32 := BitVec.twoPow 32 0

def secbitNoSetuidFixup : BitVec 32 := BitVec.twoPow 32 2

def secbitKeepCaps : BitVec 32 := BitVec.twoPow 32 4

def secbitKeepCapsLocked : BitVec 32 := BitVec.twoPow 32 5

def secbitNoCapAmbientRaise : BitVec 32 := BitVec.twoPow 32 6

def secbitExecRestrictFile : BitVec 32 := BitVec.twoPow 32 8

def secbitExecDenyInteractive : BitVec 32 := BitVec.twoPow 32 10

def secureAllBits : BitVec 32 :=
  secbitNoroot ||| secbitNoSetuidFixup ||| secbitKeepCaps ||| secbitNoCapAmbientRaise ||| secbitExecRestrictFile |||
    secbitExecDenyInteractive

def secureAllLocks : BitVec 32 := secureAllBits <<< 1

structure CredentialIds where
  ruid : Kuid
  euid : Kuid
  suid : Kuid
  fsuid : Kuid
  rgid : Kgid
  egid : Kgid
  sgid : Kgid
  fsgid : Kgid

structure GroupInfo where
  groups : List Kgid
  few : groups.length ≤ ngroupsMax
  sorted : groups.Pairwise fun a b => a.raw ≤ b.raw

namespace GroupInfo

def contains (info : GroupInfo) (gid : Kgid) : Bool := gid ∈ info.groups

def tryNew (groups : List Kgid) : Outcome CredError GroupInfo :=
  if h : groups.length > ngroupsMax then .err .invalidInput else
    .ok ⟨sortByKey (·.raw) groups, by rw [(perm_sortByKey _ _).length_eq]; omega, sorted_sortByKey _ _⟩

end GroupInfo

structure CapabilitySets where
  effective : CapabilityWords
  permitted : CapabilityWords
  inheritable : CapabilityWords
  bounding : CapabilityWords
  ambient : CapabilityWords
  securebits : BitVec 32

namespace CapabilitySets

def validateWord (sets : CapabilitySets) (word : Fin 2) : Outcome CredError Unit :=
  let all := sets.effective.word word ||| sets.permitted.word word ||| sets.inheritable.word word |||
    sets.bounding.word word ||| sets.ambient.word word
  if all &&& ~~~capabilityValidMask.word word ≠ 0 then .err .invalidInput
  else if sets.effective.word word &&& ~~~sets.permitted.word word ≠ 0 ∨
      sets.ambient.word word &&& ~~~(sets.permitted.word word &&& sets.inheritable.word word) ≠ 0 then
        .err .notPermitted
  else .ok ()

def validate (sets : CapabilitySets) : Outcome CredError Unit :=
  if sets.securebits &&& ~~~(secureAllBits ||| secureAllLocks) ≠ 0 then .err .invalidInput else do
    validateWord sets 0
    validateWord sets 1

def tryNew (effective permitted inheritable bounding ambient : CapabilityWords) (securebits : BitVec 32) :
    Outcome CredError CapabilitySets := do
  let sets : CapabilitySets := ⟨effective, permitted, inheritable, bounding, ambient, securebits⟩
  sets.validate
  .ok sets

def capMask (capability : Nat) : Option (Fin 2 × BitVec 32) :=
  if capability > capLastCap then none else
    if h : capability / 32 < 2 then some (⟨capability / 32, h⟩, BitVec.twoPow 32 (capability % 32)) else none

def hasEffective (sets : CapabilitySets) (capability : Nat) : Bool :=
  (capMask capability).any fun (word, mask) => sets.effective.word word &&& mask ≠ 0

structure Valid (sets : CapabilitySets) : Prop where
  securebits : sets.securebits &&& ~~~(secureAllBits ||| secureAllLocks) = 0
  known : sets.effective ∪ sets.permitted ∪ sets.inheritable ∪ sets.bounding ∪ sets.ambient ⊆ capabilityValidMask
  effective : sets.effective ⊆ sets.permitted
  ambient : sets.ambient ⊆ sets.permitted ∩ sets.inheritable

variable {sets : CapabilitySets}

theorem validateWord_eq_ok {word : Fin 2} : sets.validateWord word = .ok () ↔
    (sets.effective ∪ sets.permitted ∪ sets.inheritable ∪ sets.bounding ∪ sets.ambient).word word &&&
        ~~~capabilityValidMask.word word = 0 ∧
      sets.effective.word word &&& ~~~sets.permitted.word word = 0 ∧
      sets.ambient.word word &&& ~~~(sets.permitted ∩ sets.inheritable).word word = 0 := by
  simp only [validateWord, Outcome.guard_eq_ok, ne_eq, not_or, Decidable.not_not, and_true]
  rfl

theorem validate_eq_ok : sets.validate = .ok () ↔ sets.Valid := by
  simp only [validate, Outcome.guard_eq_ok, Outcome.unit_bind_eq_ok, validateWord_eq_ok, ne_eq, Decidable.not_not]
  constructor
  · rintro ⟨hbits, ⟨hk₀, he₀, ha₀⟩, hk₁, he₁, ha₁⟩
    exact ⟨hbits, Fin.forall_fin_two.mpr ⟨hk₀, hk₁⟩, Fin.forall_fin_two.mpr ⟨he₀, he₁⟩,
      Fin.forall_fin_two.mpr ⟨ha₀, ha₁⟩⟩
  · rintro ⟨hbits, hknown, heffective, hambient⟩
    exact ⟨hbits, ⟨hknown 0, heffective 0, hambient 0⟩, hknown 1, heffective 1, hambient 1⟩

theorem Valid.tryNew (h : sets.Valid) :
    tryNew sets.effective sets.permitted sets.inheritable sets.bounding sets.ambient sets.securebits = .ok sets := by
  rw [CapabilitySets.tryNew, validate_eq_ok.mpr h]
  rfl

end CapabilitySets

structure UserNamespaceView (N : Type) where
  parent : N → Option N
  level : N → Nat
  ownerKuid : N → Kuid
  rootKuid : N → Option Kuid

structure Credential (N : Type) where
  ids : CredentialIds
  groups : GroupInfo
  caps : CapabilitySets
  noNewPrivs : Bool
  userNs : N

inductive CredentialTransitionMode where
  | normal
  | execClearsKeepCaps
  deriving DecidableEq

variable {N : Type} [DecidableEq N]

/-- The walk of `credential_cap_is_subset` towards the initial namespace. -/
def ownsAncestor (view : UserNamespaceView N) (set : Credential N) (subsetNs : N) : Bool :=
  if view.level set.userNs < view.level subsetNs then
    match view.parent subsetNs with
    | none => false
    | some parent =>
        if _h : view.level parent ≥ view.level subsetNs then false
        else if parent = set.userNs ∧ view.ownerKuid subsetNs = set.ids.euid then true
        else ownsAncestor view set parent
  else false
termination_by view.level subsetNs

def credentialCapIsSubset (view : UserNamespaceView N) (set subset : Credential N) : Bool :=
  if set.userNs = subset.userNs then subset.caps.permitted ⊆ set.caps.permitted else ownsAncestor view set subset.userNs

structure CredentialTransitionEffects where
  resetProcessSecurity : Bool

def CredentialTransitionEffects.between (view : UserNamespaceView N) (old proposed : Credential N) :
    CredentialTransitionEffects where
  resetProcessSecurity := old.ids.euid ≠ proposed.ids.euid ∨ old.ids.egid ≠ proposed.ids.egid ∨
    old.ids.fsuid ≠ proposed.ids.fsuid ∨ old.ids.fsgid ≠ proposed.ids.fsgid ∨
      credentialCapIsSubset view old proposed = false

structure PreparedCredential (N : Type) where
  old : Credential N
  proposed : Credential N
  effects : CredentialTransitionEffects

namespace Credential

/-- The securebits that are locked and change all the same, and the locks that
go away. -/
def lockViolation (mode : CredentialTransitionMode) (old new : BitVec 32) : BitVec 32 × BitVec 32 :=
  let lockedValues := (old &&& secureAllLocks) >>> 1
  let changedLockedValues := lockedValues &&& (old ^^^ new) &&& secureAllBits
  let changedLockedValues :=
    if mode = .execClearsKeepCaps ∧
        old &&& (secbitKeepCaps ||| secbitKeepCapsLocked) = secbitKeepCaps ||| secbitKeepCapsLocked ∧
        new &&& secbitKeepCaps = 0 then changedLockedValues &&& ~~~secbitKeepCaps
    else changedLockedValues
  (changedLockedValues, old &&& secureAllLocks &&& ~~~new)

def tryFromTransition (old : Credential N) (ids : CredentialIds) (groups : GroupInfo) (caps : CapabilitySets)
    (noNewPrivs : Bool) (userNs : N) (mode : CredentialTransitionMode) : Outcome CredError (Credential N) := do
  caps.validate
  if old.userNs ≠ userNs ∨ (old.noNewPrivs ∧ ¬ noNewPrivs) then .err .notPermitted
  else if (lockViolation mode old.caps.securebits caps.securebits).1 ≠ 0 ∨
      (lockViolation mode old.caps.securebits caps.securebits).2 ≠ 0 then .err .notPermitted
  else .ok ⟨ids, groups, caps, noNewPrivs, userNs⟩

def tryPrepareTransition (view : UserNamespaceView N) (old : Credential N) (ids : CredentialIds) (groups : GroupInfo)
    (caps : CapabilitySets) (noNewPrivs : Bool) : Outcome CredError (PreparedCredential N) := do
  let proposed ← tryFromTransition old ids groups caps noNewPrivs old.userNs .normal
  .ok ⟨old, proposed, .between view old proposed⟩

variable {old new : Credential N} {ids : CredentialIds} {groups : GroupInfo} {caps : CapabilitySets} {noNewPrivs : Bool}
  {userNs : N} {mode : CredentialTransitionMode}

theorem tryFromTransition_eq_ok : tryFromTransition old ids groups caps noNewPrivs userNs mode = .ok new ↔
    caps.Valid ∧ old.userNs = userNs ∧ (old.noNewPrivs = true → noNewPrivs = true) ∧
    lockViolation mode old.caps.securebits caps.securebits = (0, 0) ∧ new = ⟨ids, groups, caps, noNewPrivs,
      userNs⟩ := by
  simp only [tryFromTransition, Outcome.unit_bind_eq_ok, CapabilitySets.validate_eq_ok, Outcome.guard_eq_ok,
    Outcome.ok.injEq, Prod.ext_iff, eq_comm (b := new)]
  tauto

end Credential

end TheKernel.Cred
