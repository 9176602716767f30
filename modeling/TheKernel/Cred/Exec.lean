import TheKernel.Cred.Credential

namespace TheKernel.Cred

def modeSetUid : BitVec 16 := 0o4000

def modeSetGid : BitVec 16 := 0o2000

def modeGroupExecute : BitVec 16 := 0o0010

def userNamespaceOverflowId : Nat := 65534

def capSetuid : Nat := 7

/-- What exec reads of the user namespaces: the maps are one coherent pair. -/
structure ExecUserNamespaceView (N : Type) extends UserNamespaceView N where
  execIdMapSnapshot : N → IdMap × IdMap

structure ExecFileOwner where
  uid : Kuid
  gid : Kgid

inductive ExecMountPrivilege where
  | honor
  | noSuid
  deriving DecidableEq

inductive ExecTraceState where
  | notSuppressingPrivilege
  | suppressingPrivilege
  deriving DecidableEq

inductive ExecImageReadability where
  | readable
  | unreadable
  deriving DecidableEq

/-- File capabilities within the known bits: `try_new` lets no other be built. -/
structure FileCapabilities where
  permitted : CapabilityWords
  inheritable : CapabilityWords
  effective : Bool
  rootid : Kuid
  valid : permitted ∪ inheritable ⊆ capabilityValidMask

structure ExecCredentialInput where
  mode : BitVec 16
  owner : Option ExecFileOwner
  mountPrivilege : ExecMountPrivilege
  traceState : ExecTraceState
  imageReadability : ExecImageReadability
  fileCapabilities : Option FileCapabilities

inductive ExecDumpability where
  | notDumpable
  | userDumpable

structure ExecAuxIdentity where
  uid : UserUid
  euid : UserUid
  gid : UserGid
  egid : UserGid
  secure : Bool

def overflowId {space : IdSpace} : TypedId space := (TypedId.fromRaw userNamespaceOverflowId).getD .root

def ExecAuxIdentity.fromIds (ids : CredentialIds) (uidMap gidMap : IdMap) (secure : Bool) : ExecAuxIdentity where
  uid := (uidMap.kernelUidToUser ids.ruid).getD overflowId
  euid := (uidMap.kernelUidToUser ids.euid).getD overflowId
  gid := (gidMap.kernelGidToUser ids.rgid).getD overflowId
  egid := (gidMap.kernelGidToUser ids.egid).getD overflowId
  secure := secure

structure ExecCredentialEffects where
  auxIdentity : ExecAuxIdentity
  dumpability : ExecDumpability
  clearPdeathSignal : Bool
  clearPersonalityOnSetid : Bool

def ExecCredentialEffects.secureExec (effects : ExecCredentialEffects) : Bool := effects.auxIdentity.secure

structure ExecPtraceRevalidation where
  privilegeSensitive : Bool
  preparedTraceState : ExecTraceState

structure ExecCredentialProposal (N : Type) where
  old : Credential N
  proposed : Credential N
  input : ExecCredentialInput
  effects : ExecCredentialEffects
  revalidation : ExecPtraceRevalidation

section

variable {N : Type}

/-- The loop of `file_root_owns_current_namespace` over the ancestors. -/
def rootsAncestor (view : UserNamespaceView N) (rootid : Kuid) (namespace_ : N) : Bool :=
  match view.parent namespace_ with
  | none => false
  | some parent =>
      if _h : view.level parent ≥ view.level namespace_ then false
      else if view.rootKuid parent = some rootid then true
      else rootsAncestor view rootid parent
termination_by view.level namespace_

def fileRootOwnsCurrentNamespace (view : UserNamespaceView N) (userNs : N) (currentRootKuid : Option Kuid)
    (rootid : Kuid) : Bool :=
  currentRootKuid = some rootid ∨ rootsAncestor view rootid userNs

def ownerIsMapped (owner : ExecFileOwner) (uidMap gidMap : IdMap) : Bool :=
  (uidMap.kernelUidToUser owner.uid).isSome && (gidMap.kernelGidToUser owner.gid).isSome

/-- What one exec is derived from. The intermediate values of
`derive_exec_credential` are functions of it, under the source's names. -/
structure ExecDerivation (N : Type) where
  view : ExecUserNamespaceView N
  old : Credential N
  input : ExecCredentialInput

namespace ExecDerivation

def uidMap (x : ExecDerivation N) : IdMap := (x.view.execIdMapSnapshot x.old.userNs).1

def gidMap (x : ExecDerivation N) : IdMap := (x.view.execIdMapSnapshot x.old.userNs).2

def mappedOwner (x : ExecDerivation N) : Option ExecFileOwner := x.input.owner.filter fun owner =>
    ownerIsMapped owner x.uidMap x.gidMap

def rootKuid (x : ExecDerivation N) : Option Kuid := x.uidMap.userUidToKernel .root

def honorsFilePrivilege (x : ExecDerivation N) : Bool := x.input.mountPrivilege = .honor

def suppressesPrivilege (x : ExecDerivation N) : Bool := x.input.traceState = .suppressingPrivilege

def setUid (x : ExecDerivation N) : Bool := x.mappedOwner.isSome && x.input.mode &&& modeSetUid ≠ 0

def setGid (x : ExecDerivation N) : Bool :=
  x.mappedOwner.isSome && x.input.mode &&& (modeSetGid ||| modeGroupExecute) = modeSetGid ||| modeGroupExecute

def setidAdmitted (x : ExecDerivation N) : Bool := x.honorsFilePrivilege && !x.old.noNewPrivs

def setidIds (x : ExecDerivation N) : CredentialIds :=
  match x.mappedOwner with
  | none => x.old.ids
  | some owner => {
      x.old.ids with
      euid := if x.setidAdmitted && x.setUid then owner.uid else x.old.ids.euid
      egid := if x.setidAdmitted && x.setGid then owner.gid else x.old.ids.egid }

def idChanged (x : ExecDerivation N) : Bool :=
  x.setidIds.euid ≠ x.old.ids.euid ∨ (x.setidIds.egid ≠ x.old.ids.fsgid ∧ ¬ x.old.groups.contains x.setidIds.egid)

def fileCapabilities (x : ExecDerivation N) : Option FileCapabilities :=
  (if x.honorsFilePrivilege then x.input.fileCapabilities else none).filter fun caps =>
    fileRootOwnsCurrentNamespace x.view.toUserNamespaceView x.old.userNs x.rootKuid caps.rootid

def hasFcap (x : ExecDerivation N) : Bool := x.fileCapabilities.isSome

def filePermitted (x : ExecDerivation N) : CapabilityWords := x.fileCapabilities.elim ∅ (·.permitted)

def fileInheritable (x : ExecDerivation N) : CapabilityWords := x.fileCapabilities.elim ∅ (·.inheritable)

def fileRequestsEffective (x : ExecDerivation N) : Bool := x.fileCapabilities.elim false (·.effective)

def permittedFromFile (x : ExecDerivation N) : CapabilityWords :=
  (x.old.caps.bounding ∩ x.filePermitted) ∪ (x.old.caps.inheritable ∩ x.fileInheritable)

def forcedEffectiveMissing (x : ExecDerivation N) : Bool :=
  x.fileRequestsEffective && ¬ x.filePermitted ⊆ x.permittedFromFile

def proposedIsSetuidRoot (x : ExecDerivation N) : Bool :=
  x.rootKuid ≠ some x.setidIds.ruid ∧ x.rootKuid = some x.setidIds.euid

def rootCompat (x : ExecDerivation N) : Bool :=
  x.old.caps.securebits &&& secbitNoroot = 0 &&
    (x.rootKuid = some x.setidIds.ruid ∨ x.rootKuid = some x.setidIds.euid) && !(x.hasFcap && x.proposedIsSetuidRoot)

def permittedBeforeUnsafe (x : ExecDerivation N) : CapabilityWords :=
  if x.rootCompat then x.old.caps.bounding ∪ x.old.caps.inheritable else x.permittedFromFile

def fileEffective (x : ExecDerivation N) : Bool :=
  x.fileRequestsEffective || (x.rootCompat && x.rootKuid = some x.setidIds.euid)

def permittedGainedBeforeUnsafe (x : ExecDerivation N) : Bool := ¬ x.permittedBeforeUnsafe ⊆ x.old.caps.permitted

def privilegeSensitive (x : ExecDerivation N) : Bool := x.idChanged || x.permittedGainedBeforeUnsafe

def unsafeExec (x : ExecDerivation N) : Bool := x.privilegeSensitive && (x.old.noNewPrivs || x.suppressesPrivilege)

def setidDowngraded (x : ExecDerivation N) : Bool :=
  x.unsafeExec && (x.old.noNewPrivs || !x.old.caps.hasEffective capSetuid)

def permittedWithoutAmbient (x : ExecDerivation N) : CapabilityWords :=
  if x.unsafeExec then x.permittedBeforeUnsafe ∩ x.old.caps.permitted else x.permittedBeforeUnsafe

def ids (x : ExecDerivation N) : CredentialIds :=
  let euid := if x.setidDowngraded then x.setidIds.ruid else x.setidIds.euid
  let egid := if x.setidDowngraded then x.setidIds.rgid else x.setidIds.egid
  { x.setidIds with euid := euid, egid := egid, suid := euid, fsuid := euid, sgid := egid, fsgid := egid }

def differsFromRealIds (x : ExecDerivation N) : Bool := x.ids.euid ≠ x.old.ids.ruid ∨ x.ids.egid ≠ x.old.ids.rgid

def keptAmbient (x : ExecDerivation N) : CapabilityWords := if x.hasFcap || x.idChanged then ∅ else x.old.caps.ambient

def permitted (x : ExecDerivation N) : CapabilityWords := x.permittedWithoutAmbient ∪ x.keptAmbient

def effective (x : ExecDerivation N) : CapabilityWords := if x.fileEffective then x.permitted else x.keptAmbient

def ambient (x : ExecDerivation N) : CapabilityWords := x.keptAmbient ∩ (x.permitted ∩ x.old.caps.inheritable)

def changedEffectiveOrFsIds (x : ExecDerivation N) : Bool :=
  x.old.ids.euid ≠ x.ids.euid ∨ x.old.ids.egid ≠ x.ids.egid ∨ x.old.ids.fsuid ≠ x.ids.fsuid ∨
    x.old.ids.fsgid ≠ x.ids.fsgid

def permittedGained (x : ExecDerivation N) : Bool := ¬ x.permitted ⊆ x.old.caps.permitted

def nonRootFilePrivilege (x : ExecDerivation N) : Bool :=
  x.rootKuid ≠ some x.ids.ruid ∧ (x.fileEffective ∨ ¬ x.permitted ⊆ x.ambient)

def secureExec (x : ExecDerivation N) : Bool := x.idChanged || x.differsFromRealIds || x.nonRootFilePrivilege

def preExecIdsMismatched (x : ExecDerivation N) : Bool := x.old.ids.euid ≠ x.old.ids.ruid ∨
    x.old.ids.egid ≠ x.old.ids.rgid

def dumpability (x : ExecDerivation N) : ExecDumpability :=
  if x.input.imageReadability = .unreadable || x.preExecIdsMismatched || x.changedEffectiveOrFsIds ||
    x.permittedGained then
    .notDumpable
  else .userDumpable

def effects (x : ExecDerivation N) : ExecCredentialEffects where
  auxIdentity := .fromIds x.ids x.uidMap x.gidMap x.secureExec
  dumpability := x.dumpability
  clearPdeathSignal := x.secureExec || x.changedEffectiveOrFsIds || x.permittedGained
  clearPersonalityOnSetid := (x.setidAdmitted && x.setUid) || (x.setidAdmitted && x.setGid) ||
    x.permittedGainedBeforeUnsafe

variable [DecidableEq N]

def deriveExecCredential (x : ExecDerivation N) : Outcome CredError (ExecCredentialProposal N) :=
  if x.forcedEffectiveMissing then .err .notPermitted else do
    let capabilities ← CapabilitySets.tryNew x.effective x.permitted x.old.caps.inheritable x.old.caps.bounding
      x.ambient (x.old.caps.securebits &&& ~~~secbitKeepCaps)
    let proposed ← x.old.tryFromTransition x.ids x.old.groups capabilities x.old.noNewPrivs x.old.userNs
      .execClearsKeepCaps
    .ok ⟨x.old, proposed, x.input, x.effects, ⟨x.privilegeSensitive, x.input.traceState⟩⟩

end ExecDerivation

def commoncapExecTransition [DecidableEq N] (proposal : ExecCredentialProposal N) : Outcome CredError Unit :=
  if proposal.old.userNs ≠ proposal.proposed.userNs ∨ proposal.old.noNewPrivs ≠ proposal.proposed.noNewPrivs then
    .err .notPermitted
  else if (proposal.old.noNewPrivs ∨ proposal.input.traceState = .suppressingPrivilege) ∧
      ¬ proposal.proposed.caps.permitted ⊆ proposal.old.caps.permitted then .err .notPermitted
  else .ok ()

end

/-- Exec may clear `KEEP_CAPS`, locked or not, and touches no other bit. -/
theorem lockViolation_exec (old : BitVec 32) :
    Credential.lockViolation .execClearsKeepCaps old (old &&& ~~~secbitKeepCaps) = (0, 0) := by
  have hchanged : old ^^^ (old &&& ~~~secbitKeepCaps) = old &&& secbitKeepCaps := by
    apply BitVec.eq_of_getLsbD_eq
    intro i hi
    simp only [BitVec.getLsbD_xor, BitVec.getLsbD_and, BitVec.getLsbD_not, hi, decide_true, Bool.true_and]
    cases old.getLsbD i <;> cases secbitKeepCaps.getLsbD i <;> rfl
  have hkeep : ∀ i, secbitKeepCaps.getLsbD i = decide (i = 4) := by
    intro i
    simp [secbitKeepCaps, BitVec.getLsbD_twoPow, eq_comm]
  have hcleared : (old &&& ~~~secbitKeepCaps) &&& secbitKeepCaps = 0 := by
    rw [BitVec.and_assoc, BitVec.and_comm (~~~secbitKeepCaps), BitVec.and_not_self]
    exact BitVec.and_zero
  apply Prod.ext
  · simp only [Credential.lockViolation, hchanged, hcleared, true_and, and_true]
    split
    · apply BitVec.eq_of_getLsbD_eq
      intro i hi
      simp only [BitVec.getLsbD_and, BitVec.getLsbD_not, hi, decide_true, Bool.true_and, BitVec.ofNat_eq_ofNat,
        BitVec.getLsbD_zero]
      cases secbitKeepCaps.getLsbD i <;> simp
    next hunlocked =>
      -- only bit 4 could be left, and then bits 4 and 5 were both set
      apply BitVec.eq_of_getLsbD_eq
      intro i hi
      by_cases hi4 : i = 4
      · subst hi4
        by_contra hset
        apply hunlocked
        simp only [BitVec.getLsbD_and, BitVec.getLsbD_ushiftRight, BitVec.ofNat_eq_ofNat, BitVec.getLsbD_zero,
          Bool.not_eq_false, Bool.and_eq_true, Nat.reduceAdd] at hset
        apply BitVec.eq_of_getLsbD_eq
        intro j hj
        have hlocked : secbitKeepCapsLocked.getLsbD j = decide (j = 5) := by
          simp [secbitKeepCapsLocked, BitVec.getLsbD_twoPow, eq_comm]
        simp only [BitVec.getLsbD_and, BitVec.getLsbD_or, hkeep, hlocked]
        by_cases hj4 : j = 4
        · subst hj4
          simp [hset.1.2.1]
        · by_cases hj5 : j = 5
          · subst hj5
            simp [hset.1.1.1]
          · simp [hj4, hj5]
      · simp only [BitVec.getLsbD_and, hkeep, hi4, decide_false, Bool.and_false, Bool.false_and, BitVec.ofNat_eq_ofNat,
          BitVec.getLsbD_zero]
  · apply BitVec.eq_of_getLsbD_eq
    intro i hi
    simp only [Credential.lockViolation, BitVec.getLsbD_and, BitVec.getLsbD_not, hi, decide_true, Bool.true_and, hkeep,
      BitVec.ofNat_eq_ofNat, BitVec.getLsbD_zero]
    by_cases hi4 : i = 4
    · subst hi4
      have : secureAllLocks.getLsbD 4 = false := by decide
      rw [this, Bool.and_false, Bool.false_and]
    · cases old.getLsbD i <;> simp [hi4]

namespace ExecDerivation

variable {N : Type} {x : ExecDerivation N} {flag : Fin 2 × Fin 32}

@[simp] theorem setidIds_ruid : x.setidIds.ruid = x.old.ids.ruid := by
  unfold setidIds
  split <;> rfl

@[simp] theorem setidIds_rgid : x.setidIds.rgid = x.old.ids.rgid := by
  unfold setidIds
  split <;> rfl

/-- `no_new_privs` keeps the set-id bits from having an effect. -/
theorem setidIds_of_noNewPrivs (h : x.old.noNewPrivs = true) :
    x.setidIds.euid = x.old.ids.euid ∧ x.setidIds.egid = x.old.ids.egid := by
  have hadmitted : x.setidAdmitted = false := by
    rw [setidAdmitted, h, Bool.not_true, Bool.and_false]
  unfold setidIds
  split
  · exact ⟨rfl, rfl⟩
  · simp only [hadmitted, Bool.false_and, Bool.false_eq_true, if_false, and_self]

theorem keptAmbient_subset : x.keptAmbient ⊆ x.old.caps.ambient := by
  unfold keptAmbient
  split
  · exact BitWords.empty_subset _
  · exact BitWords.subset_refl _

/-- What exec can grant comes out of the bounding and the inheritable set. -/
theorem permittedBeforeUnsafe_subset : x.permittedBeforeUnsafe ⊆ x.old.caps.bounding ∪ x.old.caps.inheritable := by
  unfold permittedBeforeUnsafe
  split
  · exact BitWords.subset_refl _
  · rw [BitWords.subset_iff]
    intro flag hflag
    simp only [permittedFromFile, BitWords.mem_union, BitWords.mem_inter] at hflag ⊢
    exact hflag.imp And.left And.left

theorem permittedWithoutAmbient_subset : x.permittedWithoutAmbient ⊆ x.permittedBeforeUnsafe := by
  unfold permittedWithoutAmbient
  split
  · exact (BitWords.subset_inter.mp (BitWords.subset_refl _)).1
  · exact BitWords.subset_refl _

variable (hvalid : x.old.caps.Valid)

include hvalid

theorem keptAmbient_permitted : x.keptAmbient ⊆ x.old.caps.permitted :=
  BitWords.subset_trans keptAmbient_subset (BitWords.subset_inter.mp hvalid.ambient).1

theorem mem_gained (hflag : flag ∈ x.permitted) (hold : flag ∉ x.old.caps.permitted) :
    flag ∈ x.old.caps.bounding ∪ x.old.caps.inheritable := by
  rcases BitWords.mem_union.mp hflag with hfile | hambient
  · exact BitWords.subset_iff.mp permittedBeforeUnsafe_subset flag
      (BitWords.subset_iff.mp permittedWithoutAmbient_subset flag hfile)
  · exact absurd (BitWords.subset_iff.mp (keptAmbient_permitted hvalid) flag hambient) hold

/-- Under `no_new_privs` and under a suppressing tracer nothing is gained. -/
theorem permitted_subset (hrisky : x.old.noNewPrivs = true ∨ x.suppressesPrivilege = true) :
    x.permitted ⊆ x.old.caps.permitted := by
  refine BitWords.union_subset.mpr ⟨?_, keptAmbient_permitted hvalid⟩
  unfold permittedWithoutAmbient
  split
  · exact (BitWords.subset_inter.mp (BitWords.subset_refl _)).2
  next hsafe =>
    have hgained : x.permittedGainedBeforeUnsafe = false := by
      by_contra hgained
      apply hsafe
      rw [unsafeExec, privilegeSensitive, Bool.not_eq_false] at *
      rw [hgained, Bool.or_true, Bool.true_and, Bool.or_eq_true]
      exact hrisky
    simpa [permittedGainedBeforeUnsafe] using hgained

/-- The sets that exec derives always pass their validation. -/
theorem derived_valid : CapabilitySets.Valid ⟨x.effective, x.permitted, x.old.caps.inheritable, x.old.caps.bounding,
    x.ambient, x.old.caps.securebits &&& ~~~secbitKeepCaps⟩ := by
  have hknown := hvalid.known
  simp only [BitWords.union_subset] at hknown
  obtain ⟨⟨⟨⟨-, hpermitted⟩, hinheritable⟩, hbounding⟩, hambient⟩ := hknown
  have hmask : x.permitted ⊆ capabilityValidMask := by
    refine BitWords.union_subset.mpr ⟨?_, BitWords.subset_trans keptAmbient_subset hambient⟩
    refine BitWords.subset_trans permittedWithoutAmbient_subset (BitWords.subset_trans permittedBeforeUnsafe_subset ?_)
    exact BitWords.union_subset.mpr ⟨hbounding, hinheritable⟩
  have hkept : x.keptAmbient ⊆ x.permitted := (BitWords.union_subset.mp (BitWords.subset_refl _)).2
  have heffective : x.effective ⊆ x.permitted := by
    unfold effective
    split
    · exact BitWords.subset_refl _
    · exact hkept
  have hnested : x.ambient ⊆ x.permitted ∩ x.old.caps.inheritable :=
    (BitWords.subset_inter.mp (BitWords.subset_refl _)).2
  refine ⟨?_, ?_, heffective, hnested⟩
  · have hbits := hvalid.securebits
    rw [BitVec.and_assoc, BitVec.and_comm (~~~secbitKeepCaps), ← BitVec.and_assoc, hbits, BitVec.ofNat_eq_ofNat,
      BitVec.zero_and]
  · simp only [BitWords.union_subset]
    exact ⟨⟨⟨⟨BitWords.subset_trans heffective hmask, hmask⟩, hinheritable⟩, hbounding⟩,
      BitWords.subset_trans (BitWords.subset_inter.mp hnested).1 hmask⟩

omit hvalid

theorem ids_ruid : x.ids.ruid = x.old.ids.ruid := setidIds_ruid

theorem ids_noNewPrivs (h : x.old.noNewPrivs = true) :
    (x.ids.euid = x.old.ids.euid ∨ x.ids.euid = x.old.ids.ruid) ∧ (x.ids.egid = x.old.ids.egid ∨
      x.ids.egid = x.old.ids.rgid) := by
  obtain ⟨heuid, hegid⟩ := setidIds_of_noNewPrivs h
  unfold ids
  cases x.setidDowngraded with
  | false => exact ⟨.inl heuid, .inl hegid⟩
  | true => exact ⟨.inr setidIds_ruid, .inr setidIds_rgid⟩

/-- Under a suppressing tracer and without `CAP_SETUID` every exec that is
sensitive is downgraded. -/
theorem setidDowngraded_traced (htraced : x.suppressesPrivilege = true)
    (hcap : x.old.caps.hasEffective capSetuid = false) : x.setidDowngraded = x.privilegeSensitive := by
  rw [setidDowngraded, hcap, Bool.not_false, Bool.or_true, Bool.and_true, unsafeExec, htraced, Bool.or_true,
    Bool.and_true]

theorem privilegeSensitive_iff : x.privilegeSensitive = true ↔ x.setidIds.euid ≠ x.old.ids.euid ∨
    (x.setidIds.egid ≠ x.old.ids.fsgid ∧ x.old.groups.contains x.setidIds.egid = false) ∨
      ¬ x.permittedBeforeUnsafe ⊆ x.old.caps.permitted := by
  rw [privilegeSensitive, Bool.or_eq_true, idChanged, permittedGainedBeforeUnsafe, decide_eq_true_eq, decide_eq_true_eq,
    Bool.not_eq_true, or_assoc]

/-- A suppressing tracer leaves the real ids after a sensitive exec, and else the
ids that the set-id bits ask for. -/
theorem ids_traced (htraced : x.suppressesPrivilege = true) (hcap : x.old.caps.hasEffective capSetuid = false) :
    x.ids.euid = (if x.privilegeSensitive then x.old.ids.ruid else x.setidIds.euid) ∧
      x.ids.egid = if x.privilegeSensitive then x.old.ids.rgid else x.setidIds.egid := by
  rw [ids, setidDowngraded_traced htraced hcap, setidIds_ruid, setidIds_rgid]
  exact ⟨rfl, rfl⟩

theorem secureExec_of_differs (h : x.ids.euid ≠ x.old.ids.ruid ∨ x.ids.egid ≠ x.old.ids.rgid) :
    x.secureExec = true := by
  have hdiffers : x.differsFromRealIds = true := decide_eq_true h
  rw [secureExec, hdiffers, Bool.or_true, Bool.true_or]

include hvalid in
theorem secureExec_of_gain (hgain : ¬ x.permitted ⊆ x.old.caps.permitted) (hroot : x.rootKuid ≠ some x.old.ids.ruid) :
    x.secureExec = true := by
  have hbeyond : ¬ x.permitted ⊆ x.ambient := by
    intro hsubset
    apply hgain
    refine BitWords.subset_trans hsubset (BitWords.subset_trans ?_ (keptAmbient_permitted hvalid))
    exact (BitWords.subset_inter.mp (BitWords.subset_refl _)).1
  have hprivilege : x.nonRootFilePrivilege = true := decide_eq_true ⟨by rwa [ids_ruid], .inr hbeyond⟩
  rw [secureExec, hprivilege, Bool.or_true]

theorem notDumpable_of (h : ¬ x.permitted ⊆ x.old.caps.permitted ∨ x.old.ids.euid ≠ x.ids.euid ∨
    x.old.ids.egid ≠ x.ids.egid ∨
    x.old.ids.fsuid ≠ x.ids.fsuid ∨ x.old.ids.fsgid ≠ x.ids.fsgid) : x.dumpability = .notDumpable := by
  unfold dumpability
  rcases h with hgain | hchanged
  · have hgained : x.permittedGained = true := decide_eq_true hgain
    rw [hgained, Bool.or_true, if_pos rfl]
  · have hchanged' : x.changedEffectiveOrFsIds = true := decide_eq_true hchanged
    rw [hchanged', Bool.or_true, Bool.true_or, if_pos rfl]

variable [DecidableEq N]

include hvalid in
theorem derive_eq : x.deriveExecCredential = if x.forcedEffectiveMissing then .err .notPermitted else
    .ok ⟨x.old, ⟨x.ids, x.old.groups, ⟨x.effective, x.permitted, x.old.caps.inheritable, x.old.caps.bounding, x.ambient,
      x.old.caps.securebits &&& ~~~secbitKeepCaps⟩, x.old.noNewPrivs, x.old.userNs⟩, x.input, x.effects,
      ⟨x.privilegeSensitive, x.input.traceState⟩⟩ := by
  have hderived := derived_valid hvalid
  unfold deriveExecCredential
  congr 1
  rw [hderived.tryNew, Outcome.ok_bind, Credential.tryFromTransition_eq_ok.mpr ⟨hderived, rfl, fun h => h,
    lockViolation_exec _, rfl⟩]
  rfl

/-- What exec may give away. It fails only where a file capability that has to
be effective is missing. -/
theorem exec_safe (hold : x.old.caps.validate = .ok ()) :
    (x.deriveExecCredential = .err .notPermitted ∧ x.forcedEffectiveMissing = true) ∨
    ∃ proposal, x.deriveExecCredential = .ok proposal ∧
      (x.old.noNewPrivs = true →
        (proposal.proposed.ids.euid = x.old.ids.euid ∨ proposal.proposed.ids.euid = x.old.ids.ruid) ∧
        (proposal.proposed.ids.egid = x.old.ids.egid ∨ proposal.proposed.ids.egid = x.old.ids.rgid) ∧
        proposal.proposed.caps.permitted ⊆ x.old.caps.permitted) ∧
      (x.input.traceState = .suppressingPrivilege →
        proposal.proposed.caps.permitted ⊆ x.old.caps.permitted ∧
        (x.old.caps.hasEffective capSetuid = false →
          (x.setidIds.euid ≠ x.old.ids.euid ∨
              (x.setidIds.egid ≠ x.old.ids.fsgid ∧ x.old.groups.contains x.setidIds.egid = false) ∨
              ¬ x.permittedBeforeUnsafe ⊆ x.old.caps.permitted →
            proposal.proposed.ids.euid = x.old.ids.ruid ∧ proposal.proposed.ids.egid = x.old.ids.rgid) ∧
          (x.setidIds.euid = x.old.ids.euid →
            x.setidIds.egid = x.old.ids.fsgid ∨ x.old.groups.contains x.setidIds.egid = true →
            x.permittedBeforeUnsafe ⊆ x.old.caps.permitted →
            proposal.proposed.ids.euid = x.setidIds.euid ∧ proposal.proposed.ids.egid = x.setidIds.egid))) ∧
      (∀ flag ∈ proposal.proposed.caps.permitted, flag ∉ x.old.caps.permitted →
        flag ∈ x.old.caps.bounding ∪ x.old.caps.inheritable) ∧
      (¬ proposal.proposed.caps.permitted ⊆ x.old.caps.permitted → x.rootKuid ≠ some x.old.ids.ruid →
        proposal.effects.secureExec = true) ∧
      (proposal.proposed.ids.euid ≠ x.old.ids.ruid ∨ proposal.proposed.ids.egid ≠ x.old.ids.rgid →
        proposal.effects.secureExec = true) ∧
      (¬ proposal.proposed.caps.permitted ⊆ x.old.caps.permitted ∨ x.old.ids.euid ≠ proposal.proposed.ids.euid ∨
          x.old.ids.egid ≠ proposal.proposed.ids.egid ∨ x.old.ids.fsuid ≠ proposal.proposed.ids.fsuid ∨
          x.old.ids.fsgid ≠ proposal.proposed.ids.fsgid → proposal.effects.dumpability = .notDumpable) ∧
      commoncapExecTransition proposal = .ok () := by
  have hvalid := CapabilitySets.validate_eq_ok.mp hold
  rw [derive_eq hvalid]
  cases hforced : x.forcedEffectiveMissing with
  | true => exact .inl ⟨rfl, rfl⟩
  | false =>
      refine .inr ⟨_, rfl, ?_, ?_, ?_, secureExec_of_gain hvalid, secureExec_of_differs, notDumpable_of, ?_⟩
      · intro h
        exact ⟨(ids_noNewPrivs h).1, (ids_noNewPrivs h).2, permitted_subset hvalid (.inl h)⟩
      · intro htraced
        refine ⟨permitted_subset hvalid (.inr (decide_eq_true htraced)), fun hcap => ?_⟩
        obtain ⟨heuid, hegid⟩ := ids_traced (decide_eq_true htraced) hcap
        refine ⟨fun hchanged => ?_, fun hsame hgroup hkept => ?_⟩
        · have hsensitive := privilegeSensitive_iff.mpr hchanged
          rw [hsensitive] at heuid hegid
          exact ⟨heuid, hegid⟩
        · have hplain : x.privilegeSensitive = false := by
            rw [← Bool.not_eq_true, privilegeSensitive_iff]
            rintro (hne | ⟨hfsgid, hnot⟩ | hgain)
            · exact hne hsame
            · rcases hgroup with hgroup | hgroup
              · exact hfsgid hgroup
              · rw [hnot] at hgroup
                cases hgroup
            · exact hgain hkept
          rw [hplain] at heuid hegid
          exact ⟨heuid, hegid⟩
      · intro flag hflag hnot
        exact mem_gained hvalid hflag hnot
      · rw [commoncapExecTransition, if_neg (by simp), if_neg]
        rintro ⟨hrisky, hnot⟩
        refine hnot (permitted_subset hvalid (hrisky.imp_right fun htraced => decide_eq_true htraced))

def initialView : ExecUserNamespaceView Unit where
  parent _ := none
  level _ := 0
  ownerKuid _ := .root
  rootKuid _ := some .root
  execIdMapSnapshot _ := (⟨[⟨0, 0, invalidId⟩], [⟨0, 0, invalidId⟩]⟩, ⟨[⟨0, 0, invalidId⟩], [⟨0, 0, invalidId⟩]⟩)

/-- An exec by user and group 1000, who is also in group 2000, of a file of root
and group 2000. -/
def userExec (mode : BitVec 16) (traceState : ExecTraceState) : ExecDerivation Unit where
  view := initialView
  old := {
    ids := ⟨⟨1000, by decide⟩, ⟨1000, by decide⟩, ⟨1000, by decide⟩, ⟨1000, by decide⟩, ⟨1000, by decide⟩,
      ⟨1000, by decide⟩, ⟨1000, by decide⟩, ⟨1000, by decide⟩⟩
    groups := ⟨[⟨2000, by decide⟩], by decide, List.pairwise_singleton _ _⟩
    caps := ⟨∅, ∅, ∅, capabilityValidMask, ∅, 0⟩
    noNewPrivs := false
    userNs := () }
  input := ⟨mode, some ⟨.root, ⟨2000, by decide⟩⟩, .honor, traceState, .readable, none⟩

/-- A set-user-id program of root: not traced it runs as root, traced as its
user; a traced set-group-id program gets the supplementary group. -/
theorem exec_safe_setuid :
    (∃ proposal, (userExec 0o4755 .notSuppressingPrivilege).deriveExecCredential = .ok proposal ∧
      proposal.proposed.ids.euid = .root ∧ proposal.effects.secureExec = true) ∧
    (∃ proposal, (userExec 0o4755 .suppressingPrivilege).deriveExecCredential = .ok proposal ∧
      proposal.proposed.ids.euid.raw = 1000 ∧ proposal.proposed.ids.egid.raw = 1000) ∧
    ∃ proposal, (userExec 0o2755 .suppressingPrivilege).deriveExecCredential = .ok proposal ∧
      proposal.proposed.ids.euid.raw = 1000 ∧ proposal.proposed.ids.egid.raw = 2000 := by
  refine ⟨?_, ?_, ?_⟩
  · rcases exec_safe (x := userExec 0o4755 .notSuppressingPrivilege) (by decide) with ⟨-, hforced⟩ | hsafe
    · exact absurd hforced (by decide +kernel)
    · obtain ⟨proposal, hproposal, -, -, -, -, hsecure, -⟩ := hsafe
      have heuid : (userExec 0o4755 .notSuppressingPrivilege).deriveExecCredential.toOption.map (·.proposed.ids.euid) =
          some .root := by decide +kernel
      rw [hproposal] at heuid
      have hroot : proposal.proposed.ids.euid = .root := Option.some.inj heuid
      refine ⟨proposal, hproposal, hroot, hsecure (.inl ?_)⟩
      rw [hroot]
      decide
  · rcases exec_safe (x := userExec 0o4755 .suppressingPrivilege) (by decide) with ⟨-, hforced⟩ | hsafe
    · exact absurd hforced (by decide +kernel)
    · obtain ⟨proposal, hproposal, -, htraced, -⟩ := hsafe
      obtain ⟨heuid, hegid⟩ := ((htraced rfl).2 (by decide)).1 (.inl (by decide +kernel))
      exact ⟨proposal, hproposal, by rw [heuid]; rfl, by rw [hegid]; rfl⟩
  · rcases exec_safe (x := userExec 0o2755 .suppressingPrivilege) (by decide) with ⟨-, hforced⟩ | hsafe
    · exact absurd hforced (by decide +kernel)
    · obtain ⟨proposal, hproposal, -, htraced, -⟩ := hsafe
      obtain ⟨heuid, hegid⟩ := ((htraced rfl).2 (by decide)).2 (by decide +kernel) (.inr (by decide +kernel))
          (by decide +kernel)
      refine ⟨proposal, hproposal, ?_, ?_⟩
      · rw [heuid]
        decide +kernel
      · rw [hegid]
        decide +kernel

/-- Set-group-id to a supplementary group does not count as a change of ids, so
that a traced exec keeps the new group. -/
theorem traced_setgid_kept :
    ∃ proposal, (userExec 0o2755 .suppressingPrivilege).deriveExecCredential = .ok proposal ∧
      (userExec 0o2755 .suppressingPrivilege).old.caps.validate = .ok () ∧
      (userExec 0o2755 .suppressingPrivilege).old.caps.hasEffective capSetuid = false ∧
      proposal.proposed.ids.egid ≠ (userExec 0o2755 .suppressingPrivilege).old.ids.egid ∧
      proposal.proposed.ids.egid ≠ (userExec 0o2755 .suppressingPrivilege).old.ids.rgid := by
  have hok : (userExec 0o2755 .suppressingPrivilege).deriveExecCredential.toOption.map (·.proposed.ids.egid.raw) =
      some 2000 := by
    decide +kernel
  obtain ⟨proposal, hproposal, hegid⟩ := Option.map_eq_some_iff.mp hok
  refine ⟨proposal, Outcome.toOption_eq_some.mp hproposal, by decide, by decide, ?_, ?_⟩
  · intro hsame
    rw [hsame] at hegid
    cases hegid
  · intro hsame
    rw [hsame] at hegid
    cases hegid

end ExecDerivation

end TheKernel.Cred
