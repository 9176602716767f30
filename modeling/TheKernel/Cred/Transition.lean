import Mathlib.Data.List.ReduceOption
import TheKernel.Cred.Credential

namespace TheKernel.Cred

/-- The outcome of a `CAP_SETUID` or `CAP_SETGID` decision: `UserIdAuthority`
and `GroupIdAuthority`. -/
structure IdAuthority where
  privileged : Bool

namespace IdAuthority

def unprivileged : IdAuthority := ⟨false⟩

end IdAuthority

structure CapsetAuthority where
  setpcap : Bool

namespace CapsetAuthority

def restricted : CapsetAuthority := ⟨false⟩

end CapsetAuthority

/-- The four calls that set user ids, and the four that set group ids. -/
inductive IdTransitionKind (α : Type) where
  | id (id : α)
  | reId (real effective : Option α)
  | resId (real effective saved : Option α)
  | fsId (id : α)

abbrev UserIdTransitionInput := IdTransitionKind Kuid

abbrev GroupIdTransitionInput := IdTransitionKind Kgid

structure IdRoles (α : Type) where
  real : α
  effective : α
  saved : α
  fs : α

namespace CredentialIds

def user (ids : CredentialIds) : IdRoles Kuid := ⟨ids.ruid, ids.euid, ids.suid, ids.fsuid⟩

def group (ids : CredentialIds) : IdRoles Kgid := ⟨ids.rgid, ids.egid, ids.sgid, ids.fsgid⟩

def withUser (ids : CredentialIds) (roles : IdRoles Kuid) : CredentialIds :=
  { ids with ruid := roles.real, euid := roles.effective, suid := roles.saved, fsuid := roles.fs }

def withGroup (ids : CredentialIds) (roles : IdRoles Kgid) : CredentialIds :=
  { ids with rgid := roles.real, egid := roles.effective, sgid := roles.saved, fsgid := roles.fs }

end CredentialIds

section Roles

variable {α : Type} [DecidableEq α]

def IdRoles.holds (old : IdRoles α) (id : α) : Bool := id = old.real ∨ id = old.effective ∨ id = old.saved

def setresIsNoop (old : IdRoles α) (real effective saved : Option α) : Bool :=
  real.all (· = old.real) && effective.all (fun id => id = old.effective ∧ id = old.fs) && saved.all (· = old.saved)

/-- The ids after a call; `none` when a call returns the old ones unseen. -/
def planIds (old : IdRoles α) (authority : IdAuthority) : IdTransitionKind α → Outcome CredError (Option (IdRoles α))
  | .id id =>
      if authority.privileged then .ok (some ⟨id, id, id, id⟩)
      else if id ≠ old.real ∧ id ≠ old.saved then .err .notPermitted
      else .ok (some ⟨old.real, id, old.saved, id⟩)
  | .reId real effective =>
      if ¬ authority.privileged ∧
          (real.any (fun id => id ≠ old.real ∧ id ≠ old.effective) ∨ effective.any (fun id => ¬ old.holds id)) then
        .err .notPermitted
      else
        let newEffective := effective.getD old.effective
        let newSaved := if real.isSome ∨ effective.any (· ≠ old.real) then newEffective else old.saved
        .ok (some ⟨real.getD old.real, newEffective, newSaved, newEffective⟩)
  | .resId real effective saved =>
      if setresIsNoop old real effective saved then .ok none
      else if ¬ authority.privileged ∧ ([real, effective, saved].reduceOption.any fun id => ¬ old.holds id) then
        .err .notPermitted
      else
        let newEffective := effective.getD old.effective
        .ok (some ⟨real.getD old.real, newEffective, saved.getD old.saved, newEffective⟩)
  | .fsId fs =>
      if authority.privileged ∨ old.holds fs ∨ fs = old.fs then .ok (some { old with fs := fs }) else .ok none

end Roles

def fixupUidCapabilities (rootKuid : Option Kuid) (old new : IdRoles Kuid) (capabilities : CapabilitySets) :
    Outcome CredError CapabilitySets :=
  if (old.real = new.real ∧ old.effective = new.effective ∧ old.saved = new.saved) ∨
      capabilities.securebits &&& secbitNoSetuidFixup ≠ 0 then .ok capabilities
  else
    let oldHadRoot := [old.real, old.effective, old.saved].any fun id => rootKuid = some id
    let newHasRoot := [new.real, new.effective, new.saved].any fun id => rootKuid = some id
    let leaves := oldHadRoot && !newHasRoot
    let drops := leaves && capabilities.securebits &&& secbitKeepCaps = 0
    let permitted := if drops then ∅ else capabilities.permitted
    let effective := if drops then ∅ else capabilities.effective
    let ambient := if leaves then ∅ else capabilities.ambient
    let effective := if rootKuid = some old.effective ∧ rootKuid ≠ some new.effective then ∅ else effective
    let effective := if rootKuid ≠ some old.effective ∧ rootKuid = some new.effective then permitted else effective
    CapabilitySets.tryNew effective permitted capabilities.inheritable capabilities.bounding ambient
      capabilities.securebits

def filesystemCapabilities : List Nat := [0, 27, 1, 2, 3, 4, 32, 9]

def fixupFsuidCapability (rootKuid : Option Kuid) (oldFsuid newFsuid : Kuid) (permitted effective : CapabilityWords)
    (capability : Nat) : CapabilityWords :=
  match CapabilitySets.capMask capability with
  | none => effective
  | some (word, mask) =>
      if rootKuid = some oldFsuid ∧ rootKuid ≠ some newFsuid then effective.modify word (· &&& ~~~mask)
      else if rootKuid ≠ some oldFsuid ∧ rootKuid = some newFsuid ∧ permitted.word word &&& mask ≠ 0 then
        effective.modify word (· ||| mask)
      else effective

def fixupFsuidCapabilities (rootKuid : Option Kuid) (oldFsuid newFsuid : Kuid) (capabilities : CapabilitySets) :
    Outcome CredError CapabilitySets :=
  if oldFsuid = newFsuid ∨ capabilities.securebits &&& secbitNoSetuidFixup ≠ 0 then .ok capabilities
  else
    let effective := filesystemCapabilities.foldl
      (fixupFsuidCapability rootKuid oldFsuid newFsuid capabilities.permitted) capabilities.effective
    CapabilitySets.tryNew effective capabilities.permitted capabilities.inheritable capabilities.bounding
      capabilities.ambient capabilities.securebits

def fixupCapabilities (rootKuid : Option Kuid) (old new : IdRoles Kuid) (capabilities : CapabilitySets) :
    UserIdTransitionInput → Outcome CredError CapabilitySets
  | .fsId _ => fixupFsuidCapabilities rootKuid old.fs new.fs capabilities
  | .id _ | .reId .. | .resId .. => fixupUidCapabilities rootKuid old new capabilities

structure CapsetRequest where
  effective : CapabilityWords
  permitted : CapabilityWords
  inheritable : CapabilityWords
  valid : effective ∪ permitted ∪ inheritable ⊆ capabilityValidMask

structure UserIdTransitionPlan (N : Type) where
  old : Credential N
  input : UserIdTransitionInput
  authority : IdAuthority
  ids : CredentialIds
  capabilities : CapabilitySets

structure GroupIdTransitionPlan (N : Type) where
  old : Credential N
  input : GroupIdTransitionInput
  authority : IdAuthority
  ids : CredentialIds

structure CapsetPlan (N : Type) where
  old : Credential N
  request : CapsetRequest
  authority : CapsetAuthority
  capabilities : CapabilitySets

section

variable {N : Type}

def planUserIdTransition (view : UserNamespaceView N) (old : Credential N) (input : UserIdTransitionInput)
    (authority : IdAuthority) : Outcome CredError (UserIdTransitionPlan N) := do
  match ← planIds old.ids.user authority input with
  | none => .ok ⟨old, input, authority, old.ids, old.caps⟩
  | some roles =>
      let capabilities ← fixupCapabilities (view.rootKuid old.userNs) old.ids.user roles old.caps input
      .ok ⟨old, input, authority, old.ids.withUser roles, capabilities⟩

def planGroupIdTransition (old : Credential N) (input : GroupIdTransitionInput) (authority : IdAuthority) :
    Outcome CredError (GroupIdTransitionPlan N) := do
  match ← planIds old.ids.group authority input with
  | none => .ok ⟨old, input, authority, old.ids⟩
  | some roles => .ok ⟨old, input, authority, old.ids.withGroup roles⟩

def planCapset (old : Credential N) (request : CapsetRequest) (authority : CapsetAuthority) :
    Outcome CredError (CapsetPlan N) :=
  if ¬ request.effective ⊆ request.permitted ∨ ¬ request.permitted ⊆ old.caps.permitted then .err .notPermitted
  else if ¬ request.inheritable ⊆ old.caps.inheritable ∪ old.caps.bounding then .err .notPermitted
  else if ¬ authority.setpcap ∧ ¬ request.inheritable ⊆ old.caps.inheritable ∪ old.caps.permitted then
    .err .notPermitted
  else do
    let ambient := old.caps.ambient ∩ (request.permitted ∩ request.inheritable)
    let capabilities ← CapabilitySets.tryNew request.effective request.permitted request.inheritable
      old.caps.bounding ambient old.caps.securebits
    .ok ⟨old, request, authority, capabilities⟩

variable [DecidableEq N]

/-- The consumer hands back the very credential that was planned with. -/
def tryPreparePlannedCredential (view : UserNamespaceView N) (old : Credential N) (ids : CredentialIds)
    (capabilities : CapabilitySets) : Outcome CredError (PreparedCredential N) :=
  old.tryPrepareTransition view ids old.groups capabilities old.noNewPrivs

/-- A call of a task that has no `CAP_SETUID`, `CAP_SETGID` or `CAP_SETPCAP`. -/
inductive Call where
  | user (input : UserIdTransitionInput)
  | group (input : GroupIdTransitionInput)
  | capset (request : CapsetRequest)

def Credential.call (view : UserNamespaceView N) (old : Credential N) : Call → Outcome CredError (PreparedCredential N)
  | .user input => do
      let plan ← planUserIdTransition view old input .unprivileged
      tryPreparePlannedCredential view old plan.ids plan.capabilities
  | .group input => do
      let plan ← planGroupIdTransition old input .unprivileged
      tryPreparePlannedCredential view old plan.ids old.caps
  | .capset request => do
      let plan ← planCapset old request .restricted
      tryPreparePlannedCredential view old old.ids plan.capabilities

end

structure CapabilitySets.Lowers (old new : CapabilitySets) : Prop where
  permitted : new.permitted ⊆ old.permitted
  bounding : new.bounding = old.bounding
  securebits : new.securebits = old.securebits

structure IdRoles.Within {α : Type} (old new : IdRoles α) : Prop where
  real : new.real ∈ [old.real, old.effective, old.saved]
  effective : new.effective ∈ [old.real, old.effective, old.saved]
  saved : new.saved ∈ [old.real, old.effective, old.saved]
  fs : new.fs ∈ [old.real, old.effective, old.saved, old.fs]

section Roles

variable {α : Type} {old new last : IdRoles α}

theorem IdRoles.Within.refl (old : IdRoles α) : old.Within old := by
  constructor <;> simp

theorem IdRoles.Within.trans (h : old.Within new) (h' : new.Within last) : old.Within last := by
  have hid : ∀ id ∈ [new.real, new.effective, new.saved], id ∈ [old.real, old.effective, old.saved] := by
    intro id hid
    simp only [List.mem_cons, List.not_mem_nil, or_false] at hid
    rcases hid with rfl | rfl | rfl
    · exact h.real
    · exact h.effective
    · exact h.saved
  refine ⟨hid _ h'.real, hid _ h'.effective, hid _ h'.saved, ?_⟩
  have hfs := h'.fs
  rw [show [new.real, new.effective, new.saved, new.fs] = [new.real, new.effective, new.saved] ++ [new.fs] from rfl,
    List.mem_append, List.mem_singleton] at hfs
  rcases hfs with hheld | hsame
  · exact List.mem_append_left [old.fs] (hid _ hheld)
  · rw [hsame]
    exact h.fs

theorem IdRoles.holds_iff [DecidableEq α] {id : α} : old.holds id = true ↔ id ∈ [old.real, old.effective,
    old.saved] := by
  simp [IdRoles.holds]

theorem getD_mem (o : Option α) {fallback : α} {ids : List α} (h : ∀ id, o = some id → id ∈ ids)
    (hfallback : fallback ∈ ids) : o.getD fallback ∈ ids := by
  cases o with
  | none => exact hfallback
  | some id => exact h id rfl

theorem planIds_returns [DecidableEq α] (old : IdRoles α) (authority : IdAuthority) (kind : IdTransitionKind α) :
    planIds old authority kind = .err .notPermitted ∨ ∃ plan, planIds old authority kind = .ok plan := by
  cases kind with
  | id id =>
      simp only [planIds]
      split
      · exact .inr ⟨_, rfl⟩
      · split
        · exact .inl rfl
        · exact .inr ⟨_, rfl⟩
  | reId real effective =>
      simp only [planIds]
      split
      · exact .inl rfl
      · exact .inr ⟨_, rfl⟩
  | resId real effective saved =>
      simp only [planIds]
      split
      · exact .inr ⟨_, rfl⟩
      · split
        · exact .inl rfl
        · exact .inr ⟨_, rfl⟩
  | fsId fs =>
      simp only [planIds]
      split
      · exact .inr ⟨_, rfl⟩
      · exact .inr ⟨_, rfl⟩

/-- Without privilege a call only moves ids between roles. -/
theorem planIds_within [DecidableEq α] {kind : IdTransitionKind α}
    (h : planIds old .unprivileged kind = .ok (some new)) : old.Within new := by
  cases kind with
  | id id =>
      simp only [planIds, IdAuthority.unprivileged, Bool.false_eq_true, if_false] at h
      split at h
      · cases h
      next hheld =>
        cases h
        have hid : id = old.real ∨ id = old.saved := by tauto
        constructor <;> simp <;> tauto
  | reId real effective =>
      simp only [planIds, IdAuthority.unprivileged, Bool.false_eq_true, not_false_eq_true, true_and] at h
      split at h
      · cases h
      next hheld =>
        cases h
        rw [not_or] at hheld
        have hreal : ∀ id, real = some id → id ∈ [old.real, old.effective, old.saved] := by
          rintro id rfl
          have := hheld.1
          simp at this ⊢
          tauto
        have heffective : ∀ id, effective = some id → id ∈ [old.real, old.effective, old.saved] := by
          rintro id rfl
          have := hheld.2
          rw [Option.any_some, decide_eq_true_eq, not_not, IdRoles.holds_iff] at this
          exact this
        have hnew := getD_mem effective heffective (by simp : old.effective ∈ _)
        refine ⟨getD_mem real hreal (by simp), hnew, ?_, List.mem_append_left [old.fs] hnew⟩
        dsimp only
        split
        · exact hnew
        · simp
  | resId real effective saved =>
      simp only [planIds, IdAuthority.unprivileged, Bool.false_eq_true, not_false_eq_true, true_and] at h
      split at h
      · cases h
      · split at h
        · cases h
        next hheld =>
          cases h
          have hids : ∀ id, some id ∈ [real, effective, saved] → id ∈ [old.real, old.effective, old.saved] := by
            intro id hid
            rw [← IdRoles.holds_iff]
            by_contra hnot
            exact hheld (List.any_eq_true.mpr ⟨id, by simpa [List.reduceOption] using hid, decide_eq_true hnot⟩)
          have hnew := getD_mem effective (fun id hid => hids id (by simp [hid])) (by simp : old.effective ∈ _)
          refine ⟨getD_mem real (fun id hid => hids id (by simp [hid])) (by simp), hnew,
            getD_mem saved (fun id hid => hids id (by simp [hid])) (by simp), List.mem_append_left [old.fs] hnew⟩
  | fsId fs =>
      simp only [planIds, IdAuthority.unprivileged, Bool.false_eq_true, false_or] at h
      split at h
      next hheld =>
        cases h
        rw [IdRoles.holds_iff] at hheld
        refine ⟨by simp, by simp, by simp, ?_⟩
        rcases hheld with hheld | rfl
        · exact List.mem_append_left [old.fs] hheld
        · simp
      next => cases h

end Roles

section Fixups

variable {rootKuid : Option Kuid} {old new : IdRoles Kuid} {caps : CapabilitySets}

theorem CapabilitySets.Lowers.refl (caps : CapabilitySets) : caps.Lowers caps := ⟨BitWords.subset_refl _, rfl, rfl⟩

theorem CapabilitySets.Lowers.trans {caps' caps'' : CapabilitySets} (h : caps.Lowers caps') (h' : caps'.Lowers caps'') :
    caps.Lowers caps'' :=
  ⟨BitWords.subset_trans h'.permitted h.permitted, h'.bounding.trans h.bounding, h'.securebits.trans h.securebits⟩

/-- Sets below valid ones are valid when they nest as they must. -/
theorem CapabilitySets.Valid.lower (h : caps.Valid) {effective permitted inheritable ambient : CapabilityWords}
    (hpermitted : permitted ⊆ caps.permitted) (hinheritable : inheritable ⊆ capabilityValidMask)
    (heffective : effective ⊆ permitted) (hambient : ambient ⊆ permitted ∩ inheritable) :
    ∃ caps', CapabilitySets.tryNew effective permitted inheritable caps.bounding ambient caps.securebits = .ok caps' ∧
      caps'.Valid ∧ caps.Lowers caps' := by
  have hknown := h.known
  simp only [BitWords.union_subset] at hknown
  have hmask : permitted ⊆ capabilityValidMask := BitWords.subset_trans hpermitted hknown.1.1.1.2
  have hvalid : Valid ⟨effective, permitted, inheritable, caps.bounding, ambient, caps.securebits⟩ := by
    refine ⟨h.securebits, ?_, heffective, hambient⟩
    simp only [BitWords.union_subset]
    exact ⟨⟨⟨⟨BitWords.subset_trans heffective hmask, hmask⟩, hinheritable⟩, hknown.1.2⟩,
      BitWords.subset_trans (BitWords.subset_inter.mp hambient).1 hmask⟩
  exact ⟨_, hvalid.tryNew, hvalid, hpermitted, rfl, rfl⟩

theorem CapabilitySets.Valid.inheritable_known (h : caps.Valid) : caps.inheritable ⊆ capabilityValidMask := by
  have hknown := h.known
  simp only [BitWords.union_subset] at hknown
  exact hknown.1.1.2

theorem fixupUidCapabilities_spec (h : caps.Valid) :
    ∃ caps', fixupUidCapabilities rootKuid old new caps = .ok caps' ∧ caps'.Valid ∧ caps.Lowers caps' := by
  unfold fixupUidCapabilities
  split
  · exact ⟨caps, rfl, h, .refl caps⟩
  · dsimp only
    apply h.lower
    · split
      · exact BitWords.empty_subset _
      · exact BitWords.subset_refl _
    · exact h.inheritable_known
    · split
      · exact BitWords.subset_refl _
      · split
        · exact BitWords.empty_subset _
        · split
          · exact BitWords.empty_subset _
          · exact h.effective
    · split
      · exact BitWords.empty_subset _
      next hstays =>
        rw [Bool.not_eq_true] at hstays
        rw [hstays, Bool.false_and]
        exact h.ambient

theorem fixupFsuidCapability_subset {oldFsuid newFsuid : Kuid} {permitted effective : CapabilityWords}
    {capability : Nat}
    (h : effective ⊆ permitted) : fixupFsuidCapability rootKuid oldFsuid newFsuid permitted effective capability ⊆
    permitted := by
  unfold fixupFsuidCapability
  split
  · exact h
  next word mask hmask =>
    split
    · exact BitWords.subset_trans (BitWords.modify_and_subset _) h
    · split
      next hset =>
        simp only [CapabilitySets.capMask] at hmask
        split at hmask
        · cases hmask
        · split at hmask
          · cases hmask
            exact BitWords.modify_or_subset h hset.2.2
          · cases hmask
      next => exact h

theorem fixupFsuidCapabilities_spec {oldFsuid newFsuid : Kuid} (h : caps.Valid) :
    ∃ caps', fixupFsuidCapabilities rootKuid oldFsuid newFsuid caps = .ok caps' ∧ caps'.Valid ∧ caps.Lowers caps' := by
  unfold fixupFsuidCapabilities
  split
  · exact ⟨caps, rfl, h, .refl caps⟩
  · apply h.lower (BitWords.subset_refl _) h.inheritable_known ?_ h.ambient
    -- the loop keeps what it raises within the permitted set
    have hloop : ∀ (capabilities : List Nat) (effective : CapabilityWords), effective ⊆ caps.permitted →
        capabilities.foldl (fixupFsuidCapability rootKuid oldFsuid newFsuid caps.permitted) effective ⊆
          caps.permitted := by
      intro capabilities
      induction capabilities with
      | nil => exact fun _ hsub => hsub
      | cons capability capabilities ih => exact fun _ hsub => ih _ (fixupFsuidCapability_subset hsub)
    exact hloop _ _ h.effective

theorem fixupCapabilities_spec (rootKuid : Option Kuid) (old new : IdRoles Kuid) (h : caps.Valid)
    (input : UserIdTransitionInput) :
    ∃ caps', fixupCapabilities rootKuid old new caps input = .ok caps' ∧ caps'.Valid ∧ caps.Lowers caps' := by
  cases input with
  | fsId fs => exact fixupFsuidCapabilities_spec h
  | id id => exact fixupUidCapabilities_spec h
  | reId real effective => exact fixupUidCapabilities_spec h
  | resId real effective saved => exact fixupUidCapabilities_spec h

end Fixups

section Plans

variable {N : Type} {old : Credential N}

/-- A planner refuses with `NotPermitted`, or plans valid capabilities below the
old ones. -/
theorem planUserIdTransition_spec (view : UserNamespaceView N) (input : UserIdTransitionInput) (authority : IdAuthority)
    (h : old.caps.Valid) :
    planUserIdTransition view old input authority = .err .notPermitted ∨
    ∃ plan, planUserIdTransition view old input authority = .ok plan ∧ plan.capabilities.Valid ∧
      old.caps.Lowers plan.capabilities ∧ plan.ids.group = old.ids.group ∧
      (authority = .unprivileged → old.ids.user.Within plan.ids.user) := by
  rcases planIds_returns old.ids.user authority input with herr | ⟨roles, hroles⟩
  · left
    rw [planUserIdTransition, herr]
    rfl
  · right
    cases roles with
    | none =>
        exact ⟨⟨old, input, authority, old.ids, old.caps⟩, by rw [planUserIdTransition, hroles]; rfl,
          h, .refl _, rfl, fun _ => .refl _⟩
    | some roles =>
        obtain ⟨caps, hcaps, hvalid, hlowers⟩ :=
          fixupCapabilities_spec (view.rootKuid old.userNs) old.ids.user roles h input
        refine ⟨⟨old, input, authority, old.ids.withUser roles, caps⟩, ?_, hvalid, hlowers, rfl, ?_⟩
        · rw [planUserIdTransition, hroles]
          simp only [Outcome.ok_bind, hcaps]
        · rintro rfl
          exact planIds_within hroles

theorem planGroupIdTransition_spec (old : Credential N) (input : GroupIdTransitionInput) (authority : IdAuthority) :
    planGroupIdTransition old input authority = .err .notPermitted ∨
    ∃ plan, planGroupIdTransition old input authority = .ok plan ∧ plan.ids.user = old.ids.user ∧
      (authority = .unprivileged → old.ids.group.Within plan.ids.group) := by
  rcases planIds_returns old.ids.group authority input with herr | ⟨roles, hroles⟩
  · left
    rw [planGroupIdTransition, herr]
    rfl
  · right
    cases roles with
    | none =>
        exact ⟨⟨old, input, authority, old.ids⟩, by rw [planGroupIdTransition, hroles]; rfl, rfl,
          fun _ => .refl _⟩
    | some roles =>
        refine ⟨⟨old, input, authority, old.ids.withGroup roles⟩, by rw [planGroupIdTransition, hroles]; rfl, rfl, ?_⟩
        rintro rfl
        exact planIds_within hroles

theorem planCapset_spec (request : CapsetRequest) (capset : CapsetAuthority) (h : old.caps.Valid) :
    planCapset old request capset = .err .notPermitted ∨
    ∃ plan, planCapset old request capset = .ok plan ∧ plan.capabilities.Valid ∧ old.caps.Lowers plan.capabilities := by
  unfold planCapset
  split
  · exact .inl rfl
  next hpermitted =>
    split
    · exact .inl rfl
    · split
      · exact .inl rfl
      · right
        simp only [not_or, not_not] at hpermitted
        have hmask := request.valid
        simp only [BitWords.union_subset] at hmask
        have hambient : old.caps.ambient ∩ (request.permitted ∩ request.inheritable) ⊆
            request.permitted ∩ request.inheritable := by
          rw [BitWords.subset_iff]
          intro flag hflag
          exact (BitWords.mem_inter.mp hflag).2
        obtain ⟨caps, hcaps, hvalid, hlowers⟩ := h.lower hpermitted.2 hmask.2 hpermitted.1 hambient
        exact ⟨⟨old, request, capset, caps⟩, by simp only [hcaps, Outcome.ok_bind], hvalid, hlowers⟩

end Plans

namespace Credential

variable {N : Type} [DecidableEq N] {view : UserNamespaceView N} {start old : Credential N}
  {prepared : PreparedCredential N}

theorem tryPrepare_proposed {ids : CredentialIds} {capabilities : CapabilitySets}
    (h : tryPreparePlannedCredential view old ids capabilities = .ok prepared) :
    prepared.proposed = ⟨ids, old.groups, capabilities, old.noNewPrivs, old.userNs⟩ := by
  obtain ⟨proposed, hproposed, heq⟩ := Outcome.bind_eq_ok.mp h
  cases heq
  exact (tryFromTransition_eq_ok.mp hproposed).2.2.2.2

theorem call_spec {call : Call} (hvalid : old.caps.Valid) (h : old.call view call = .ok prepared) :
    prepared.proposed.caps.Valid ∧ old.caps.Lowers prepared.proposed.caps ∧
      old.ids.user.Within prepared.proposed.ids.user ∧ old.ids.group.Within prepared.proposed.ids.group := by
  cases call with
  | user input =>
      obtain ⟨plan, hplan, hprepare⟩ := Outcome.bind_eq_ok.mp h
      rw [tryPrepare_proposed hprepare]
      rcases planUserIdTransition_spec view input .unprivileged hvalid with herr | ⟨plan', hplan', hv, hl, hg, hu⟩
      · rw [herr] at hplan
        cases hplan
      · rw [hplan'] at hplan
        cases hplan
        exact ⟨hv, hl, hu rfl, hg ▸ .refl _⟩
  | group input =>
      obtain ⟨plan, hplan, hprepare⟩ := Outcome.bind_eq_ok.mp h
      rw [tryPrepare_proposed hprepare]
      rcases planGroupIdTransition_spec old input .unprivileged with herr | ⟨plan', hplan', hu, hg⟩
      · rw [herr] at hplan
        cases hplan
      · rw [hplan'] at hplan
        cases hplan
        exact ⟨hvalid, .refl _, hu ▸ .refl _, hg rfl⟩
  | capset request =>
      obtain ⟨plan, hplan, hprepare⟩ := Outcome.bind_eq_ok.mp h
      rw [tryPrepare_proposed hprepare]
      rcases planCapset_spec request .restricted hvalid with herr | ⟨plan', hplan', hv, hl⟩
      · rw [herr] at hplan
        cases hplan
      · rw [hplan'] at hplan
        cases hplan
        exact ⟨hv, hl, .refl _, .refl _⟩

/-- The credentials that calls without privilege lead to. The maps of the
namespaces may be published in between. -/
inductive Reaches (start : Credential N) : Credential N → Prop
  | refl : Reaches start start
  | step {old : Credential N} {prepared : PreparedCredential N} (h : Reaches start old) (view : UserNamespaceView N)
      (call : Call) (hcall : old.call view call = .ok prepared) : Reaches start prepared.proposed

theorem Reaches.spec (hvalid : start.caps.Valid) (h : Reaches start old) :
    old.caps.Valid ∧ start.caps.Lowers old.caps ∧ start.ids.user.Within old.ids.user ∧
      start.ids.group.Within old.ids.group := by
  induction h with
  | refl => exact ⟨hvalid, .refl _, .refl _, .refl _⟩
  | step _ view call hcall ih =>
      obtain ⟨hv, hl, hu, hg⟩ := ih
      obtain ⟨hv', hl', hu', hg'⟩ := call_spec hv hcall
      exact ⟨hv', hl.trans hl', hu.trans hu', hg.trans hg'⟩

/-- Without privilege no sequence of calls finds an id or a capability that the
credential did not hold, and the planners never find a valid credential at
fault. -/
theorem unprivileged_calls (hvalid : start.caps.validate = .ok ()) (h : Reaches start old) :
    (∀ id ∈ [old.ids.ruid, old.ids.euid, old.ids.suid], id ∈ [start.ids.ruid, start.ids.euid, start.ids.suid]) ∧
    old.ids.fsuid ∈ [start.ids.ruid, start.ids.euid, start.ids.suid, start.ids.fsuid] ∧
    (∀ id ∈ [old.ids.rgid, old.ids.egid, old.ids.sgid], id ∈ [start.ids.rgid, start.ids.egid, start.ids.sgid]) ∧
    old.ids.fsgid ∈ [start.ids.rgid, start.ids.egid, start.ids.sgid, start.ids.fsgid] ∧
    old.caps.permitted ⊆ start.caps.permitted ∧ old.caps.bounding = start.caps.bounding ∧
    old.caps.securebits = start.caps.securebits ∧ old.caps.effective ⊆ old.caps.permitted ∧
    old.caps.ambient ⊆ old.caps.permitted ∩ old.caps.inheritable ∧
    (∀ view input authority, planUserIdTransition view old input authority ≠ .err .invalidInput) ∧
    (∀ input authority, planGroupIdTransition old input authority ≠ .err .invalidInput) ∧
    ∀ request authority, planCapset old request authority ≠ .err .invalidInput := by
  obtain ⟨hv, hl, hu, hg⟩ := h.spec (CapabilitySets.validate_eq_ok.mp hvalid)
  refine ⟨?_, hu.fs, ?_, hg.fs, hl.permitted, hl.bounding, hl.securebits, hv.effective, hv.ambient, ?_, ?_, ?_⟩
  · intro id hid
    simp only [List.mem_cons, List.not_mem_nil, or_false] at hid
    rcases hid with rfl | rfl | rfl
    · exact hu.real
    · exact hu.effective
    · exact hu.saved
  · intro id hid
    simp only [List.mem_cons, List.not_mem_nil, or_false] at hid
    rcases hid with rfl | rfl | rfl
    · exact hg.real
    · exact hg.effective
    · exact hg.saved
  · intro view input authority
    rcases planUserIdTransition_spec view input authority hv with herr | ⟨plan, hplan, -⟩
    · rw [herr]
      nofun
    · rw [hplan]
      nofun
  · intro input authority
    rcases planGroupIdTransition_spec old input authority with herr | ⟨plan, hplan, -⟩
    · rw [herr]
      nofun
    · rw [hplan]
      nofun
  · intro request authority
    rcases planCapset_spec request authority hv with herr | ⟨plan, hplan, -⟩
    · rw [herr]
      nofun
    · rw [hplan]
      nofun

/-- A set-user-id program of root that goes back to its user. -/
theorem unprivileged_calls_setuid :
    ∃ start old : Credential Unit, Reaches start old ∧ start.ids.euid.raw = 0 ∧ old.ids.euid.raw = 1000 ∧
      old.ids.euid ∈ [start.ids.ruid, start.ids.euid, start.ids.suid] := by
  have hok : ((Credential.call ⟨fun _ => none, fun _ => 0, fun _ => .root, fun _ => some .root⟩
      ⟨⟨⟨1000, by decide⟩, .root, .root, .root, .root, .root, .root, .root⟩, ⟨[], by decide, .nil⟩,
        ⟨capabilityValidMask, capabilityValidMask, ∅, capabilityValidMask, ∅, 0⟩, false, ()⟩
      (.user (.id ⟨1000, by decide⟩))).toOption.map (·.proposed.ids.euid.raw)) = some 1000 := by
    decide +kernel
  obtain ⟨prepared, hprepared, heuid⟩ := Option.map_eq_some_iff.mp hok
  have hreaches := Reaches.step .refl _ _ (Outcome.toOption_eq_some.mp hprepared)
  exact ⟨_, _, hreaches, rfl, heuid, (unprivileged_calls (by decide) hreaches).1 _ (by simp)⟩

end Credential

end TheKernel.Cred
