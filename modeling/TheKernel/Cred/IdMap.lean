import TheKernel.Lib.Outcome
import TheKernel.Lib.Ranges

namespace TheKernel.Cred

inductive CredError where
  | invalidInput
  | notPermitted
  | noMemory
  | capacity
  deriving DecidableEq

def invalidId : Nat := 4294967295

def idMapMaxExtents : Nat := 340

inductive IdSpace where
  | kuid
  | kgid
  | userUid
  | userGid

structure TypedId (space : IdSpace) where
  raw : Nat
  valid : raw < invalidId
  deriving DecidableEq

abbrev Kuid := TypedId .kuid

abbrev Kgid := TypedId .kgid

abbrev UserUid := TypedId .userUid

abbrev UserGid := TypedId .userGid

namespace TypedId

variable {space : IdSpace}

def fromRaw (raw : Nat) : Option (TypedId space) := if h : raw < invalidId then some ⟨raw, h⟩ else none

/-- Id 0: `Kuid::INITIAL_ROOT`, `Kgid::INITIAL_ROOT`, `UserUid::ROOT` and `UserGid::ROOT`. -/
def root : TypedId space := ⟨0, by decide⟩

end TypedId

structure IdMapInputExtent where
  first : Nat
  lowerFirst : Nat
  count : Nat

namespace IdMapInputExtent

def upperEnd (row : IdMapInputExtent) : Nat := row.first + row.count

def lowerEnd (row : IdMapInputExtent) : Nat := row.lowerFirst + row.count

end IdMapInputExtent

structure IdMapExtent where
  first : Nat
  lowerFirst : Nat
  count : Nat
  deriving DecidableEq

namespace IdMapExtent

def upperEnd (extent : IdMapExtent) : Nat := extent.first + extent.count

def lowerEnd (extent : IdMapExtent) : Nat := extent.lowerFirst + extent.count

end IdMapExtent

structure IdMap where
  forward : List IdMapExtent
  reverse : List IdMapExtent
  deriving DecidableEq

def checkedAdd (a b : Nat) : Option Nat := if a + b ≤ invalidId then some (a + b) else none

def validRangeEnd (first count : Nat) : Option Nat :=
  if count = 0 ∨ first = invalidId then none else checkedAdd first count

def validateRange (first count : Nat) : Outcome CredError Unit :=
  match validRangeEnd first count with
  | some _ => .ok ()
  | none => .err .invalidInput

def validateRanges {α : Type} (first lowerFirst count : α → Nat) : List α → Outcome CredError Unit
  | [] => .ok ()
  | extent :: extents => do
      validateRange (first extent) (count extent)
      validateRange (lowerFirst extent) (count extent)
      validateRanges first lowerFirst count extents

def validateNonOverlapping {α : Type} (start stop : α → Nat) : List α → Outcome CredError Unit
  | a :: b :: rest => if stop a > start b then .err .invalidInput else validateNonOverlapping start stop (b :: rest)
  | _ => .ok ()

/-- `sort_unstable_by_key` is a sort by key here: rows with one key overlap, so
they are refused in whichever order they come. -/
def validateIdMapInput (input : List IdMapInputExtent) : Outcome CredError Unit :=
  if input.isEmpty ∨ input.length > idMapMaxExtents then .err .invalidInput else do
    validateRanges (·.first) (·.lowerFirst) (·.count) input
    let ordered := sortByKey (·.first) input
    validateNonOverlapping (·.first) (·.upperEnd) ordered
    let ordered := sortByKey (·.lowerFirst) ordered
    validateNonOverlapping (·.lowerFirst) (·.lowerEnd) ordered

def findExtent (extents : List IdMapExtent) (id : Nat) (start stop : IdMapExtent → Nat) : Option IdMapExtent :=
  let left := partitionPoint (fun extent => start extent ≤ id) extents 0 extents.length
  if left = 0 then none else
    match extents[left - 1]? with
    | some candidate => if id < stop candidate then some candidate else none
    | none => none

namespace IdMap

def tryFromKernelExtents (forward : List IdMapExtent) : Outcome CredError IdMap :=
  if forward.isEmpty ∨ forward.length > idMapMaxExtents then .err .invalidInput else do
    validateRanges (·.first) (·.lowerFirst) (·.count) forward
    let forward := sortByKey (·.first) forward
    validateNonOverlapping (·.first) (·.upperEnd) forward
    let reverse := sortByKey (·.lowerFirst) forward
    validateNonOverlapping (·.lowerFirst) (·.lowerEnd) reverse
    .ok ⟨forward, reverse⟩

def tryIdentity : Outcome CredError IdMap := tryFromKernelExtents [⟨0, 0, invalidId⟩]

def mapIdToKernel (m : IdMap) (id : Nat) : Option Nat := do
  let extent ← findExtent m.forward id (·.first) (·.upperEnd)
  checkedAdd extent.lowerFirst (id - extent.first)

def mapIdFromKernel (m : IdMap) (id : Nat) : Option Nat := do
  let extent ← findExtent m.reverse id (·.lowerFirst) (·.lowerEnd)
  checkedAdd extent.first (id - extent.lowerFirst)

def mapRangeToKernel (m : IdMap) (first count : Nat) : Option Nat := do
  let stop ← validRangeEnd first count
  let extent ← findExtent m.forward first (·.first) (·.upperEnd)
  if stop > extent.upperEnd then none else checkedAdd extent.lowerFirst (first - extent.first)

def userUidToKernel (m : IdMap) (id : UserUid) : Option Kuid := (m.mapIdToKernel id.raw).bind TypedId.fromRaw

def kernelUidToUser (m : IdMap) (id : Kuid) : Option UserUid := (m.mapIdFromKernel id.raw).bind TypedId.fromRaw

def userGidToKernel (m : IdMap) (id : UserGid) : Option Kgid := (m.mapIdToKernel id.raw).bind TypedId.fromRaw

def kernelGidToUser (m : IdMap) (id : Kgid) : Option UserGid := (m.mapIdFromKernel id.raw).bind TypedId.fromRaw

def resolve (parent : IdMap) : List IdMapInputExtent → Outcome CredError (List IdMapExtent)
  | [] => .ok []
  | extent :: extents =>
      match parent.mapRangeToKernel extent.lowerFirst extent.count with
      | none => .err .notPermitted
      | some lowerFirst => do
          let resolved ← resolve parent extents
          .ok (⟨extent.first, lowerFirst, extent.count⟩ :: resolved)

def tryFromParentSlice (input : List IdMapInputExtent) (parent : IdMap) : Outcome CredError IdMap := do
  validateIdMapInput input
  let resolved ← resolve parent input
  tryFromKernelExtents resolved

end IdMap

theorem TypedId.bind_fromRaw_eq_some {space : IdSpace} {o : Option Nat} {id : TypedId space} :
    o.bind TypedId.fromRaw = some id ↔ o = some id.raw := by
  cases o with
  | none => simp
  | some raw =>
      obtain ⟨n, hn⟩ := id
      simp only [Option.bind_some, fromRaw, Option.some.injEq]
      grind

section Checks

variable {α : Type} {first lowerFirst count start stop : α → Nat} {xs : List α}

theorem checkedAdd_eq_some {a b n : Nat} : checkedAdd a b = some n ↔ n = a + b ∧ n ≤ invalidId := by
  unfold checkedAdd
  grind

theorem validRangeEnd_eq_some {a b n : Nat} : validRangeEnd a b = some n ↔ 0 < b ∧ n = a + b ∧ n ≤ invalidId := by
  unfold validRangeEnd checkedAdd
  grind

theorem validateRange_eq_ok {a b : Nat} : validateRange a b = .ok () ↔ 0 < b ∧ a + b ≤ invalidId := by
  unfold validateRange validRangeEnd checkedAdd
  grind

theorem validateRanges_eq_ok : validateRanges first lowerFirst count xs = .ok () ↔
    ∀ x ∈ xs, 0 < count x ∧ first x + count x ≤ invalidId ∧ lowerFirst x + count x ≤ invalidId := by
  induction xs with
  | nil => simp [validateRanges]
  | cons x xs ih =>
      simp only [validateRanges, Outcome.unit_bind_eq_ok, validateRange_eq_ok, ih, List.forall_mem_cons]
      tauto

theorem validateNonOverlapping_eq_ok :
    validateNonOverlapping start stop xs = .ok () ↔ xs.IsChain fun a b => stop a ≤ start b := by
  fun_induction validateNonOverlapping start stop xs with
  | case1 a b rest hlt =>
      simp only [List.isChain_cons_cons, reduceCtorEq, false_iff, not_and]
      intro hle
      omega
  | case2 a b rest hle ih =>
      rw [ih, List.isChain_cons_cons]
      simp only [iff_and_self]
      omega
  | case3 xs hxs =>
      rcases xs with _ | ⟨x, _ | ⟨y, ys⟩⟩
      · simp
      · simp
      · exact absurd rfl (hxs x y ys)

/-- The check of the sorted rows says that no two rows overlap. -/
theorem validateNonOverlapping_sorted (hne : ∀ x ∈ xs, start x < stop x) :
    validateNonOverlapping start stop (sortByKey start xs) = .ok () ↔ xs.Pairwise (Apart start stop) := by
  have hsorted := isChain_iff_apart (sortByKey start xs) (fun x hx => hne x (mem_sortByKey.mp hx))
    (sorted_sortByKey start xs)
  rw [validateNonOverlapping_eq_ok, hsorted]
  exact pairwise_apart_perm (perm_sortByKey start xs)

theorem checks_iff (xs : List α) {upperEnd lowerEnd : α → Nat} (hupper : ∀ x, upperEnd x = first x + count x)
    (hlower : ∀ x, lowerEnd x = lowerFirst x + count x) :
    (¬ (xs.isEmpty ∨ xs.length > idMapMaxExtents) ∧ validateRanges first lowerFirst count xs = .ok () ∧
      validateNonOverlapping first upperEnd (sortByKey first xs) = .ok () ∧
      validateNonOverlapping lowerFirst lowerEnd (sortByKey lowerFirst (sortByKey first xs)) = .ok ()) ↔
    1 ≤ xs.length ∧ xs.length ≤ idMapMaxExtents ∧
      (∀ x ∈ xs, 0 < count x ∧ upperEnd x ≤ invalidId ∧ lowerEnd x ≤ invalidId) ∧
      xs.Pairwise (Apart first upperEnd) ∧ xs.Pairwise (Apart lowerFirst lowerEnd) := by
  have hlen : ¬ (xs.isEmpty ∨ xs.length > idMapMaxExtents) ↔ 1 ≤ xs.length ∧ xs.length ≤ idMapMaxExtents := by
    rw [List.isEmpty_iff, ← List.length_eq_zero_iff]
    omega
  rw [hlen, and_assoc, validateRanges_eq_ok]
  simp only [← hupper, ← hlower]
  refine and_congr_right fun _ => and_congr_right fun _ => and_congr_right fun hall => ?_
  have hne : ∀ x ∈ xs, first x < upperEnd x ∧ lowerFirst x < lowerEnd x := by
    intro x hx
    have := (hall x hx).1
    rw [hupper, hlower]
    omega
  rw [validateNonOverlapping_sorted fun x hx => (hne x hx).1,
    validateNonOverlapping_sorted fun x hx => (hne x (mem_sortByKey.mp hx)).2,
    pairwise_apart_perm (perm_sortByKey _ xs)]

end Checks

/-- Two sides that are nonempty and end within the ids. -/
structure IdMapExtent.Valid (extent : IdMapExtent) : Prop where
  count : 0 < extent.count
  upper : extent.upperEnd ≤ invalidId
  lower : extent.lowerEnd ≤ invalidId

structure Acceptable (parent : IdMap) (rows : List IdMapInputExtent) : Prop where
  some : 1 ≤ rows.length
  few : rows.length ≤ idMapMaxExtents
  valid : ∀ row ∈ rows, 0 < row.count ∧ row.upperEnd ≤ invalidId ∧ row.lowerEnd ≤ invalidId
  upper : rows.Pairwise (Apart (·.first) (·.upperEnd))
  lower : rows.Pairwise (Apart (·.lowerFirst) (·.lowerEnd))
  within : ∀ row ∈ rows, ∃ extent ∈ parent.forward, extent.first ≤ row.lowerFirst ∧ row.lowerEnd ≤ extent.upperEnd

namespace IdMap

/-- The indexes hold the same extents, each in its own order, without overlaps. -/
structure Sound (m : IdMap) : Prop where
  perm : m.reverse.Perm m.forward
  valid : ∀ extent ∈ m.forward, extent.Valid
  forward : m.forward.Pairwise fun a b => a.first ≤ b.first
  reverse : m.reverse.Pairwise fun a b => a.lowerFirst ≤ b.lowerFirst
  upper : m.forward.Pairwise (Apart (·.first) (·.upperEnd))
  lower : m.forward.Pairwise (Apart (·.lowerFirst) (·.lowerEnd))

inductive Nested : IdMap → Prop
  | identity {m : IdMap} (h : tryIdentity = .ok m) : Nested m
  | child {parent m : IdMap} {rows : List IdMapInputExtent} (hparent : Nested parent)
      (h : tryFromParentSlice rows parent = .ok m) : Nested m

def resolved (parent : IdMap) (row : IdMapInputExtent) : IdMapExtent :=
  ⟨row.first, (parent.mapRangeToKernel row.lowerFirst row.count).getD 0, row.count⟩

def applyRows (rows : List IdMapInputExtent) (id : Nat) : Option Nat :=
  (rows.find? fun row => row.first ≤ id ∧ id < row.upperEnd).map fun row => row.lowerFirst + (id - row.first)

variable {m parent : IdMap} {rows : List IdMapInputExtent} {extents : List IdMapExtent} {extent : IdMapExtent}
  {id k : Nat}

theorem findExtent_eq_some {start stop : IdMapExtent → Nat} (hne : ∀ x ∈ extents, start x < stop x)
    (hsorted : extents.Pairwise fun a b => start a ≤ start b) (hapart : extents.Pairwise (Apart start stop)) :
    findExtent extents id start stop = some extent ↔ extent ∈ extents ∧ start extent ≤ id ∧ id < stop extent := by
  rw [← lookup_apart hne hsorted hapart id]
  unfold findExtent
  grind

theorem Sound.find_forward (h : m.Sound) : findExtent m.forward id (·.first) (·.upperEnd) = some extent ↔
    extent ∈ m.forward ∧ extent.first ≤ id ∧ id < extent.upperEnd := by
  refine findExtent_eq_some (fun x hx => ?_) h.forward h.upper
  exact Nat.lt_add_of_pos_right (h.valid x hx).count

theorem Sound.find_reverse (h : m.Sound) : findExtent m.reverse id (·.lowerFirst) (·.lowerEnd) = some extent ↔
    extent ∈ m.forward ∧ extent.lowerFirst ≤ id ∧ id < extent.lowerEnd := by
  rw [← h.perm.mem_iff]
  refine findExtent_eq_some (fun x hx => ?_) h.reverse ((pairwise_apart_perm h.perm).mpr h.lower)
  exact Nat.lt_add_of_pos_right (h.valid x (h.perm.mem_iff.mp hx)).count

theorem Sound.mapIdToKernel_eq_some (h : m.Sound) : m.mapIdToKernel id = some k ↔
    ∃ extent ∈ m.forward, extent.first ≤ id ∧ id < extent.upperEnd ∧ k = extent.lowerFirst + (id - extent.first) := by
  simp only [mapIdToKernel, Option.bind_eq_bind, Option.bind_eq_some_iff, h.find_forward, checkedAdd_eq_some]
  refine exists_congr fun extent => ⟨fun ⟨⟨hmem, hle, hlt⟩, hk, _⟩ => ⟨hmem, hle, hlt, hk⟩, ?_⟩
  rintro ⟨hmem, hle, hlt, hk⟩
  have hlower := (h.valid extent hmem).lower
  simp only [IdMapExtent.lowerEnd, IdMapExtent.upperEnd] at hlower hlt
  exact ⟨⟨hmem, hle, hlt⟩, hk, by omega⟩

theorem Sound.mapIdFromKernel_eq_some (h : m.Sound) : m.mapIdFromKernel k = some id ↔
    ∃ extent ∈ m.forward, extent.lowerFirst ≤ k ∧ k < extent.lowerEnd ∧ id = extent.first +
      (k - extent.lowerFirst) := by
  simp only [mapIdFromKernel, Option.bind_eq_bind, Option.bind_eq_some_iff, h.find_reverse, checkedAdd_eq_some]
  refine exists_congr fun extent => ⟨fun ⟨⟨hmem, hle, hlt⟩, hk, _⟩ => ⟨hmem, hle, hlt, hk⟩, ?_⟩
  rintro ⟨hmem, hle, hlt, hk⟩
  have hupper := (h.valid extent hmem).upper
  simp only [IdMapExtent.lowerEnd, IdMapExtent.upperEnd] at hupper hlt
  exact ⟨⟨hmem, hle, hlt⟩, hk, by omega⟩

theorem Sound.inverse (h : m.Sound) : m.mapIdToKernel id = some k ↔ m.mapIdFromKernel k = some id := by
  rw [h.mapIdToKernel_eq_some, h.mapIdFromKernel_eq_some]
  refine exists_congr fun extent => and_congr_right fun _ => ?_
  simp only [IdMapExtent.lowerEnd, IdMapExtent.upperEnd]
  omega

theorem Sound.mapRangeToKernel_eq_some {first count lowerFirst : Nat} (h : m.Sound) :
    m.mapRangeToKernel first count = some lowerFirst ↔ 0 < count ∧ first + count ≤ invalidId ∧
      ∃ extent ∈ m.forward, extent.first ≤ first ∧ first + count ≤ extent.upperEnd ∧
        lowerFirst = extent.lowerFirst + (first - extent.first) := by
  simp only [mapRangeToKernel, Option.bind_eq_bind, Option.bind_eq_some_iff, h.find_forward, validRangeEnd_eq_some]
  constructor
  · rintro ⟨stop, ⟨hpos, rfl, hstop⟩, extent, ⟨hmem, hle, hlt⟩, hif⟩
    split at hif
    · cases hif
    · rename_i hend
      exact ⟨hpos, hstop, extent, hmem, hle, by omega, (checkedAdd_eq_some.mp hif).1⟩
  · rintro ⟨hpos, hstop, extent, hmem, hle, hend, rfl⟩
    refine ⟨_, ⟨hpos, rfl, hstop⟩, extent, ⟨hmem, hle, by omega⟩, ?_⟩
    have hlower := (h.valid extent hmem).lower
    simp only [IdMapExtent.lowerEnd, IdMapExtent.upperEnd] at hlower hend
    rw [if_neg (by simp only [IdMapExtent.upperEnd]; omega), checkedAdd_eq_some]
    exact ⟨rfl, by omega⟩

/-- A range that has one parent extent is mapped id by id. -/
theorem Sound.mapRange_point {first count lowerFirst : Nat} (h : m.Sound)
    (hrange : m.mapRangeToKernel first count = some lowerFirst)
    (id : Nat) (hle : first ≤ id) (hlt : id < first + count) :
    m.mapIdToKernel id = some (lowerFirst + (id - first)) := by
  obtain ⟨-, -, extent, hmem, hfirst, hend, rfl⟩ := h.mapRangeToKernel_eq_some.mp hrange
  refine h.mapIdToKernel_eq_some.mpr ⟨extent, hmem, by omega, by omega, by omega⟩

theorem tryFromKernelExtents_eq_ok : tryFromKernelExtents extents = .ok m ↔
    1 ≤ extents.length ∧ extents.length ≤ idMapMaxExtents ∧ (∀ extent ∈ extents, extent.Valid) ∧
    extents.Pairwise (Apart (·.first) (·.upperEnd)) ∧ extents.Pairwise (Apart (·.lowerFirst) (·.lowerEnd)) ∧
    m = ⟨sortByKey (·.first) extents, sortByKey (·.lowerFirst) (sortByKey (·.first) extents)⟩ := by
  have hvalid : (∀ x ∈ extents, 0 < x.count ∧ x.upperEnd ≤ invalidId ∧ x.lowerEnd ≤ invalidId) ↔
      ∀ extent ∈ extents, extent.Valid :=
    forall₂_congr fun x _ => ⟨fun ⟨hc, hu, hl⟩ => ⟨hc, hu, hl⟩, fun ⟨hc, hu, hl⟩ => ⟨hc, hu, hl⟩⟩
  have hchecks := checks_iff extents (fun x => (rfl : x.upperEnd = _)) (fun x => (rfl : x.lowerEnd = _))
  simp only [tryFromKernelExtents, Outcome.guard_eq_ok, Outcome.unit_bind_eq_ok, Outcome.ok.injEq, eq_comm (b := m)]
  rw [hvalid] at hchecks
  tauto

theorem sound_of_kernelExtents (h : tryFromKernelExtents extents = .ok m) : m.Sound := by
  obtain ⟨-, -, hvalid, hupper, hlower, rfl⟩ := tryFromKernelExtents_eq_ok.mp h
  have hperm := perm_sortByKey (fun x : IdMapExtent => x.first) extents
  exact {
    perm := perm_sortByKey _ _
    valid := fun extent hextent => hvalid extent (mem_sortByKey.mp hextent)
    forward := sorted_sortByKey _ _
    reverse := sorted_sortByKey _ _
    upper := (pairwise_apart_perm hperm).mpr hupper
    lower := (pairwise_apart_perm hperm).mpr hlower }

theorem resolve_eq_ok : resolve parent rows = .ok extents ↔
    (∀ row ∈ rows, (parent.mapRangeToKernel row.lowerFirst row.count).isSome) ∧ extents = rows.map parent.resolved := by
  rw [eq_comm (a := extents)]
  induction rows generalizing extents with
  | nil => simp [resolve]
  | cons row rows ih =>
      unfold resolve
      split
      case h_1 hnone => simp [hnone]
      case h_2 lowerFirst hsome =>
        simp only [Outcome.bind_eq_ok, ih, Outcome.ok.injEq, List.forall_mem_cons, hsome, Option.isSome_some, true_and,
          List.map_cons, resolved, Option.getD_some]
        constructor
        · rintro ⟨_, ⟨hall, rfl⟩, rfl⟩
          exact ⟨hall, rfl⟩
        · rintro ⟨hall, rfl⟩
          exact ⟨_, ⟨hall, rfl⟩, rfl⟩

theorem tryFromParentSlice_eq_ok : tryFromParentSlice rows parent = .ok m ↔ validateIdMapInput rows = .ok () ∧
    (∀ row ∈ rows, (parent.mapRangeToKernel row.lowerFirst row.count).isSome) ∧
    tryFromKernelExtents (rows.map parent.resolved) = .ok m := by
  rw [tryFromParentSlice, Outcome.unit_bind_eq_ok]
  simp only [Outcome.bind_eq_ok, resolve_eq_ok]
  constructor
  · rintro ⟨hvalidate, _, ⟨hall, rfl⟩, hm⟩
    exact ⟨hvalidate, hall, hm⟩
  · rintro ⟨hvalidate, hall, hm⟩
    exact ⟨hvalidate, _, ⟨hall, rfl⟩, hm⟩

theorem validateIdMapInput_eq_ok : validateIdMapInput rows = .ok () ↔ 1 ≤ rows.length ∧ rows.length ≤ idMapMaxExtents ∧
    (∀ row ∈ rows, 0 < row.count ∧ row.upperEnd ≤ invalidId ∧ row.lowerEnd ≤ invalidId) ∧
    rows.Pairwise (Apart (·.first) (·.upperEnd)) ∧ rows.Pairwise (Apart (·.lowerFirst) (·.lowerEnd)) := by
  simp only [validateIdMapInput, Outcome.guard_eq_ok, Outcome.unit_bind_eq_ok]
  exact checks_iff _ (fun _ => rfl) fun _ => rfl

/-- Rows that are apart below stay apart when a parent resolves them. -/
theorem Sound.resolved_apart {a b : IdMapInputExtent} (h : parent.Sound)
    (ha : (parent.mapRangeToKernel a.lowerFirst a.count).isSome)
    (hb : (parent.mapRangeToKernel b.lowerFirst b.count).isSome) (hab : Apart (·.lowerFirst) (·.lowerEnd) a b) :
    Apart (·.lowerFirst) (·.lowerEnd) (parent.resolved a) (parent.resolved b) := by
  obtain ⟨la, hla⟩ := Option.isSome_iff_exists.mp ha
  obtain ⟨lb, hlb⟩ := Option.isSome_iff_exists.mp hb
  simp only [Apart, resolved, IdMapExtent.lowerEnd, hla, hlb, Option.getD_some]
  by_contra hnot
  -- a number that both kernel ranges hold comes from one number of the parent
  have hk : ∃ k, la ≤ k ∧ k < la + a.count ∧ lb ≤ k ∧ k < lb + b.count := by
    have := (h.mapRangeToKernel_eq_some.mp hla).1
    have := (h.mapRangeToKernel_eq_some.mp hlb).1
    exact ⟨max la lb, by omega, by omega, by omega, by omega⟩
  obtain ⟨k, hak, hka, hbk, hkb⟩ := hk
  have hma := h.mapRange_point hla (a.lowerFirst + (k - la)) (by omega) (by omega)
  have hmb := h.mapRange_point hlb (b.lowerFirst + (k - lb)) (by omega) (by omega)
  rw [show la + (a.lowerFirst + (k - la) - a.lowerFirst) = k by omega] at hma
  rw [show lb + (b.lowerFirst + (k - lb) - b.lowerFirst) = k by omega] at hmb
  have hsame : a.lowerFirst + (k - la) = b.lowerFirst + (k - lb) := by
    have := (h.inverse.mp hma).symm.trans (h.inverse.mp hmb)
    exact Option.some.inj this
  simp only [Apart, IdMapInputExtent.lowerEnd] at hab
  omega

/-- What accepts a row is that one parent extent holds its lower range. -/
theorem Sound.isSome_mapRange {row : IdMapInputExtent} (h : parent.Sound) (hcount : 0 < row.count)
    (hend : row.lowerEnd ≤ invalidId) : (parent.mapRangeToKernel row.lowerFirst row.count).isSome ↔
      ∃ extent ∈ parent.forward, extent.first ≤ row.lowerFirst ∧ row.lowerEnd ≤ extent.upperEnd := by
  rw [Option.isSome_iff_exists]
  simp only [h.mapRangeToKernel_eq_some]
  constructor
  · rintro ⟨_, -, -, extent, hmem, hle, hupper, -⟩
    exact ⟨extent, hmem, hle, hupper⟩
  · rintro ⟨extent, hmem, hle, hupper⟩
    exact ⟨_, hcount, hend, extent, hmem, hle, hupper, rfl⟩

theorem Sound.accepts_iff (h : parent.Sound) : (∃ m, tryFromParentSlice rows parent = .ok m) ↔
    Acceptable parent rows := by
  simp only [tryFromParentSlice_eq_ok, validateIdMapInput_eq_ok]
  constructor
  · rintro ⟨m, ⟨hsome, hfew, hvalid, hupper, hlower⟩, hall, -⟩
    refine ⟨hsome, hfew, hvalid, hupper, hlower, fun row hrow => ?_⟩
    exact (h.isSome_mapRange (hvalid row hrow).1 (hvalid row hrow).2.2).mp (hall row hrow)
  · rintro ⟨hsome, hfew, hvalid, hupper, hlower, hwithin⟩
    have hall : ∀ row ∈ rows, (parent.mapRangeToKernel row.lowerFirst row.count).isSome := fun row hrow =>
      (h.isSome_mapRange (hvalid row hrow).1 (hvalid row hrow).2.2).mpr (hwithin row hrow)
    refine ⟨_, ⟨hsome, hfew, hvalid, hupper, hlower⟩, hall, tryFromKernelExtents_eq_ok.mpr ⟨?_, ?_, ?_, ?_, ?_, rfl⟩⟩
    · rwa [List.length_map]
    · rwa [List.length_map]
    · intro extent hextent
      obtain ⟨row, hrow, rfl⟩ := List.mem_map.mp hextent
      obtain ⟨lower, hl⟩ := Option.isSome_iff_exists.mp (hall row hrow)
      obtain ⟨hcount, -, parentExtent, hmem, hle, hend, hlower⟩ := h.mapRangeToKernel_eq_some.mp hl
      have hparent := (h.valid parentExtent hmem).lower
      refine ⟨hcount, (hvalid row hrow).2.1, ?_⟩
      simp only [IdMapExtent.lowerEnd, IdMapExtent.upperEnd, resolved, hl, Option.getD_some] at hparent hend ⊢
      omega
    · exact List.pairwise_map.mpr hupper
    · exact List.pairwise_map.mpr (hlower.imp_of_mem fun ha hb hab => h.resolved_apart (hall _ ha) (hall _ hb) hab)

theorem Nested.sound (h : Nested m) : m.Sound := by
  induction h with
  | identity h => exact sound_of_kernelExtents h
  | child _ h _ => exact sound_of_kernelExtents (tryFromParentSlice_eq_ok.mp h).2.2

theorem child_forward (h : tryFromParentSlice rows parent = .ok m) : extent ∈ m.forward ↔ ∃ row ∈ rows,
    parent.resolved row = extent := by
  obtain ⟨-, -, -, -, -, rfl⟩ := tryFromKernelExtents_eq_ok.mp (tryFromParentSlice_eq_ok.mp h).2.2
  rw [mem_sortByKey, List.mem_map]

/-- Every id of a row goes where the parent sends its lower id. -/
theorem Sound.child_row {row : IdMapInputExtent} (hparent : parent.Sound) (h : tryFromParentSlice rows parent = .ok m)
    (hrow : row ∈ rows) (hle : row.first ≤ id) (hlt : id < row.upperEnd) :
    m.mapIdToKernel id = parent.mapIdToKernel (row.lowerFirst + (id - row.first)) ∧ (m.mapIdToKernel id).isSome := by
  have hm : m.Sound := sound_of_kernelExtents (tryFromParentSlice_eq_ok.mp h).2.2
  obtain ⟨lower, hl⟩ := Option.isSome_iff_exists.mp ((tryFromParentSlice_eq_ok.mp h).2.1 row hrow)
  simp only [IdMapInputExtent.upperEnd] at hlt
  have hto : m.mapIdToKernel id = some (lower + (id - row.first)) := by
    refine hm.mapIdToKernel_eq_some.mpr ⟨parent.resolved row, (child_forward h).mpr ⟨row, hrow, rfl⟩, hle, hlt, ?_⟩
    simp only [resolved, hl, Option.getD_some]
  refine ⟨?_, by rw [hto]; rfl⟩
  rw [hto, hparent.mapRange_point hl _ (by omega) (by omega)]
  congr 1
  omega

theorem Sound.child_domain (hparent : parent.Sound) (h : tryFromParentSlice rows parent = .ok m) :
    (m.mapIdToKernel id).isSome ↔ ∃ row ∈ rows, row.first ≤ id ∧ id < row.upperEnd := by
  have hm : m.Sound := sound_of_kernelExtents (tryFromParentSlice_eq_ok.mp h).2.2
  constructor
  · intro hsome
    obtain ⟨k, hk⟩ := Option.isSome_iff_exists.mp hsome
    obtain ⟨extent, hmem, hle, hlt, -⟩ := hm.mapIdToKernel_eq_some.mp hk
    obtain ⟨row, hrow, rfl⟩ := (child_forward h).mp hmem
    exact ⟨row, hrow, hle, hlt⟩
  · rintro ⟨row, hrow, hle, hlt⟩
    exact (hparent.child_row h hrow hle hlt).2

theorem Sound.child_composes (hparent : parent.Sound) (h : tryFromParentSlice rows parent = .ok m) :
    m.mapIdToKernel id = (applyRows rows id).bind parent.mapIdToKernel := by
  cases hfind : rows.find? fun row => row.first ≤ id ∧ id < row.upperEnd with
  | none =>
      have hnone : m.mapIdToKernel id = none := by
        rw [← Option.not_isSome_iff_eq_none, hparent.child_domain h]
        rintro ⟨row, hrow, hin⟩
        exact List.find?_eq_none.mp hfind row hrow (decide_eq_true hin)
      rw [hnone, applyRows, hfind]
      rfl
  | some row =>
      have hin := List.find?_some hfind
      simp only [decide_eq_true_eq] at hin
      rw [(hparent.child_row h (List.mem_of_find?_eq_some hfind) hin.1 hin.2).1, applyRows, hfind]
      rfl

theorem Sound.invalid_unmapped (h : m.Sound) : m.mapIdToKernel invalidId = none ∧ m.mapIdFromKernel invalidId =
    none := by
  constructor
  · apply Option.eq_none_iff_forall_ne_some.mpr
    intro k hk
    obtain ⟨extent, hmem, -, hlt, -⟩ := h.mapIdToKernel_eq_some.mp hk
    exact absurd (h.valid extent hmem).upper (by omega)
  · apply Option.eq_none_iff_forall_ne_some.mpr
    intro id hid
    obtain ⟨extent, hmem, -, hlt, -⟩ := h.mapIdFromKernel_eq_some.mp hid
    exact absurd (h.valid extent hmem).lower (by omega)

/-- The lookups of typed ids drop no answer of the raw ones. -/
theorem Sound.typed_inverse (h : m.Sound) :
    (∀ uid kuid, m.userUidToKernel uid = some kuid ↔ m.kernelUidToUser kuid = some uid) ∧
    ∀ gid kgid, m.userGidToKernel gid = some kgid ↔ m.kernelGidToUser kgid = some gid := by
  simp only [userUidToKernel, kernelUidToUser, userGidToKernel, kernelGidToUser, TypedId.bind_fromRaw_eq_some]
  exact ⟨fun _ _ => h.inverse, fun _ _ => h.inverse⟩

/-- A chain of namespaces maps ids one to one: both directions are inverse to
each other, a child goes through its parent, and the rows that a parent accepts
are exactly the well-formed ones within its extents. -/
theorem nested_maps (h : Nested m) :
    (∀ id k, m.mapIdToKernel id = some k ↔ m.mapIdFromKernel k = some id) ∧
    ((∀ uid kuid, m.userUidToKernel uid = some kuid ↔ m.kernelUidToUser kuid = some uid) ∧
      ∀ gid kgid, m.userGidToKernel gid = some kgid ↔ m.kernelGidToUser kgid = some gid) ∧
    (∀ id id' k, m.mapIdToKernel id = some k → m.mapIdToKernel id' = some k → id = id') ∧
    (∀ id, (m.mapIdToKernel id).isSome ↔ ∃ extent ∈ m.forward, extent.first ≤ id ∧ id < extent.upperEnd) ∧
    (∀ k, m.mapIdToKernel invalidId = none ∧ m.mapIdFromKernel invalidId = none ∧
      m.mapIdToKernel k ≠ some invalidId ∧ m.mapIdFromKernel k ≠ some invalidId) ∧
    (∀ rows child, tryFromParentSlice rows m = .ok child →
      (∀ id, (child.mapIdToKernel id).isSome ↔ ∃ row ∈ rows, row.first ≤ id ∧ id < row.upperEnd) ∧
      (∀ id, child.mapIdToKernel id = (applyRows rows id).bind m.mapIdToKernel) ∧
      ∀ id k, child.mapIdToKernel id = some k → ∃ id', m.mapIdToKernel id' = some k) ∧
    ∀ rows, (∃ child, tryFromParentSlice rows m = .ok child) ↔ Acceptable m rows := by
  have hsound := h.sound
  refine ⟨fun id k => hsound.inverse, hsound.typed_inverse, ?_, ?_, ?_, ?_, fun rows => hsound.accepts_iff⟩
  · intro id id' k hid hid'
    exact Option.some.inj ((hsound.inverse.mp hid).symm.trans (hsound.inverse.mp hid'))
  · intro id
    rw [Option.isSome_iff_exists]
    simp only [hsound.mapIdToKernel_eq_some]
    constructor
    · rintro ⟨_, extent, hmem, hle, hlt, -⟩
      exact ⟨extent, hmem, hle, hlt⟩
    · rintro ⟨extent, hmem, hle, hlt⟩
      exact ⟨_, extent, hmem, hle, hlt, rfl⟩
  · intro k
    obtain ⟨hto, hfrom⟩ := hsound.invalid_unmapped
    refine ⟨hto, hfrom, fun hk => ?_, fun hk => ?_⟩
    · rw [hsound.inverse, hfrom] at hk
      cases hk
    · rw [← hsound.inverse, hto] at hk
      cases hk
  · intro rows child hchild
    refine ⟨fun id => hsound.child_domain hchild, fun id => hsound.child_composes hchild, fun id k hk => ?_⟩
    rw [hsound.child_composes hchild] at hk
    obtain ⟨id', -, hid'⟩ := Option.bind_eq_some_iff.mp hk
    exact ⟨id', hid'⟩

/-- Ids 0 to 9 of a child of a child of the initial namespace. -/
theorem nested_maps_grandchild :
    ∃ parent child, Nested parent ∧ tryFromParentSlice [⟨0, 110, 10⟩] parent = .ok child ∧
      (child.mapIdToKernel 4).isSome ∧ ¬ (child.mapIdToKernel 10).isSome := by
  have hroot : tryIdentity = .ok ⟨[⟨0, 0, invalidId⟩], [⟨0, 0, invalidId⟩]⟩ := by decide
  have hparent : tryFromParentSlice [⟨100, 10000, 50⟩] ⟨[⟨0, 0, invalidId⟩], [⟨0, 0, invalidId⟩]⟩ =
      .ok ⟨[⟨100, 10000, 50⟩], [⟨100, 10000, 50⟩]⟩ := by
    decide +kernel
  have hchild : tryFromParentSlice [⟨0, 110, 10⟩] ⟨[⟨100, 10000, 50⟩], [⟨100, 10000, 50⟩]⟩ =
      .ok ⟨[⟨0, 10010, 10⟩], [⟨0, 10010, 10⟩]⟩ := by
    decide +kernel
  have hnested : Nested ⟨[⟨100, 10000, 50⟩], [⟨100, 10000, 50⟩]⟩ := .child (.identity hroot) hparent
  obtain ⟨hdomain, -, -⟩ := (nested_maps hnested).2.2.2.2.2.1 [⟨0, 110, 10⟩] _ hchild
  refine ⟨_, _, hnested, hchild, (hdomain 4).mpr ⟨_, List.mem_singleton.mpr rfl, by decide, by decide⟩, ?_⟩
  rw [hdomain]
  decide

end IdMap

end TheKernel.Cred
