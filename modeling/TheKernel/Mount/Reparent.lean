import TheKernel.Mount.Topology

namespace TheKernel.Mount

open Outcome Relation

namespace TopologySnapshot

def setParent (s : TopologySnapshot) (mount : MountId) (parent : Option MountId) : TopologySnapshot :=
  { s with entries := s.entries.map fun e => if e.mount = mount then { e with parent := parent } else e }

def moved (s : TopologySnapshot) (mount parent : MountId) : TopologySnapshot := s.setParent mount (some parent)

/-- The new root loses its parent and the old root is put below it. -/
def pivoted (s : TopologySnapshot) (newRoot putOld : MountId) : TopologySnapshot :=
  (s.setParent newRoot none).setParent putOld (some newRoot)

end TopologySnapshot

section Reparent

variable {s : TopologySnapshot} {authority : MountAuthority} {root a b mount parent newRoot putOld : MountId}
  {up : Option MountId}

open TopologySnapshot

theorem mounts_setParent : (s.setParent a up).entries.map TopologyEntry.mount = s.entries.map TopologyEntry.mount := by
  rw [setParent, List.map_map]
  refine List.map_congr_left fun e _ => ?_
  simp only [Function.comp]
  split <;> rfl

theorem link_setParent : Link (s.setParent mount up).entries a b ↔
    if a = mount then (∃ e ∈ s.entries, e.mount = mount) ∧ up = some b else Link s.entries a b := by
  have hmem : Link (s.setParent mount up).entries a b ↔
      ∃ e ∈ s.entries, e.mount = a ∧ (if e.mount = mount then up else e.parent) = some b := by
    simp only [Link, setParent, List.mem_map]
    constructor
    · rintro ⟨_, ⟨e, he, rfl⟩, hm, hp⟩
      refine ⟨e, he, ?_, ?_⟩
      · rw [← hm]; split <;> rfl
      · rw [← hp]; split <;> rfl
    · rintro ⟨e, he, hm, hp⟩
      refine ⟨_, ⟨e, he, rfl⟩, ?_, ?_⟩
      · rw [← hm]; split <;> rfl
      · rw [← hp]; split <;> rfl
  rw [hmem]
  split
  case isTrue heq =>
      subst heq
      constructor
      · rintro ⟨e, he, hm, hp⟩
        exact ⟨⟨e, he, hm⟩, by rwa [if_pos hm] at hp⟩
      · rintro ⟨⟨e, he, hm⟩, hp⟩
        exact ⟨e, he, hm, by rwa [if_pos hm]⟩
  case isFalse hne =>
      constructor
      · rintro ⟨e, he, hm, hp⟩
        exact ⟨e, he, hm, by rwa [if_neg (by rwa [hm])] at hp⟩
      · rintro ⟨e, he, hm, hp⟩
        exact ⟨e, he, hm, by rwa [if_neg (by rwa [hm])]⟩

/-- The entries of a changed snapshot, by the ones they come from. -/
theorem forall_setParent {p : MountId → Option MountId → Prop} :
    (∀ e ∈ (s.setParent mount up).entries, p e.mount e.parent) ↔
      ∀ e ∈ s.entries, p e.mount (if e.mount = mount then up else e.parent) := by
  rw [setParent]
  simp only [List.forall_mem_map]
  refine forall₂_congr fun e _ => ?_
  split <;> rfl

theorem present_setParent : (∃ e ∈ (s.setParent mount up).entries, e.mount = a) ↔ ∃ e ∈ s.entries, e.mount = a := by
  have hmem : ∀ {entries : List TopologyEntry}, (∃ e ∈ entries, e.mount = a) ↔ a ∈ entries.map TopologyEntry.mount :=
    List.mem_map.symm
  rw [hmem, hmem, mounts_setParent]

/-- A path that does not pass the changed mount is still there. -/
theorem reaches_setParent (hpath : ReflTransGen (Link s.entries) a b)
    (haway : ¬ ReflTransGen (Link s.entries) a mount) :
    ReflTransGen (Link (s.setParent mount up).entries) a b := by
  induction hpath using ReflTransGen.head_induction_on with
  | refl => exact .refl
  | @head a c hlink _ ih =>
      have hne : a ≠ mount := fun heq => haway (heq ▸ .refl)
      exact .head (by rwa [link_setParent, if_neg hne]) (ih fun h => haway (.head hlink h))

theorem reaches_setParent_self (hpath : ReflTransGen (Link s.entries) a mount) :
    ReflTransGen (Link (s.setParent mount up).entries) a mount := by
  induction hpath using ReflTransGen.head_induction_on with
  | refl => exact .refl
  | @head a c hlink _ ih =>
      by_cases heq : a = mount
      · rw [heq]
      · exact .head (by rwa [link_setParent, if_neg heq]) ih

namespace IsTree

/-- A mount moved to a parent outside its own subtree leaves a tree. -/
theorem moved (h : IsTree s.entries root) (hm : ∃ e ∈ s.entries, e.mount = mount)
    (hp : ∃ e ∈ s.entries, e.mount = parent) (haway : ¬ ReflTransGen (Link s.entries) parent mount) :
    IsTree (s.moved mount parent).entries root := by
  have hroot : mount ≠ root := by
    rintro rfl
    obtain ⟨e, he, rfl⟩ := hp
    exact haway (h.reaches e he)
  have hparent : ReflTransGen (Link (s.moved mount parent).entries) parent root := by
    obtain ⟨e, he, rfl⟩ := hp
    exact reaches_setParent (h.reaches e he) haway
  have hreaches : ∀ {a : MountId}, ReflTransGen (Link s.entries) a root →
      ReflTransGen (Link (s.moved mount parent).entries) a root := by
    intro a hpath
    induction hpath using ReflTransGen.head_induction_on with
    | refl => exact .refl
    | @head a c hlink _ ih =>
        by_cases heq : a = mount
        · exact .head (link_setParent.mpr (by rw [if_pos heq]; exact ⟨hm, rfl⟩)) hparent
        · exact .head (link_setParent.mpr (by rwa [if_neg heq])) ih
  refine ⟨?_, ?_, present_setParent.mpr h.present, ?_⟩
  · rw [TopologySnapshot.moved, mounts_setParent]
    exact h.unique
  · refine (forall_setParent (p := fun m up => up = none ↔ m = root)).mpr fun e he => ?_
    split
    case isTrue heq => simp [heq, hroot]
    case isFalse => exact h.rootless e he
  · refine (forall_setParent (p := fun m _ => ReflTransGen (Link (s.moved mount parent).entries) m root)).mpr
      fun e he => ?_
    exact hreaches (h.reaches e he)

theorem not_moved (hm : ∃ e ∈ s.entries, e.mount = mount) (hpath : ReflTransGen (Link s.entries) parent mount) :
    ¬ IsTree (s.moved mount parent).entries root := by
  intro htree
  have hlink : Link (s.moved mount parent).entries mount parent :=
    link_setParent.mpr (by rw [if_pos rfl]; exact ⟨hm, rfl⟩)
  exact htree.not_cycle hlink (reaches_setParent_self hpath)

theorem pivoted (h : IsTree s.entries root) (hnew : ∃ e ∈ s.entries, e.mount = newRoot) (hne : newRoot ≠ root) :
    IsTree (s.pivoted newRoot root).entries newRoot := by
  have hold : Link (s.pivoted newRoot root).entries root newRoot := by
    rw [TopologySnapshot.pivoted, link_setParent, if_pos rfl, present_setParent]
    exact ⟨h.present, rfl⟩
  -- up to the new root the way stays; past the old root it goes on to the new one
  have hreaches : ∀ {a : MountId}, ReflTransGen (Link s.entries) a root →
      ReflTransGen (Link (s.pivoted newRoot root).entries) a newRoot := by
    intro a hpath
    induction hpath using ReflTransGen.head_induction_on with
    | refl => exact .single hold
    | @head a c hlink _ ih =>
        by_cases heq : a = newRoot
        · rw [heq]
        · have haway : a ≠ root := by
            rintro rfl
            obtain ⟨e, he, hme, hpe⟩ := hlink
            rw [(h.rootless e he).mpr hme] at hpe
            cases hpe
          refine .head ?_ ih
          rwa [TopologySnapshot.pivoted, link_setParent, if_neg haway, link_setParent, if_neg heq]
  refine ⟨?_, ?_, ?_, ?_⟩
  · rw [TopologySnapshot.pivoted, mounts_setParent, mounts_setParent]
    exact h.unique
  · rw [TopologySnapshot.pivoted, forall_setParent (p := fun m up => up = none ↔ m = newRoot),
      forall_setParent (p := fun m up => (if m = root then some newRoot else up) = none ↔ m = newRoot)]
    intro e he
    have hrootless := h.rootless e he
    by_cases hme : e.mount = root
    · simp [hme, hne.symm]
    · by_cases hnew : e.mount = newRoot
      · simp [hnew, hne]
      · simp [hme, hnew, hrootless]
  · rw [TopologySnapshot.pivoted, present_setParent, present_setParent]
    exact hnew
  · rw [TopologySnapshot.pivoted, forall_setParent (p := fun m _ => ReflTransGen _ m newRoot),
      forall_setParent (p := fun m _ => ReflTransGen _ m newRoot)]
    exact fun e he => hreaches (h.reaches e he)

theorem not_pivoted (h : IsTree s.entries root) : ¬ IsTree (s.pivoted root root).entries a := by
  intro htree
  have hnone : ∀ e ∈ (s.pivoted root root).entries, e.parent ≠ none := by
    rw [TopologySnapshot.pivoted, forall_setParent (p := fun _ up => up ≠ none),
      forall_setParent (p := fun m up => (if m = root then some root else up) ≠ none)]
    intro e he
    by_cases hme : e.mount = root
    · simp [hme]
    · have := (h.rootless e he).not.mpr hme
      simp [hme, this]
  obtain ⟨e, he, hm⟩ := htree.present
  exact hnone e he ((htree.rootless e he).mpr hm)

end IsTree

theorem planMount_eq_ok {operation : MountOperation} {plan : MountPlan} :
    planMount s authority operation = .ok plan ↔ s.validate = .ok () ∧ authority.administer = true ∧
      checkOperation s authority operation = .ok () ∧ s.generation + 1 < 2 ^ 64 ∧
      plan = ⟨s.mountNamespace, s.generation, s.generation + 1, operation⟩ := by
  rw [planMount, unit_bind_eq_ok, guard_eq_ok, unit_bind_eq_ok, bind_eq_ok]
  simp only [nextGeneration, Bool.not_eq_true', Bool.not_eq_false]
  refine and_congr_right fun _ => and_congr_right fun _ => and_congr_right fun _ => ?_
  constructor
  · rintro ⟨next, hnext, hplan⟩
    split at hnext
    case isTrue hlt =>
        cases hnext
        exact ⟨hlt, (ok.inj hplan).symm⟩
    case isFalse => cases hnext
  · rintro ⟨hlt, rfl⟩
    exact ⟨_, if_pos hlt, rfl⟩

theorem validate_iff_isTree_and_move_iff_validate (s : TopologySnapshot) :
    (s.validate = .ok () ↔ ∃ root, IsTree s.entries root) ∧
      ∀ (authority : MountAuthority) (mount parent : MountId), s.validate = .ok () → s.generation + 1 < 2 ^ 64 →
        authority.administer = true → (s.find mount).isSome = true → (s.find parent).isSome = true →
        ((∃ plan, planMount s authority (.move mount parent) = .ok plan) ↔ (s.moved mount parent).validate =
          .ok ()) := by
  refine ⟨validate_eq_ok, ?_⟩
  intro authority mount parent hvalid hgeneration hadminister hmount hparent
  obtain ⟨root, htree⟩ := validate_eq_ok.mp hvalid
  have hplan : (∃ plan, planMount s authority (.move mount parent) = .ok plan) ↔
      ¬ ReflTransGen (Link s.entries) parent mount := by
    simp only [planMount_eq_ok, exists_and_left, exists_eq, and_true, hvalid, hadminister, true_and, checkOperation]
    rw [guard_eq_ok, guard_eq_ok, htree.descendantOf_iff hparent]
    have hfound : ¬ ((s.find mount).isNone = true ∨ (s.find parent).isNone = true) := by
      rw [← Option.not_isSome, ← Option.not_isSome, hmount, hparent]
      decide
    exact ⟨fun h => h.1.2.1, fun haway => ⟨⟨hfound, haway, rfl⟩, hgeneration⟩⟩
  rw [hplan, validate_eq_ok]
  constructor
  · exact fun haway => ⟨root, htree.moved (isSome_find.mp hmount) (isSome_find.mp hparent) haway⟩
  · rintro ⟨root', htree'⟩ hpath
    exact IsTree.not_moved (isSome_find.mp hmount) hpath htree'

/-- A root with one mount below it: moving that mount below the root again is
accepted. -/
theorem validate_iff_isTree_and_move_iff_validate_two :
    ∃ plan, planMount ⟨1, 1, [⟨1, none, 0, true⟩, ⟨2, some 1, 0, true⟩]⟩ ⟨true, false, false⟩ (.move 2 1) = .ok plan :=
  ((validate_iff_isTree_and_move_iff_validate ⟨1, 1, [⟨1, none, 0, true⟩, ⟨2, some 1, 0, true⟩]⟩).2 ⟨true,
    false, false⟩ 2 1 (by decide) (by decide) rfl rfl rfl).mpr (by decide)

/-- An accepted `PivotRoot` leaves a tree under the new root exactly when it
does not name the old root as the new one. -/
theorem pivotRoot_validate_iff_ne {s : TopologySnapshot} {authority : MountAuthority} {newRoot putOld : MountId}
    {plan : MountPlan} (h : planMount s authority (.pivotRoot newRoot putOld) = .ok plan) :
    ((s.pivoted newRoot putOld).validate = .ok () ∧
      ∀ e ∈ (s.pivoted newRoot putOld).entries, e.parent = none ↔ e.mount = newRoot) ↔ newRoot ≠ putOld := by
  obtain ⟨hvalid, -, hcheck, -⟩ := planMount_eq_ok.mp h
  obtain ⟨root, htree⟩ := validate_eq_ok.mp hvalid
  rw [checkOperation, guard_eq_ok, guard_eq_ok] at hcheck
  obtain ⟨-, hroot, -⟩ := hcheck
  obtain ⟨hold, hnew⟩ := not_or.mp hroot
  obtain ⟨e, he, hput⟩ := Option.map_eq_some_iff.mp (not_not.mp hold)
  have heroot : e.mount = root :=
    (htree.rootless e (List.mem_of_find?_eq_some he)).mp (Option.isNone_iff_eq_none.mp
      (by simpa using List.find?_some he))
  obtain rfl : root = putOld := heroot.symm.trans hput
  have hpresent : ∃ e ∈ s.entries, e.mount = newRoot :=
    isSome_find.mp (by rwa [← Option.not_isNone, Bool.not_eq_true', ← Bool.not_eq_true])
  constructor
  · rintro ⟨hpivoted, -⟩ rfl
    obtain ⟨root', htree'⟩ := validate_eq_ok.mp hpivoted
    exact htree.not_pivoted htree'
  · intro hne
    have htree' := htree.pivoted hpresent hne
    exact ⟨validate_eq_ok.mpr ⟨newRoot, htree'⟩, htree'.rootless⟩

theorem pivotRoot_validate_iff_ne_two :
    (TopologySnapshot.pivoted ⟨1, 1, [⟨1, none, 0, true⟩, ⟨2, some 1, 0, true⟩]⟩ 2 1).validate = .ok () :=
  have haccepted : planMount ⟨1, 1, [⟨1, none, 0, true⟩, ⟨2, some 1, 0, true⟩]⟩ ⟨true, true, false⟩ (.pivotRoot 2 1) =
      .ok ⟨1, 1, 2, .pivotRoot 2 1⟩ := rfl
  ((pivotRoot_validate_iff_ne haccepted).mpr (by decide)).1

/-- The only mount of a namespace, pivoted onto itself, is accepted and leaves
no valid topology. -/
theorem pivotRoot_onto_itself_accepted :
    (∃ plan, planMount ⟨1, 1, [⟨1, none, 0, true⟩]⟩ ⟨true, true, true⟩ (.pivotRoot 1 1) = .ok plan) ∧
      (TopologySnapshot.pivoted ⟨1, 1, [⟨1, none, 0, true⟩]⟩ 1 1).validate ≠ .ok () :=
  ⟨⟨⟨1, 1, 2, .pivotRoot 1 1⟩, rfl⟩, by decide⟩

end Reparent

end TheKernel.Mount
