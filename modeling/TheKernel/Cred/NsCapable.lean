import TheKernel.Cred.Credential

namespace TheKernel.Cred

variable {N : Type}

def nsCapableFrom [DecidableEq N] (view : UserNamespaceView N) (actor : Credential N) (capability : Nat)
    (namespace' : N) : Bool :=
  if namespace' = actor.userNs then actor.caps.hasEffective capability
  else if view.level namespace' ≤ view.level actor.userNs then false
  else match view.parent namespace' with
    | none => false
    | some parent =>
        if _h : view.level parent ≥ view.level namespace' then false
        else if parent = actor.userNs ∧ view.ownerKuid namespace' = actor.ids.euid then true
        else nsCapableFrom view actor capability parent
termination_by view.level namespace'

def nsCapable [DecidableEq N] (view : UserNamespaceView N) (actor : Credential N) (targetUserNs : N)
    (capability : Nat) : Bool :=
  if CapabilitySets.capMask capability = none then false else nsCapableFrom view actor capability targetUserNs

def UserNamespaceView.Leveled (view : UserNamespaceView N) : Prop :=
  ∀ child parent, view.parent child = some parent → view.level child = view.level parent + 1

def UserNamespaceView.Below (view : UserNamespaceView N) : N → N → Prop :=
  Relation.ReflTransGen fun child parent => view.parent child = some parent

/-- The child of the actor's namespace on the way to the target is the actor's. -/
def OwnsPath (view : UserNamespaceView N) (actor : Credential N) (target : N) : Prop :=
  ∃ child, view.Below target child ∧ view.parent child = some actor.userNs ∧ view.ownerKuid child = actor.ids.euid

section Tree

variable {view : UserNamespaceView N} {actor : Credential N} {capability : Nat} {ns parent : N}

theorem CapabilitySets.capMask_isSome : CapabilitySets.capMask capability ≠ none ↔ capability ≤ capLastCap := by
  rw [capMask, capLastCap]
  constructor
  · intro h
    by_contra hlt
    exact h (if_pos (by omega))
  · intro h
    rw [if_neg (by omega), dif_pos (by omega)]
    nofun

theorem UserNamespaceView.Below.level_le (hview : view.Leveled) {a b : N} (h : view.Below a b) :
    view.level b ≤ view.level a := by
  induction h with
  | refl => exact Nat.le_refl _
  | tail _ hstep ih =>
      have := hview _ _ hstep
      omega

/-- Above a namespace is its parent and what is above that. -/
theorem UserNamespaceView.Below.of_parent (hparent : view.parent ns = some parent) {a : N} (h : view.Below ns a) :
    a = ns ∨ view.Below parent a := by
  rcases Relation.ReflTransGen.cases_head h with rfl | ⟨p, hp, hrest⟩
  · exact .inl rfl
  · rw [hparent] at hp
    cases hp
    exact .inr hrest

theorem UserNamespaceView.Below.eq_of_root (hparent : view.parent ns = none) {a : N} (h : view.Below ns a) :
    a = ns := by
  rcases Relation.ReflTransGen.cases_head h with rfl | ⟨p, hp, -⟩
  · rfl
  · rw [hparent] at hp
    cases hp

theorem OwnsPath.below (h : OwnsPath view actor ns) : view.Below ns actor.userNs := by
  obtain ⟨child, hbelow, hparent, -⟩ := h
  exact hbelow.tail hparent

theorem not_ownsPath_of_level (hview : view.Leveled) (hle : view.level ns ≤ view.level actor.userNs) :
    ¬OwnsPath view actor ns := by
  rintro ⟨child, hbelow, hparent, -⟩
  have h₁ := hbelow.level_le hview
  have h₂ := hview _ _ hparent
  omega

theorem ownsPath_iff (hparent : view.parent ns = some parent) :
    OwnsPath view actor ns ↔ parent = actor.userNs ∧ view.ownerKuid ns = actor.ids.euid ∨
      OwnsPath view actor parent := by
  constructor
  · rintro ⟨child, hbelow, hchild, howner⟩
    rcases hbelow.of_parent hparent with rfl | hbelow
    · rw [hparent] at hchild
      cases hchild
      exact .inl ⟨rfl, howner⟩
    · exact .inr ⟨child, hbelow, hchild, howner⟩
  · rintro (⟨rfl, howner⟩ | ⟨child, hbelow, hchild, howner⟩)
    · exact ⟨ns, .refl, hparent, howner⟩
    · exact ⟨child, .head hparent hbelow, hchild, howner⟩

theorem nsCapableFrom_iff [DecidableEq N] (hview : view.Leveled) : nsCapableFrom view actor capability ns = true ↔
    view.Below ns actor.userNs ∧ (actor.caps.hasEffective capability = true ∨ OwnsPath view actor ns) := by
  fun_induction nsCapableFrom view actor capability ns with
  | case1 =>
      have hself := not_ownsPath_of_level hview (Nat.le_refl (view.level actor.userNs))
      simp only [hself, or_false, iff_and_self]
      exact fun _ => .refl
  | case2 ns hne hle =>
      simp only [Bool.false_eq_true, false_iff, not_and]
      intro hbelow
      rcases Relation.ReflTransGen.cases_head hbelow with heq | ⟨p, hp, hrest⟩
      · exact absurd heq hne
      · have h₁ := UserNamespaceView.Below.level_le hview hrest
        have h₂ := hview _ _ hp
        omega
  | case3 ns hne hlt hparent =>
      simp only [Bool.false_eq_true, false_iff, not_and]
      intro hbelow
      exact absurd (UserNamespaceView.Below.eq_of_root hparent hbelow).symm hne
  | case4 ns hne hlt parent hparent hge =>
      have := hview _ _ hparent
      omega
  | case5 ns hne hlt parent hparent hge howner =>
      have howns := (ownsPath_iff hparent).mpr (.inl howner)
      simp only [true_iff]
      exact ⟨howns.below, .inr howns⟩
  | case6 ns hne hlt parent hparent hge howner ih =>
      rw [ih, ownsPath_iff hparent, or_iff_right (b := OwnsPath view actor parent) howner]
      refine and_congr_left fun _ => ?_
      constructor
      · intro hbelow
        exact .head hparent hbelow
      · intro hbelow
        exact (UserNamespaceView.Below.of_parent hparent hbelow).resolve_left fun heq => hne heq.symm

theorem ownsAncestor_iff [DecidableEq N] (hview : view.Leveled) : ownsAncestor view actor ns = true ↔
    OwnsPath view actor ns := by
  fun_induction ownsAncestor view actor ns with
  | case1 ns hlt hparent =>
      simp only [Bool.false_eq_true, false_iff]
      intro howns
      rw [UserNamespaceView.Below.eq_of_root hparent howns.below] at hlt
      exact Nat.lt_irrefl _ hlt
  | case2 ns hlt parent hparent hge =>
      have := hview _ _ hparent
      omega
  | case3 ns hlt parent hparent hge howner =>
      simp only [true_iff]
      exact (ownsPath_iff hparent).mpr (.inl howner)
  | case4 ns hlt parent hparent hge howner ih => rw [ih, ownsPath_iff hparent, or_iff_right howner]
  | case5 ns hle =>
      simp only [Bool.false_eq_true, false_iff]
      exact not_ownsPath_of_level hview (Nat.le_of_not_lt hle)

theorem OwnsPath.descendant {target : N} (h : OwnsPath view actor ns) (hbelow : view.Below target ns) :
    OwnsPath view actor target := by
  obtain ⟨child, hchild, hrest⟩ := h
  exact ⟨child, hbelow.trans hchild, hrest⟩

end Tree

/-- `ns_capable` and `cred_cap_issubset`, read off the tree of namespaces. -/
theorem nsCapable_exact [DecidableEq N] (view : UserNamespaceView N) (hview : view.Leveled) :
    (∀ (actor : Credential N) (target : N) (capability : Nat), nsCapable view actor target capability = true ↔
      capability ≤ capLastCap ∧ view.Below target actor.userNs ∧
        (actor.caps.hasEffective capability = true ∨ OwnsPath view actor target)) ∧
    ∀ set subset : Credential N, set.userNs ≠ subset.userNs → credentialCapIsSubset view set subset = true →
      ∀ target, view.Below target subset.userNs → ∀ capability ≤ capLastCap, nsCapable view set target capability =
        true := by
  have hexact : ∀ (actor : Credential N) (target : N) (capability : Nat), nsCapable view actor target capability =
      true ↔ capability ≤ capLastCap ∧ view.Below target actor.userNs ∧
        (actor.caps.hasEffective capability = true ∨ OwnsPath view actor target) := by
    intro actor target capability
    rw [nsCapable, ← CapabilitySets.capMask_isSome]
    by_cases hnone : CapabilitySets.capMask capability = none
    · simp [hnone]
    · rw [if_neg hnone, nsCapableFrom_iff hview]
      simp [hnone]
  refine ⟨hexact, ?_⟩
  intro set subset hne hsubset target htarget capability hvalid
  rw [credentialCapIsSubset, if_neg hne, ownsAncestor_iff hview] at hsubset
  have howns := hsubset.descendant htarget
  exact (hexact set target capability).mpr ⟨hvalid, howns.below, .inr howns⟩

def chainOfThree : UserNamespaceView (Fin 3) where
  parent ns := if ns = 0 then none else some (ns - 1)
  level ns := ns
  ownerKuid ns := ⟨ns.val * 1000, by rw [invalidId]; omega⟩
  rootKuid _ := none

theorem thousand_lt_invalidId : 1000 < invalidId := by decide

/-- User 1000 without capabilities in the initial namespace, whose child it owns. -/
def childOwner : Credential (Fin 3) where
  ids := ⟨⟨1000, thousand_lt_invalidId⟩, ⟨1000, thousand_lt_invalidId⟩, ⟨1000, thousand_lt_invalidId⟩,
    ⟨1000, thousand_lt_invalidId⟩, ⟨1000, thousand_lt_invalidId⟩, ⟨1000, thousand_lt_invalidId⟩,
    ⟨1000, thousand_lt_invalidId⟩, ⟨1000, thousand_lt_invalidId⟩⟩
  groups := ⟨[], by decide, .nil⟩
  caps := ⟨⟨fun _ => 0⟩, ⟨fun _ => 0⟩, ⟨fun _ => 0⟩, ⟨fun _ => 0⟩, ⟨fun _ => 0⟩, 0⟩
  noNewPrivs := false
  userNs := 0

theorem nsCapable_exact_grandchild : chainOfThree.Leveled ∧ nsCapable chainOfThree childOwner 2 21 = true := by
  have hleveled : chainOfThree.Leveled := by
    unfold UserNamespaceView.Leveled
    decide
  refine ⟨hleveled, ((nsCapable_exact chainOfThree hleveled).1 childOwner 2 21).mpr ⟨by decide, ?_, .inr ?_⟩⟩
  · exact .head (b := 1) (by decide) (.single (by decide))
  · exact ⟨1, .single (by decide), by decide, by decide⟩

end TheKernel.Cred
