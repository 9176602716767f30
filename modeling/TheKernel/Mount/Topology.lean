import Mathlib.Data.List.Nodup
import Mathlib.Data.List.Perm.Subperm
import Mathlib.Logic.Relation
import TheKernel.Lib.Outcome

namespace TheKernel.Mount

open Outcome Relation

inductive MountError where
  | unsupportedFlags
  | permissionDenied
  | invalidTopology
  | topologyCycle
  | rootRequired
  | generationExhausted
  | busy
  deriving DecidableEq

abbrev MountId := Nat

abbrev MountFlags := Nat

structure MountAuthority where
  administer : Bool
  pivotRoot : Bool
  lazyUnmount : Bool

structure TopologyEntry where
  mount : MountId
  parent : Option MountId
  flags : MountFlags
  detachable : Bool
  deriving DecidableEq

structure TopologySnapshot where
  mountNamespace : Nat
  generation : Nat
  entries : List TopologyEntry

def nextGeneration (generation : Nat) : Outcome MountError Nat :=
  if generation + 1 < 2 ^ 64 then .ok (generation + 1) else .err .generationExhausted

namespace TopologySnapshot

def find (s : TopologySnapshot) (id : MountId) : Option TopologyEntry := s.entries.find? (·.mount = id)

def above (s : TopologySnapshot) (e : TopologyEntry) : Option TopologyEntry := e.parent.bind s.find

/-- The first loop of `validate`: `before` are the entries already passed, and
the result counts the entries without a parent. -/
def checkEntries (s : TopologySnapshot) : List TopologyEntry → List TopologyEntry → Nat → Outcome MountError Nat
  | _, [], roots => .ok roots
  | before, entry :: rest, roots =>
      if entry.parent.any (fun parent => parent = entry.mount ∨ (s.find parent).isNone) then .err .invalidTopology
      else if before.any (·.mount = entry.mount) then .err .invalidTopology
      else checkEntries s (before ++ [entry]) rest (if entry.parent.isNone then roots + 1 else roots)

/-- The walk of `validate` from one entry, with the hops that are left. -/
def climb (s : TopologySnapshot) : Nat → Option TopologyEntry → Outcome MountError Unit
  | _, none => .ok ()
  | 0, some _ => .err .topologyCycle
  | hops + 1, some current => climb s hops (s.above current)

def validate (s : TopologySnapshot) : Outcome MountError Unit := do
  let roots ← s.checkEntries [] s.entries 0
  if roots = 1 then s.entries.forM fun entry => s.climb s.entries.length (some entry)
  else .err .invalidTopology

/-- The walk of `descendant_of`. It takes a node it cannot leave in time for a
descendant. -/
def descendantFrom (s : TopologySnapshot) (ancestor : MountId) : Nat → Option TopologyEntry → Bool
  | _, none => false
  | 0, some _ => true
  | hops + 1, some entry => if entry.mount = ancestor then true else descendantFrom s ancestor hops (s.above entry)

def descendantOf (s : TopologySnapshot) (child ancestor : MountId) : Bool :=
  s.descendantFrom ancestor s.entries.length (s.find child)

end TopologySnapshot

inductive MountOperation where
  | attach (mount parent : MountId)
  | bind (source parent : MountId)
  | move (mount parent : MountId)
  | remount (mount : MountId) (flags : MountFlags)
  | setattr (mount : MountId) (flags : MountFlags)
  | pivotRoot (newRoot putOld : MountId)
  | unmount (mount : MountId) (isLazy : Bool)

structure MountPlan where
  mountNamespace : Nat
  expected : Nat
  next : Nat
  operation : MountOperation

def checkOperation (s : TopologySnapshot) (authority : MountAuthority) : MountOperation → Outcome MountError Unit
  | .attach mount parent =>
      if (s.find parent).isNone then .err .invalidTopology
      else if (s.find mount).isSome ∧ s.descendantOf parent mount then .err .topologyCycle
      else .ok ()
  | .bind source parent =>
      if (s.find source).isNone ∨ (s.find parent).isNone then .err .invalidTopology else .ok ()
  | .move mount parent =>
      if (s.find mount).isNone ∨ (s.find parent).isNone then .err .invalidTopology
      else if s.descendantOf parent mount then .err .topologyCycle
      else .ok ()
  | .remount mount _ | .setattr mount _ => if (s.find mount).isNone then .err .invalidTopology else .ok ()
  | .pivotRoot newRoot putOld =>
      if !authority.pivotRoot then .err .permissionDenied
      else if (s.entries.find? (·.parent.isNone)).map TopologyEntry.mount ≠ some putOld ∨ (s.find newRoot).isNone then
        .err .rootRequired
      else .ok ()
  | .unmount mount isLazy =>
      match s.find mount with
      | none => .err .invalidTopology
      | some entry =>
          if entry.parent.isNone then .err .rootRequired
          else if !entry.detachable && !(isLazy && authority.lazyUnmount) then .err .busy
          else .ok ()

def planMount (s : TopologySnapshot) (authority : MountAuthority) (operation : MountOperation) :
    Outcome MountError MountPlan := do
  s.validate
  if !authority.administer then .err .permissionDenied else do
  checkOperation s authority operation
  let next ← nextGeneration s.generation
  .ok ⟨s.mountNamespace, s.generation, next, operation⟩

def Link (entries : List TopologyEntry) (a b : MountId) : Prop := ∃ e ∈ entries, e.mount = a ∧ e.parent = some b

/-- The mounts form one tree: no id twice, one mount without a parent, and
parent links that lead there from every mount. -/
structure IsTree (entries : List TopologyEntry) (root : MountId) : Prop where
  unique : (entries.map TopologyEntry.mount).Nodup
  rootless : ∀ e ∈ entries, e.parent = none ↔ e.mount = root
  present : ∃ e ∈ entries, e.mount = root
  reaches : ∀ e ∈ entries, ReflTransGen (Link entries) e.mount root

section Tree

variable {s : TopologySnapshot} {e e' : TopologyEntry} {entries : List TopologyEntry} {root a b c : MountId}

theorem eq_of_mount (h : (entries.map TopologyEntry.mount).Nodup) (he : e ∈ entries) (he' : e' ∈ entries)
    (hm : e.mount = e'.mount) : e = e' :=
  List.inj_on_of_nodup_map h he he' hm

namespace TopologySnapshot

theorem find_eq_some (h : (s.entries.map TopologyEntry.mount).Nodup) {id : MountId} :
    s.find id = some e ↔ e ∈ s.entries ∧ e.mount = id := by
  constructor
  · intro hfind
    exact ⟨List.mem_of_find?_eq_some hfind, by simpa using List.find?_some hfind⟩
  · rintro ⟨he, hm⟩
    obtain ⟨e', he'⟩ : ∃ e', s.find id = some e' :=
      Option.isSome_iff_exists.mp (List.find?_isSome.mpr ⟨e, he, by simpa using hm⟩)
    have hid : e'.mount = id := by simpa using List.find?_some he'
    rw [he', eq_of_mount h (List.mem_of_find?_eq_some he') he (hid.trans hm.symm)]

theorem isSome_find {id : MountId} : (s.find id).isSome = true ↔ ∃ e ∈ s.entries, e.mount = id := by
  simp [find, List.find?_isSome]

/-- What the first loop of `validate` has checked when it ends. -/
theorem checkEntries_eq_ok {before rest : List TopologyEntry} {roots n : Nat} :
    s.checkEntries before rest roots = .ok n ↔ n = roots + rest.countP (·.parent.isNone) ∧
      (∀ e ∈ rest, ∀ p, e.parent = some p → p ≠ e.mount ∧ (s.find p).isSome = true) ∧
      (rest.map TopologyEntry.mount).Nodup ∧ ∀ e ∈ rest, ∀ e' ∈ before, e'.mount ≠ e.mount := by
  induction rest generalizing before roots with
  | nil =>
      simp only [checkEntries, ok.injEq, List.countP_nil, Nat.add_zero]
      constructor
      · rintro rfl
        simp
      · rintro ⟨rfl, -⟩
        rfl
  | cons entry rest ih =>
      rw [checkEntries, guard_eq_ok, guard_eq_ok, ih]
      have hroots : (if entry.parent.isNone then roots + 1 else roots) + rest.countP (·.parent.isNone) =
          roots + (entry :: rest).countP (·.parent.isNone) := by
        rw [List.countP_cons]
        split <;> omega
      have hparent : ¬ entry.parent.any (fun parent => parent = entry.mount ∨ (s.find parent).isNone) = true ↔
          ∀ p, entry.parent = some p → p ≠ entry.mount ∧ (s.find p).isSome = true := by
        cases entry.parent with
        | none => simp
        | some p => cases hp : s.find p <;> simp [hp]
      rw [hroots, hparent]
      simp only [List.any_eq_true, decide_eq_true_eq, not_exists, not_and, List.mem_cons, List.map_cons,
        List.nodup_cons, List.mem_append, List.mem_map, forall_eq_or_imp, List.not_mem_nil, or_false]
      constructor
      · rintro ⟨hp, hbefore, hn, hrest, hnodup, hapart⟩
        refine ⟨hn, ⟨hp, hrest⟩, ⟨?_, hnodup⟩, hbefore, fun e he e' he' => hapart e he e' (.inl he')⟩
        intro e he heq
        exact hapart e he entry (.inr rfl) heq.symm
      · rintro ⟨hn, ⟨hp, hrest⟩, ⟨hfresh, hnodup⟩, hbefore, hapart⟩
        refine ⟨hp, hbefore, hn, hrest, hnodup, fun e he e' he' => ?_⟩
        rcases he' with he' | rfl
        · exact hapart e he e' he'
        · exact fun heq => hfresh e he heq.symm

/-- How many parent links lead from an entry to one without a parent. -/
inductive Depth (s : TopologySnapshot) : Nat → TopologyEntry → Prop where
  | root {e : TopologyEntry} (h : e.parent = none) : Depth s 0 e
  | child {n : Nat} {e e' : TopologyEntry} (h : s.above e = some e') (hd : Depth s n e') : Depth s (n + 1) e

theorem Depth.unique {n m : Nat} (h : s.Depth n e) (h' : s.Depth m e) : n = m := by
  induction h generalizing m with
  | root hnone =>
      cases h' with
      | root => rfl
      | child habove => simp [above, hnone] at habove
  | child habove hd ih =>
      cases h' with
      | root hnone => simp [above, hnone] at habove
      | child habove' hd' =>
          obtain rfl := Option.some.inj (habove.symm.trans habove')
          rw [ih hd']

theorem above_mem (h : s.above e = some e') : e' ∈ s.entries := by
  obtain ⟨p, -, hp⟩ := Option.bind_eq_some_iff.mp h
  exact List.mem_of_find?_eq_some hp

/-- The entries on the way up are all different, so there are at most as many
as the list has. -/
theorem Depth.lt {n : Nat} (h : s.Depth n e) (he : e ∈ s.entries) : n < s.entries.length := by
  obtain ⟨path, hlength, hnodup, hsub, -⟩ : ∃ path : List TopologyEntry, path.length = n + 1 ∧ path.Nodup ∧
      path ⊆ s.entries ∧ ∀ x ∈ path, ∃ m ≤ n, s.Depth m x := by
    induction h with
    | @root e hnone =>
        refine ⟨[e], rfl, List.nodup_singleton e, by simpa using he, fun x hx => ⟨0, le_refl 0, ?_⟩⟩
        rw [List.mem_singleton.mp hx]
        exact .root hnone
    | @child n e e' habove hd ih =>
        obtain ⟨path, hlength, hnodup, hsub, hdepth⟩ := ih (above_mem habove)
        refine ⟨e :: path, by simp [hlength], List.nodup_cons.mpr ⟨?_, hnodup⟩, by simp [he, hsub], ?_⟩
        · intro hmem
          obtain ⟨m, hm, hd'⟩ := hdepth e hmem
          have := hd'.unique (.child habove hd)
          omega
        · intro x hx
          rcases List.mem_cons.mp hx with rfl | hx
          · exact ⟨n + 1, le_refl _, .child habove hd⟩
          · obtain ⟨m, hm, hd'⟩ := hdepth x hx
            exact ⟨m, by omega, hd'⟩
  have := (List.subperm_of_subset hnodup hsub).length_le
  omega

/-- A walk ends in time when its entry has a depth below the hops. -/
theorem climb_eq_ok (hfound : ∀ e ∈ s.entries, ∀ p, e.parent = some p → (s.find p).isSome = true) {hops : Nat}
    (he : e ∈ s.entries) : s.climb hops (some e) = .ok () ↔ ∃ n < hops, s.Depth n e := by
  induction hops generalizing e with
  | zero => simp [climb]
  | succ hops ih =>
      rw [climb]
      cases hparent : e.parent with
      | none =>
          have habove : s.above e = none := by simp [above, hparent]
          rw [habove, climb]
          simp only [true_iff]
          exact ⟨0, by omega, .root hparent⟩
      | some p =>
          obtain ⟨e', he'⟩ := Option.isSome_iff_exists.mp (hfound e he p hparent)
          have habove : s.above e = some e' := by simp [above, hparent, he']
          rw [habove, ih (above_mem habove)]
          constructor
          · rintro ⟨n, hn, hd⟩
            exact ⟨n + 1, by omega, .child habove hd⟩
          · rintro ⟨n, hn, hd⟩
            cases hd with
            | root hnone => simp [hparent] at hnone
            | @child n _ e'' habove' hd =>
                obtain rfl := Option.some.inj (habove.symm.trans habove')
                exact ⟨n, by omega, hd⟩

theorem depth_of_reaches (h : (s.entries.map TopologyEntry.mount).Nodup)
    (hroot : ∀ e ∈ s.entries, e.mount = root → e.parent = none)
    (hpresent : ∃ e ∈ s.entries, e.mount = root) (hreaches : ReflTransGen (Link s.entries) a root) :
    ∃ e, s.find a = some e ∧ ∃ n, s.Depth n e := by
  induction hreaches using ReflTransGen.head_induction_on with
  | refl =>
      obtain ⟨e, he, hm⟩ := hpresent
      exact ⟨e, (find_eq_some h).mpr ⟨he, hm⟩, 0, .root (hroot e he hm)⟩
  | head hlink _ ih =>
      obtain ⟨e, he, hm, hparent⟩ := hlink
      obtain ⟨e', he', n, hd⟩ := ih
      exact ⟨e, (find_eq_some h).mpr ⟨he, hm⟩, n + 1, .child (by simp [above, hparent, he']) hd⟩

theorem Depth.reaches {n : Nat} (h : s.Depth n e) (he : e ∈ s.entries)
    (hroot : ∀ e ∈ s.entries, e.parent = none → e.mount = root) : ReflTransGen (Link s.entries) e.mount root := by
  induction h with
  | root hnone => rw [hroot _ he hnone]
  | @child n e e' habove hd ih =>
      obtain ⟨p, hp, hfind⟩ := Option.bind_eq_some_iff.mp habove
      have hm : e'.mount = p := by simpa using List.find?_some hfind
      exact .head ⟨e, he, rfl, hm ▸ hp⟩ (ih (above_mem habove))

theorem countP_eq_one (h : (entries.map TopologyEntry.mount).Nodup) :
    entries.countP (·.parent.isNone) = 1 ↔ ∃ root, (∀ e ∈ entries, e.parent = none ↔ e.mount = root) ∧
      ∃ e ∈ entries, e.mount = root := by
  rw [List.countP_eq_length_filter, List.length_eq_one_iff]
  constructor
  · rintro ⟨r, hr⟩
    have hmem : ∀ e, e ∈ entries ∧ e.parent = none ↔ e = r := by
      intro e
      have hin : e ∈ entries.filter (·.parent.isNone) ↔ e ∈ [r] := by rw [hr]
      simpa using hin
    obtain ⟨hin, hnone⟩ := (hmem r).mpr rfl
    refine ⟨r.mount, fun e he => ⟨fun hp => ?_, fun hm => ?_⟩, r, hin, rfl⟩
    · rw [(hmem e).mp ⟨he, hp⟩]
    · rw [eq_of_mount h he hin hm, hnone]
  · rintro ⟨root, hroot, r, hr, rfl⟩
    refine ⟨r, ?_⟩
    have hfilter : entries.filter (·.parent.isNone) = entries.filter (· == r) := by
      refine List.filter_congr fun e he => ?_
      have hiff : e.parent = none ↔ e = r := (hroot e he).trans ⟨fun hm => eq_of_mount h he hr hm, fun heq => heq ▸ rfl⟩
      rw [Bool.eq_iff_iff]
      simp [hiff]
    rw [hfilter, List.filter_beq, List.count_eq_one_of_mem h.of_map hr]
    rfl

theorem validate_eq_ok : s.validate = .ok () ↔ ∃ root, IsTree s.entries root := by
  rw [validate, bind_eq_ok]
  constructor
  · rintro ⟨roots, hcheck, h⟩
    obtain ⟨rfl, hparents, hnodup, -⟩ := checkEntries_eq_ok.mp hcheck
    split at h
    case isFalse => cases h
    case isTrue hone =>
        rw [Nat.zero_add, countP_eq_one hnodup] at hone
        obtain ⟨root, hroot, hpresent⟩ := hone
        refine ⟨root, hnodup, hroot, hpresent, fun e he => ?_⟩
        obtain ⟨n, -, hd⟩ := (climb_eq_ok (fun e he p hp => (hparents e he p hp).2) he).mp ((forM_eq_ok _).mp h e he)
        exact hd.reaches he fun e he hp => (hroot e he).mp hp
  · rintro ⟨root, htree⟩
    have hdepth : ∀ e ∈ s.entries, ∃ n, s.Depth n e := by
      intro e he
      obtain ⟨e', he', hd⟩ := depth_of_reaches htree.unique (fun e he hm => (htree.rootless e he).mpr hm) htree.present
        (htree.reaches e he)
      rwa [← Option.some.inj (((find_eq_some htree.unique).mpr ⟨he, rfl⟩).symm.trans he')] at hd
    -- an entry with a depth has its parent in the list, and not itself as parent
    have hparents : ∀ e ∈ s.entries, ∀ p, e.parent = some p → p ≠ e.mount ∧ (s.find p).isSome = true := by
      intro e he p hp
      obtain ⟨n, hd⟩ := hdepth e he
      cases hd with
      | root hnone => simp [hp] at hnone
      | @child n _ e' habove hd =>
          have hfind : s.find p = some e' := by simpa [above, hp] using habove
          refine ⟨?_, by rw [hfind]; rfl⟩
          rintro rfl
          have hself := eq_of_mount htree.unique (above_mem habove) he ((find_eq_some htree.unique).mp hfind).2
          rw [hself] at hd
          have := hd.unique (.child (hself ▸ habove) hd)
          omega
    refine ⟨_, checkEntries_eq_ok.mpr ⟨rfl, hparents, htree.unique, by simp⟩, ?_⟩
    rw [if_pos (by rw [Nat.zero_add, countP_eq_one htree.unique]; exact ⟨root, htree.rootless, htree.present⟩),
      forM_eq_ok]
    intro e he
    obtain ⟨n, hd⟩ := hdepth e he
    exact (climb_eq_ok (fun e he p hp => (hparents e he p hp).2) he).mpr ⟨n, hd.lt he, hd⟩

end TopologySnapshot

namespace IsTree

theorem link_iff (h : IsTree entries root) (he : e ∈ entries) : Link entries e.mount b ↔ e.parent = some b := by
  constructor
  · rintro ⟨e', he', hm, hp⟩
    rwa [← eq_of_mount h.unique he' he hm]
  · exact fun hp => ⟨e, he, rfl, hp⟩

theorem depth (h : IsTree s.entries root) (he : e ∈ s.entries) : ∃ n, s.Depth n e := by
  obtain ⟨e', he', hd⟩ := TopologySnapshot.depth_of_reaches h.unique (fun e he hm => (h.rootless e he).mpr hm) h.present
    (h.reaches e he)
  rwa [← Option.some.inj (((TopologySnapshot.find_eq_some h.unique).mpr ⟨he, rfl⟩).symm.trans he')] at hd

theorem depth_of_link (h : IsTree s.entries root) (he : e ∈ s.entries) (he' : e' ∈ s.entries)
    (hlink : Link s.entries e.mount e'.mount) {n : Nat} (hd : s.Depth n e') : s.Depth (n + 1) e := by
  refine .child ?_ hd
  rw [TopologySnapshot.above, (h.link_iff he).mp hlink]
  exact (TopologySnapshot.find_eq_some h.unique).mpr ⟨he', rfl⟩

theorem not_cycle (h : IsTree entries root) (hlink : Link entries a b) : ¬ ReflTransGen (Link entries) b a := by
  -- the depths fall along the links
  have hfalls : ∀ {x y : MountId}, ReflTransGen (Link entries) x y → ∀ e ∈ entries, e.mount = y →
      ∀ n, (⟨0, 0, entries⟩ : TopologySnapshot).Depth n e →
        ∃ e' ∈ entries, e'.mount = x ∧ ∃ m, n ≤ m ∧ (⟨0, 0, entries⟩ : TopologySnapshot).Depth m e' := by
    intro x y hreach
    induction hreach using ReflTransGen.head_induction_on with
    | refl => exact fun e he hm n hd => ⟨e, he, hm, n, le_refl n, hd⟩
    | head hlink _ ih =>
        intro e he hm n hd
        obtain ⟨e', he', hm', m, hle, hd'⟩ := ih e he hm n hd
        obtain ⟨e₀, he₀, hm₀, hp₀⟩ := hlink
        refine ⟨e₀, he₀, hm₀, m + 1, by omega, ?_⟩
        exact depth_of_link (s := ⟨0, 0, entries⟩) h he₀ he' ⟨e₀, he₀, rfl, hm' ▸ hp₀⟩ hd'
  intro hreach
  obtain ⟨e, he, hm, hp⟩ := hlink
  obtain ⟨n, hd⟩ := depth (s := ⟨0, 0, entries⟩) h he
  obtain ⟨e', he', hm', m, hle, hd'⟩ := hfalls hreach e he hm n hd
  have hup := depth_of_link (s := ⟨0, 0, entries⟩) h he he' ⟨e, he, rfl, hm' ▸ hp⟩ hd'
  have := hd.unique hup
  omega

/-- In a tree the walk of `descendant_of` answers its question. -/
theorem descendantFrom_iff (h : IsTree s.entries root) {n hops : Nat} (hd : s.Depth n e) (he : e ∈ s.entries)
    (hn : n < hops) : s.descendantFrom a hops (some e) = true ↔ ReflTransGen (Link s.entries) e.mount a := by
  induction hd generalizing hops with
  | @root e hnone =>
      obtain ⟨hops, rfl⟩ : ∃ m, hops = m + 1 := ⟨hops - 1, by omega⟩
      have habove : s.above e = none := by simp [TopologySnapshot.above, hnone]
      rw [TopologySnapshot.descendantFrom, habove, TopologySnapshot.descendantFrom, ReflTransGen.cases_head_iff]
      have hlast : ¬ ∃ b, Link s.entries e.mount b ∧ ReflTransGen (Link s.entries) b a := by
        rintro ⟨b, hlink, -⟩
        rw [h.link_iff he, hnone] at hlink
        cases hlink
      simp [hlast]
  | @child n e e' habove hd ih =>
      obtain ⟨hops, rfl⟩ : ∃ m, hops = m + 1 := ⟨hops - 1, by omega⟩
      obtain ⟨p, hp, hfind⟩ := Option.bind_eq_some_iff.mp habove
      have hm : e'.mount = p := by simpa using List.find?_some hfind
      have hnext : (∃ b, Link s.entries e.mount b ∧ ReflTransGen (Link s.entries) b a) ↔
          ReflTransGen (Link s.entries) e'.mount a := by
        simp only [h.link_iff he, hp, Option.some.injEq]
        rw [hm]
        exact ⟨fun ⟨b, hb, hreach⟩ => hb ▸ hreach, fun hreach => ⟨p, rfl, hreach⟩⟩
      rw [TopologySnapshot.descendantFrom, habove, ReflTransGen.cases_head_iff, hnext]
      have hih := @ih hops (TopologySnapshot.above_mem habove) (by omega)
      by_cases heq : e.mount = a
      · simp [heq]
      · simp [heq, hih]

theorem descendantOf_iff (h : IsTree s.entries root) (hc : (s.find c).isSome = true) :
    s.descendantOf c a = true ↔ ReflTransGen (Link s.entries) c a := by
  obtain ⟨e, he⟩ := Option.isSome_iff_exists.mp hc
  obtain ⟨hmem, rfl⟩ := (TopologySnapshot.find_eq_some h.unique).mp he
  obtain ⟨n, hd⟩ := h.depth hmem
  rw [TopologySnapshot.descendantOf, he]
  exact h.descendantFrom_iff hd hmem (hd.lt hmem)

end IsTree

end Tree

end TheKernel.Mount
