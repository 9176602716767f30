import TheKernel.MemorySet.Replacement

namespace TheKernel.MemorySet

namespace FlagTable

/-- Visits the leaves of a range in order and stops at the first one that is
not admitted. -/
def sweep (accept : Nat → Bool) (value : Nat) : Nat → Nat → Table Nat → Bool × Table Nat
  | _, 0, t => (true, t)
  | start, size + 1, t =>
      if accept (t start) then sweep accept value (start + 1) size (Function.update t start value) else (false, t)

def allowed (accept : Nat → Bool) (start size : Nat) (t : Table Nat) : Bool := (List.range' start size).all fun x =>
    accept (t x)

def vacant (leaf : Nat) : Bool := leaf == 0

def present (leaf : Nat) : Bool := leaf != 0

def overlay (old : Table Nat) (start size : Nat) (t : Table Nat) : Table Nat :=
  fun x => if start ≤ x ∧ x < start + size then old x else t x

/-- The backend of the crate's tests: a leaf is the flags it was mapped with,
or 0. A token is the table as it was before the withdrawal. -/
def backend : MappingBackend Nat Unit Nat (Table Nat) where
  map _ start size flags t := sweep vacant flags start size t
  preflightUnmap _ start size t := allowed present start size t
  unmap _ start size t := sweep present 0 start size t
  preflightProtect _ start size newFlags t := present newFlags && allowed present start size t
  protect _ start size newFlags t := sweep present newFlags start size t
  canMerge _ _ := true
  unmapDeferred _ start size t :=
    let result := sweep present 0 start size t
    (if result.1 then some t else none, result.2)
  prepareDeferredUnmap _ _ _ t := some t
  unmapDeferredPrepared _ _ start size t :=
    let result := sweep present 0 start size t
    (result.1, t, result.2)
  prepareFixedMap _ _ _ flags t := if present flags then some t else none
  mapFixedPrepared _ _ start size flags t := sweep vacant flags start size t
  preflightRestoreDeferred _ _ _ _ := true
  restoreDeferred _ token start size t := (true, overlay token start size t)

variable {accept : Nat → Bool} {start size : Nat} {t t' : Table Nat}

theorem allowed_iff : allowed accept start size t = true ↔ ∀ x, InRange (start, start + size) x →
    accept (t x) = true := by
  simp only [allowed, List.all_eq_true, List.mem_range'_1, InRange]

theorem allowed_agree (h : allowed accept start size t = true) (hagree : Agree (start, start + size) t t') :
    allowed accept start size t' = true := by
  rw [allowed_iff] at h ⊢
  intro x hx
  rw [hagree x hx]
  exact h x hx

theorem sweep_frame (accept : Nat → Bool) (value size : Nat) : ∀ start t x, ¬ InRange (start, start + size) x →
    (sweep accept value start size t).2 x = t x := by
  induction size with
  | zero =>
      intro start t x _
      rfl
  | succ size ih =>
      intro start t x hx
      simp only [InRange] at hx
      rw [sweep]
      split
      · rw [ih, Function.update_of_ne]
        · omega
        · simp only [InRange]
          omega
      · rfl

theorem sweep_allowed (accept : Nat → Bool) (value size : Nat) : ∀ start t, allowed accept start size t = true →
    (sweep accept value start size t).1 = true ∧
      ∀ x, InRange (start, start + size) x → (sweep accept value start size t).2 x = value := by
  induction size with
  | zero =>
      intro start t _
      refine ⟨rfl, fun x hx => ?_⟩
      simp only [InRange] at hx
      omega
  | succ size ih =>
      intro start t h
      rw [allowed_iff] at h
      have hstart : accept (t start) = true := h start (by simp only [InRange]; omega)
      have hrest : allowed accept (start + 1) size (Function.update t start value) = true := by
        rw [allowed_iff]
        intro x hx
        simp only [InRange] at hx
        rw [Function.update_of_ne (by omega)]
        exact h x (by simp only [InRange]; omega)
      obtain ⟨hok, hvalue⟩ := ih (start + 1) _ hrest
      rw [sweep, if_pos hstart]
      refine ⟨hok, fun x hx => ?_⟩
      by_cases hxs : x = start
      · rw [sweep_frame, hxs, Function.update_self]
        simp only [InRange]
        omega
      · refine hvalue x ?_
        simp only [InRange] at hx ⊢
        omega

theorem honest : Honest backend where
  unmap _ start size _ _ hpre hagree := (sweep_allowed _ _ size start _ (allowed_agree hpre hagree)).1
  unmap_frame _ start size t x hx := sweep_frame _ _ size start t x hx
  unmapDeferred _ start size _ t' hpre hagree := by
    have hok := (sweep_allowed present 0 size start t' (allowed_agree hpre hagree)).1
    simp only [backend, hok, if_true, Option.isSome_some]
  unmapDeferred_frame _ start size t x hx := sweep_frame _ _ size start t x hx
  protect _ start size flags _ _ hpre hagree :=
    (sweep_allowed _ _ size start _ (allowed_agree (Bool.and_eq_true_iff.mp hpre).2 hagree)).1
  protect_frame _ start size flags t x hx := sweep_frame _ _ size start t x hx

theorem reversible : Reversible backend 0 where
  withdraw r token t t' hres hagree := by
    obtain ⟨hok, hvalue⟩ := sweep_allowed present 0 r.size r.start t' (allowed_agree hres.unmappable hagree)
    refine ⟨hok, sweep_frame _ _ r.size r.start t', hvalue, fun u hu => ⟨rfl, fun x hx => ?_, fun x hx => ?_⟩⟩
    · exact if_neg hx
    · exact (if_pos hx).trans (hagree x hx)
  install b start size flags token t t' hprep _ hvacant := by
    have hflags : present flags = true := by
      simp only [backend] at hprep
      split at hprep
      · assumption
      · cases hprep
    obtain ⟨hok, hvalue⟩ := sweep_allowed vacant flags size start t'
      (allowed_iff.mpr fun x hx => by rw [hvacant x hx]; rfl)
    refine ⟨hok, ?_⟩
    obtain ⟨hok', hvalue'⟩ := sweep_allowed present 0 size start (sweep vacant flags start size t').2
      (allowed_iff.mpr fun x hx => by rw [hvalue x hx]; exact hflags)
    refine Prod.ext hok' (funext fun x => ?_)
    by_cases hx : InRange (start, start + size) x
    · exact (hvalue' x hx).trans (hvacant x hx).symm
    · exact (sweep_frame _ _ size start _ x hx).trans (sweep_frame _ _ size start t' x hx)

theorem interchangeable : Interchangeable backend (fun _ x => x) := fun _ _ _ _ => rfl

end FlagTable

open Act

variable {F B E R L : Type}

/-- A set with its page table, the updates that are prepared, and the guards
that await their end. The guard of a metadata update borrows the set. -/
structure System (F B E R : Type) where
  set : MemorySet F B
  table : Table E
  preparedMetadata : List (PreparedMetadataUpdate F B)
  committedMetadata : Option (CommittedMetadataUpdate F B)
  preparedFixed : List (PreparedFixedReplacement F B R)
  committedFixed : List (CommittedFixedReplacement F B R)

namespace System

def init (table : Table E) : System F B E R := ⟨new, table, [], none, [], []⟩

def enter (s : System F B E R) : Call F B E R := ⟨s.set, s.table, ⟨[], []⟩, s.set.areas.size⟩

def leave (s : System F B E R) (c : Call F B E R) : System F B E R := { s with set := c.set, table := c.table }

end System

section Steps

variable [DecidableEq F] (backend : MappingBackend F B E R)

inductive Operation : {ε α : Type} → Act (Call F B E R) ε α → Prop where
  | map (memory : Nat → Bool) (area : Area F B) (unmapOverlap : Bool) (maxAreas : Nat) (h : area.stop ≤ usizeMax) :
      Operation (mapWithLimit backend memory area unmapOverlap maxAreas)
  | unmap (mode : UnmapMode) (memory : Nat → Bool) (start size maxAreas : Nat) :
      Operation (unmapWithLimitInner backend mode memory start size maxAreas)
  | unmapMatching (memory : Nat → Bool) (shouldUnmap : B → Bool) (maxAreas : Nat) :
      Operation (unmapMatchingDeferredWithLimit backend memory shouldUnmap maxAreas)
  | unmapSelected (memory : Nat → Bool) (selected : List Nat) (shouldUnmap : B → Bool) (maxAreas : Nat) :
      Operation (unmapSelectedDeferredWithLimit backend memory selected shouldUnmap maxAreas)
  | clear (mode : UnmapMode) (memory : Nat → Bool) : Operation (clearInner backend mode memory)
  | protect (memory : Nat → Bool) (start size : Nat) (updateFlags : Nat → F → Option F) (maxAreas : Nat) :
      Operation (protectWithLimit backend memory start size updateFlags maxAreas)
  | updateMetadata (shouldUpdate : B → Bool) (update : B → B) (maxAreas start size : Nat) :
      Operation (updateMetadataWithLimit backend shouldUpdate update maxAreas start size)

/-- One step of the system. A call that panics does not return, so that no
step follows it. The page table may change between calls, as page faults do. -/
inductive Step : System F B E R → System F B E R → Prop where
  | call {ε α : Type} {x : Act (Call F B E R) ε α} {s : System F B E R} {result : Outcome ε α} {c : Call F B E R}
      (hidle : s.committedMetadata = none) (hop : Operation backend x) (hrun : x s.enter = (result, c))
        (hret : result ≠ .panic) :
      Step s (s.leave c)
  | prepareMetadata {s : System F B E R} {memory : Nat → Bool} {start size : Nat} {shouldUpdate : B → Bool}
      {update : B → B}
      {maxAreas : Nat} {p : PreparedMetadataUpdate F B} {c : Call F B E R} (hidle : s.committedMetadata = none)
      (hrun : prepareMetadataUpdateWithLimit backend memory start size shouldUpdate update maxAreas s.enter =
        (.ok p, c)) :
      Step s { s.leave c with preparedMetadata := p :: s.preparedMetadata }
  | prepareMatchingMetadata {s : System F B E R} {memory : Nat → Bool} {shouldUpdate : B → Bool} {update : B → B}
      {maxAreas : Nat} {p : PreparedMetadataUpdate F B} {c : Call F B E R} (hidle : s.committedMetadata = none)
      (hrun : prepareMatchingMetadataUpdateWithLimit backend memory shouldUpdate update maxAreas s.enter = (.ok p, c)) :
      Step s { s.leave c with preparedMetadata := p :: s.preparedMetadata }
  | commitMetadata {s : System F B E R} {ps qs : List (PreparedMetadataUpdate F B)} {p : PreparedMetadataUpdate F B}
      {g : CommittedMetadataUpdate F B} {c : Call F B E R} (hidle : s.committedMetadata = none)
        (hp : s.preparedMetadata = ps ++ p :: qs)
      (hrun : commitMetadata F B E R p s.enter = (.ok g, c)) :
      Step s { s.leave c with preparedMetadata := ps ++ qs, committedMetadata := some g }
  | rejectMetadata {s : System F B E R} {ps qs : List (PreparedMetadataUpdate F B)} {p : PreparedMetadataUpdate F B}
      {e : MappingError} {c : Call F B E R} (hidle : s.committedMetadata = none) (hp : s.preparedMetadata =
        ps ++ p :: qs)
      (hrun : commitMetadata F B E R p s.enter = (.err e, c)) : Step s { s.leave c with preparedMetadata := ps ++ qs }
  | finishMetadata {s : System F B E R} : Step s { s with committedMetadata := none }
  | rollbackMetadata {s : System F B E R} {g : CommittedMetadataUpdate F B} {c : Call F B E R}
      (hg : s.committedMetadata = some g)
      (hrun : (rollbackMetadata g : Act (Call F B E R) MappingError Unit) s.enter = (.ok (), c)) :
      Step s { s.leave c with committedMetadata := none }
  | prepareFixed {s : System F B E R} {memory : Nat → Bool} {replacement : Area F B} {maxAreas : Nat}
      {p : PreparedFixedReplacement F B R} {c : Call F B E R} (hidle : s.committedMetadata = none)
        (harea : replacement.stop ≤ usizeMax)
      (hrun : prepareFixedReplacementWithLimit backend memory replacement maxAreas s.enter = (.ok p, c)) :
      Step s { s.leave c with preparedFixed := p :: s.preparedFixed }
  | commitFixed {s : System F B E R} {ps qs : List (PreparedFixedReplacement F B R)}
      {p : PreparedFixedReplacement F B R}
      {g : CommittedFixedReplacement F B R} {c : Call F B E R} (hidle : s.committedMetadata = none)
        (hp : s.preparedFixed = ps ++ p :: qs)
      (hrun : commitFixed backend p s.enter = (.ok g, c)) :
      Step s { s.leave c with preparedFixed := ps ++ qs, committedFixed := g :: s.committedFixed }
  | rejectFixed {s : System F B E R} {ps qs : List (PreparedFixedReplacement F B R)}
      {p : PreparedFixedReplacement F B R}
      {e : MappingError} {c : Call F B E R} (hidle : s.committedMetadata = none) (hp : s.preparedFixed = ps ++ p :: qs)
      (hrun : commitFixed backend p s.enter = (.err e, c)) : Step s { s.leave c with preparedFixed := ps ++ qs }
  | install {s : System F B E R} {gs hs : List (CommittedFixedReplacement F B R)}
      {g g' : CommittedFixedReplacement F B R}
      {c : Call F B E R} (hidle : s.committedMetadata = none) (hg : s.committedFixed = gs ++ g :: hs)
      (hrun : (install backend g : Act (Call F B E R) MappingError (CommittedFixedReplacement F B R)) s.enter =
        (.ok g', c)) :
      Step s { s.leave c with committedFixed := gs ++ g' :: hs }
  | finishFixed {s : System F B E R} {gs hs : List (CommittedFixedReplacement F B R)}
      {g : CommittedFixedReplacement F B R}
      {r : FixedReplacementRetirement F B R} {c : Call F B E R} (hg : s.committedFixed = gs ++ g :: hs)
      (hrun : (finishFixed g : Act (Call F B E R) MappingError (FixedReplacementRetirement F B R)) s.enter =
        (.ok r, c)) :
      Step s { s.leave c with committedFixed := gs ++ hs }
  | rollbackFixed {s : System F B E R} {gs hs : List (CommittedFixedReplacement F B R)}
      {g : CommittedFixedReplacement F B R}
      {tree : Areas F B} {c : Call F B E R} (hidle : s.committedMetadata = none) (hg : s.committedFixed = gs ++ g :: hs)
      (hrun : (rollbackFixed backend g : Act (Call F B E R) MappingError (Areas F B)) s.enter = (.ok tree, c)) :
      Step s { s.leave c with committedFixed := gs ++ hs }
  | fault {s : System F B E R} (table : Table E) : Step s { s with table := table }

inductive Runs : Nat → System F B E R → System F B E R → Prop where
  | refl (s : System F B E R) : Runs 0 s s
  | step {n : Nat} {s t u : System F B E R} (h : Runs n s t) (hstep : Step backend t u) : Runs (n + 1) s u

def Reachable (s : System F B E R) : Prop := ∃ n table, Runs backend n (System.init table) s

end Steps

structure Inv (s : System F B E R) : Prop where
  set : Consistent s.set
  revision : s.set.revision < 2 ^ 64
  preparedMetadata : ∀ p ∈ s.preparedMetadata, p.Sound
  committedMetadata : ∀ g, s.committedMetadata = some g → ∀ revision, Consistent ⟨g.oldAreas, g.oldGaps, revision⟩
  preparedFixed : ∀ p ∈ s.preparedFixed, ∀ revision, Consistent ⟨p.replacementTree, p.replacementGaps, revision⟩
  committedFixed : ∀ g ∈ s.committedFixed, ∀ areas gaps, g.oldAreas = some areas → g.oldGaps = some gaps →
    ∀ revision, Consistent ⟨areas, gaps, revision⟩

/-- What a step does to the set: nothing, or a change that the revision counts
once or twice. -/
def Counted (old new : MemorySet F B) : Prop :=
  ∃ n ≤ 2, new.revision = (old.revision + n) % 2 ^ 64 ∧ (n = 0 → new.areas = old.areas)

theorem Counted.refl {set : MemorySet F B} (h : set.revision < 2 ^ 64) : Counted set set :=
  ⟨0, by omega, by rw [Nat.add_zero, Nat.mod_eq_of_lt h], fun _ => rfl⟩

theorem Counted.one {old new : MemorySet F B} (h : new.revision = (old.revision + 1) % 2 ^ 64) : Counted old new :=
  ⟨1, by omega, h, fun hn => by omega⟩

theorem Consistent.anyRevision {set : MemorySet F B} (h : Consistent set) (revision : Nat) :
    Consistent ⟨set.areas, set.gaps, revision⟩ := h.recover h.ordered fun _ => Iff.rfl

theorem Inv.leave {s : System F B E R} (h : Inv s) {c : Call F B E R} (hset : Consistent c.set)
    (hrev : c.set.revision < 2 ^ 64) : Inv (s.leave c) :=
  ⟨hset, hrev, h.preparedMetadata, h.committedMetadata, h.preparedFixed, h.committedFixed⟩

theorem Inv.init (table : Table E) : Inv (System.init table : System F B E R) :=
  ⟨consistent_new, by simp [System.init, new], by simp [System.init], by simp [System.init], by simp [System.init],
    by simp [System.init]⟩

theorem Counted.revision_lt {old new : MemorySet F B} (h : Counted old new) : new.revision < 2 ^ 64 := by
  obtain ⟨n, -, hrev, -⟩ := h
  rw [hrev]
  exact Nat.mod_lt _ (by decide)

theorem Counted.revision_lt_of_changed {old new : MemorySet F B} (h : Counted old new)
    (hle : old.revision ≤ new.revision) (hne : new.areas ≠ old.areas) : old.revision < new.revision := by
  obtain ⟨n, hn, hrev, hsame⟩ := h
  have hpos : n ≠ 0 := fun hzero => hne (hsame hzero)
  omega

variable [DecidableEq F] {backend : MappingBackend F B E R}

/-- Every direct call keeps the set consistent and counts its changes. -/
theorem operation_spec {ε α : Type} {x : Act (Call F B E R) ε α} (hop : Operation backend x) {c : Call F B E R}
    (h : Consistent c.set) (hrev : c.set.revision < 2 ^ 64) :
    Ensures x c (fun _ d => Consistent d.set ∧ Counted c.set d.set) (fun _ d => Consistent d.set ∧ Counted c.set d.set)
      (¬ Honest backend) := by
  have hsame (d : Call F B E R) (hd : d = c) : Consistent d.set ∧ Counted c.set d.set := by
    rw [hd]
    exact ⟨h, .refl hrev⟩
  have hset (d : Call F B E R) (hcons : Consistent d.set)
      (hd : d.set = c.set ∨ d.set.revision = (c.set.revision + 1) % 2 ^ 64) : Consistent d.set ∧
        Counted c.set d.set := by
    refine ⟨hcons, ?_⟩
    rcases hd with hd | hd
    · rw [hd]
      exact .refl hrev
    · exact .one hd
  have hareas (d : Call F B E R) (hcons : Consistent d.set)
      (hd : d.set.areas = c.set.areas ∧ d.set.revision = c.set.revision ∨ d.set.revision =
        (c.set.revision + 1) % 2 ^ 64) :
      Consistent d.set ∧ Counted c.set d.set := by
    refine ⟨hcons, ?_⟩
    rcases hd with ⟨hareas, hd⟩ | hd
    · exact ⟨0, by omega, by rw [hd, Nat.add_zero, Nat.mod_eq_of_lt hrev], fun _ => hareas⟩
    · exact .one hd
  cases hop with
  | map memory area unmapOverlap maxAreas hbound =>
      refine (mapWithLimit_spec h (interchangeable_unit backend) hbound unmapOverlap).mono ?_ ?_ id
      · rintro - d ⟨-, hd⟩
        refine ⟨hd.consistent, ?_⟩
        rcases hd.revision with hone | htwo
        · exact .one hone
        · exact ⟨2, Nat.le_refl _, htwo, fun hn => by omega⟩
      · intro e d hd
        exact hset d hd.consistent hd.revision
  | unmap mode memory start size maxAreas =>
      refine (unmapWithLimitInner_spec h (interchangeable_unit backend) start size).mono ?_ (fun _ => hsame) id
      rintro - d ⟨-, ⟨-, hd⟩ | ⟨-, hd, hcons, -⟩⟩
      · exact hsame d hd
      · exact hset d hcons (.inr hd.revision)
  | unmapMatching memory shouldUnmap maxAreas =>
      exact (unmapMatchingDeferredWithLimit_spec h shouldUnmap).mono (fun _ d hd => hareas d hd.1 hd.2)
        (fun _ => hsame) id
  | unmapSelected memory selected shouldUnmap maxAreas =>
      exact (unmapSelectedDeferredWithLimit_spec h selected shouldUnmap).mono (fun _ d hd => hareas d hd.1 hd.2)
        (fun _ => hsame) id
  | clear mode memory =>
      refine (clearInner_spec h).mono ?_ (fun _ => hsame) id
      intro _ d hd
      refine hset d ?_ (.inr (by rw [hd]))
      rw [hd]
      exact consistent_new.anyRevision _
  | protect memory start size updateFlags maxAreas =>
      refine (protectWithLimit_spec h (interchangeable_unit backend) start size updateFlags).mono ?_ (fun _ => hsame) id
      rintro - d ⟨-, ⟨-, hd⟩ | ⟨-, hd⟩⟩
      · exact hsame d hd
      · exact hset d hd.consistent (.inr hd.revision)
  | updateMetadata shouldUpdate update maxAreas start size =>
      exact (updateMetadataWithLimit_spec h start size).mono (fun _ d hd => hset d hd.1 hd.2)
        (fun _ d hd => hset d hd.1 hd.2) False.elim

/-- One step keeps every tree consistent and counts its changes. -/
theorem step_spec {s t : System F B E R} (h : Inv s) (hstep : Step backend s t) : Inv t ∧ Counted s.set t.set := by
  have hidle (s : System F B E R) (hs : Inv s) {c : Call F B E R} (hc : c = s.enter) : Inv (s.leave c) ∧
      Counted s.set c.set := by
    rw [hc]
    exact ⟨hs.leave hs.set hs.revision, .refl hs.revision⟩
  cases hstep with
  | call hnone hop hrun hret =>
      rename_i ε α x result c
      have hspec := operation_spec hop (c := s.enter) h.set h.revision
      cases result with
      | ok a =>
          obtain ⟨hcons, hcount⟩ := hspec.ok_of hrun
          exact ⟨h.leave hcons hcount.revision_lt, hcount⟩
      | err e =>
          obtain ⟨hcons, hcount⟩ := hspec.err_of hrun
          exact ⟨h.leave hcons hcount.revision_lt, hcount⟩
      | panic => exact absurd rfl hret
  | prepareMetadata hnone hrun =>
      obtain ⟨hc, hp, -⟩ := (prepareMetadataUpdateWithLimit_spec (c := s.enter) h.set _ _).ok_of hrun
      obtain ⟨hinv, hcount⟩ := hidle s h hc
      exact ⟨{ hinv with preparedMetadata := List.forall_mem_cons.mpr ⟨hp, h.preparedMetadata⟩ }, hcount⟩
  | prepareMatchingMetadata hnone hrun =>
      obtain ⟨hc, hp, -⟩ := (prepareMatchingMetadataUpdateWithLimit_spec (c := s.enter) h.set).ok_of hrun
      obtain ⟨hinv, hcount⟩ := hidle s h hc
      exact ⟨{ hinv with preparedMetadata := List.forall_mem_cons.mpr ⟨hp, h.preparedMetadata⟩ }, hcount⟩
  | commitMetadata hnone hp hrun =>
      rename_i ps qs p g c
      have hall := h.preparedMetadata
      rw [hp] at hall
      obtain ⟨hcons, hrev, -, hold⟩ := (commitMetadata_spec (hall p (by simp))).ok_of hrun
      have hcount : Counted s.set c.set := .one hrev
      refine ⟨{ h.leave hcons hcount.revision_lt with
        preparedMetadata := fun q hq => hall q ?_
        committedMetadata := fun g' hg' revision => ?_ }, hcount⟩
      · rcases List.mem_append.mp hq with hq | hq <;> simp [hq]
      · cases hg'
        rw [hold]
        exact h.set.anyRevision revision
  | rejectMetadata hnone hp hrun =>
      rename_i ps qs p e c
      have hall := h.preparedMetadata
      rw [hp] at hall
      obtain ⟨hc, -⟩ := (commitMetadata_spec (hall p (by simp))).err_of hrun
      obtain ⟨hinv, hcount⟩ := hidle s h hc
      refine ⟨{ hinv with preparedMetadata := fun q hq => hall q ?_ }, hcount⟩
      rcases List.mem_append.mp hq with hq | hq <;> simp [hq]
  | finishMetadata => exact ⟨{ h with committedMetadata := fun _ hg => by cases hg }, .refl h.revision⟩
  | rollbackMetadata hg hrun =>
      rename_i g c
      obtain ⟨hcons, hrev, -⟩ := (rollbackMetadata_spec (fun _ _ => True) True (h.committedMetadata g hg)).ok_of hrun
      have hcount : Counted s.set c.set := .one hrev
      exact ⟨{ h.leave hcons hcount.revision_lt with committedMetadata := fun _ hg' => by cases hg' }, hcount⟩
  | prepareFixed hnone harea hrun =>
      obtain ⟨hc, hp⟩ := (prepareFixedReplacementWithLimit_spec (ℓ := fun _ _ => ())
          (c := s.enter) h.set harea).ok_of hrun
      obtain ⟨hinv, hcount⟩ := hidle s h hc
      exact ⟨{ hinv with preparedFixed := List.forall_mem_cons.mpr ⟨hp.consistent, h.preparedFixed⟩ }, hcount⟩
  | commitFixed hnone hp hrun =>
      rename_i ps qs p g c
      have hall := h.preparedFixed
      rw [hp] at hall
      obtain ⟨hset, hareas, hgaps⟩ := commitFixed_set.ok_of hrun
      have hcount : Counted s.set c.set := .one (by rw [hset]; rfl)
      have hcons : Consistent c.set := by
        rw [hset]
        exact hall p (by simp) _
      refine ⟨{ h.leave hcons hcount.revision_lt with
        preparedFixed := fun q hq => hall q ?_
        committedFixed := List.forall_mem_cons.mpr ⟨fun areas gaps ha hgp revision => ?_, h.committedFixed⟩ }, hcount⟩
      · rcases List.mem_append.mp hq with hq | hq <;> simp [hq]
      · rw [hareas, Option.some.injEq] at ha
        rw [hgaps, Option.some.injEq] at hgp
        rw [← ha, ← hgp]
        exact h.set.anyRevision revision
  | rejectFixed hnone hp hrun =>
      rename_i ps qs p e c
      have hall := h.preparedFixed
      rw [hp] at hall
      obtain ⟨-, hc, -⟩ := commitFixed_set.err_of hrun
      obtain ⟨hinv, hcount⟩ := hidle s h hc
      refine ⟨{ hinv with preparedFixed := fun q hq => hall q ?_ }, hcount⟩
      rcases List.mem_append.mp hq with hq | hq <;> simp [hq]
  | install hnone hg hrun =>
      rename_i gs hs g g' c
      have hall := h.committedFixed
      rw [hg] at hall
      obtain ⟨hset, hareas, hgaps⟩ := (install_set (fun _ _ => True)).ok_of hrun
      have hset' : c.set = s.set := hset
      refine ⟨{ h.leave (hset' ▸ h.set) (hset' ▸ h.revision) with committedFixed := fun q hq => ?_ }, ?_⟩
      · rcases List.mem_append.mp hq with hq | hq
        · exact hall q (by simp [hq])
        · rcases List.mem_cons.mp hq with rfl | hq
          · rw [hareas, hgaps]
            exact hall g (by simp)
          · exact hall q (by simp [hq])
      · show Counted s.set c.set
        rw [hset']
        exact .refl h.revision
  | finishFixed hg hrun =>
      rename_i gs hs g r c
      have hall := h.committedFixed
      rw [hg] at hall
      have hc : c = s.enter := by
        simp only [finishFixed, bind_eq_ok] at hrun
        obtain ⟨_, _, h₁, _, _, h₂, _, _, h₃, h₄⟩ := hrun
        have hkeep {α : Type} {o : Option α} {a : α} {c d : Call F B E R}
            (h : (expect o : Act (Call F B E R) MappingError α) c = (.ok a, d)) : d = c := by
          cases o with
          | none => cases h
          | some b =>
              cases h
              rfl
        cases h₄
        rw [hkeep h₃, hkeep h₂, hkeep h₁]
      obtain ⟨hinv, hcount⟩ := hidle s h hc
      refine ⟨{ hinv with committedFixed := fun q hq => hall q ?_ }, hcount⟩
      rcases List.mem_append.mp hq with hq | hq <;> simp [hq]
  | rollbackFixed hnone hg hrun =>
      rename_i gs hs g tree c
      have hall := h.committedFixed
      rw [hg] at hall
      obtain ⟨areas, gaps, hareas, hgaps, hset⟩ := (rollbackFixed_set (fun _ _ => True)).ok_of hrun
      have hcount : Counted s.set c.set := .one (by rw [hset]; rfl)
      have hcons : Consistent c.set := by
        rw [hset]
        exact hall g (by simp) areas gaps hareas hgaps _
      refine ⟨{ h.leave hcons hcount.revision_lt with committedFixed := fun q hq => hall q ?_ }, hcount⟩
      rcases List.mem_append.mp hq with hq | hq <;> simp [hq]
  | fault table => exact ⟨{ h with }, .refl h.revision⟩

theorem runs_inv {n : Nat} {s t : System F B E R} (h : Inv s) (hruns : Runs backend n s t) : Inv t := by
  induction hruns with
  | refl => exact h
  | step _ hstep ih => exact (step_spec (ih h) hstep).1

theorem Reachable.inv {s : System F B E R} (h : Reachable backend s) : Inv s := by
  obtain ⟨n, table, hruns⟩ := h
  exact runs_inv (.init table) hruns

/-- In every state that calls can reach, the areas are stored under their
starts, none is empty and no two share an address; the gap index is a valid
AVL tree and holds exactly the maximal free intervals; and with a backend that
keeps its contract no call panics. -/
theorem areas_and_gaps_agree {s : System F B E R} (h : Reachable backend s) :
    (∀ k a, s.set.areas.get? k = some a → a.start = k ∧ a.start < a.stop) ∧
    (∀ k a k' a' x, s.set.areas.get? k = some a → s.set.areas.get? k' = some a' → k ≠ k' →
      ¬ (InRange a.range x ∧ InRange a'.range x)) ∧
    (∀ range, range ∈ s.set.gaps.intervals ↔ MaximalFree s.set.areas range) ∧
    s.set.gaps.intervals.Pairwise (fun r r' => r.2 < r'.1) ∧ s.set.gaps.root.Valid ∧
    (Honest backend → ∀ (ε α : Type) (x : Act (Call F B E R) ε α), Operation backend x → (x s.enter).1 ≠ .panic) := by
  have hinv := h.inv
  have hord := hinv.set.ordered
  refine ⟨fun k a hget => ⟨hord.key k a hget, hord.nonempty k a hget⟩, ?_, hinv.set.mem_intervals,
    hinv.set.intervals_apart, hinv.set.valid, ?_⟩
  · rintro k a k' a' x hget hget' hne ⟨hx, hx'⟩
    have heq := hord.unique hget hget' hx.1 hx.2 hx'.1 hx'.2
    have hk := hord.key k a hget
    rw [heq, hord.key k' a' hget'] at hk
    exact hne hk.symm
  · intro hon ε α x hop hpanic
    exact (operation_spec hop (c := s.enter) hinv.set hinv.revision).panic_of hpanic hon

theorem Step.run {s : System F B E R} {ε α : Type} {x : Act (Call F B E R) ε α} (hidle : s.committedMetadata = none)
    (hop : Operation backend x) (hret : (x s.enter).1 ≠ .panic) : Step backend s (s.leave (x s.enter).2) :=
  .call hidle hop (Prod.mk.eta).symm hret

namespace FlagTable

def mapped : System Nat Unit Nat (Table Nat) :=
  (System.init fun _ => 0).leave
    (mapWithLimit FlagTable.backend (fun _ => true) ⟨16, 24, 7, (), 1⟩ false 8 (System.init fun _ => 0).enter).2

theorem mapped_reachable : Reachable FlagTable.backend mapped :=
  ⟨1, fun _ => 0, .step (.refl _)
    (.run rfl (.map (fun _ => true) ⟨16, 24, 7, (), 1⟩ false 8 (by decide)) (by decide +kernel))⟩

/-- The area grows to the right, gets other flags in the middle and loses a
part that lies across two areas. -/
def grown : System Nat Unit Nat (Table Nat) :=
  mapped.leave (mapWithLimit FlagTable.backend (fun _ => true) ⟨24, 40, 7, (), 1⟩ false 8 mapped.enter).2

def recoloured : System Nat Unit Nat (Table Nat) :=
  grown.leave (protectWithLimit FlagTable.backend (fun _ => true) 24 8 (fun _ _ => some 5) 8 grown.enter).2

def carved : System Nat Unit Nat (Table Nat) :=
  recoloured.leave (unmapWithLimitInner FlagTable.backend .immediate (fun _ => true) 28 8 8 recoloured.enter).2

theorem carved_reachable : Reachable FlagTable.backend carved := by
  obtain ⟨n, table, hruns⟩ := mapped_reachable
  have hgrown : Step FlagTable.backend mapped grown :=
    .run rfl (.map (fun _ => true) ⟨24, 40, 7, (), 1⟩ false 8 (by decide)) (by decide +kernel)
  have hrecoloured : Step FlagTable.backend grown recoloured :=
    .run rfl (.protect (fun _ => true) 24 8 (fun _ _ => some 5) 8) (by decide +kernel)
  have hcarved : Step FlagTable.backend recoloured carved :=
    .run rfl (.unmap .immediate (fun _ => true) 28 8 8) fun hpanic =>
      absurd (congrArg Outcome.isOk hpanic) (by decide +kernel)
  exact ⟨n + 3, table, .step (.step (.step hruns hgrown) hrecoloured) hcarved⟩

end FlagTable

theorem areas_and_gaps_agree_carved :
    FlagTable.carved.set.areas.entries.map (·.2) =
      [⟨16, 24, 7, (), 1⟩, ⟨24, 28, 5, (), 1⟩, ⟨36, 40, 7, (), 1⟩] ∧
    FlagTable.carved.set.gaps.intervals = [(0, 16), (28, 36), (40, usizeMax)] ∧
    (∀ range, range ∈ FlagTable.carved.set.gaps.intervals ↔ MaximalFree FlagTable.carved.set.areas range) ∧
    ((clearInner FlagTable.backend .immediate fun _ => true) FlagTable.carved.enter).1 ≠ .panic :=
  ⟨by decide +kernel, by decide +kernel, (areas_and_gaps_agree FlagTable.carved_reachable).2.2.1,
    (areas_and_gaps_agree FlagTable.carved_reachable).2.2.2.2.2 FlagTable.honest _ _ _ (.clear _ _)⟩

end TheKernel.MemorySet
