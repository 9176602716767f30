import TheKernel.Mm.UffdRun

namespace TheKernel.Mm

namespace PageRange

theorem ext_of_bounds {a b : PageRange} (hstart : a.start = b.start) (hstop : a.stop = b.stop)
    (hsize : a.pageSize = b.pageSize) : a = b := by
  obtain ⟨⟨start, stop, _, _⟩, size, _, _⟩ := a
  obtain ⟨⟨start', stop', _, _⟩, size', _, _⟩ := b
  simp only [PageRange.start, PageRange.stop] at hstart hstop hsize
  subst hstart hstop hsize
  rfl

def Inside (a b : PageRange) : Prop := b.start ≤ a.start ∧ a.stop ≤ b.stop

instance (a b : PageRange) : Decidable (Inside a b) := inferInstanceAs (Decidable (_ ∧ _))

variable {a b c : PageRange}

theorem Inside.refl (a : PageRange) : Inside a a := ⟨le_rfl, le_rfl⟩

theorem Inside.trans (hab : Inside a b) (hbc : Inside b c) : Inside a c := ⟨hbc.1.trans hab.1, hab.2.trans hbc.2⟩

theorem Inside.has (h : Inside a b) {address : Nat} (ha : a.range.Has address) : b.range.Has address :=
  ⟨h.1.trans ha.1, ha.2.trans_le h.2⟩

theorem Inside.overlap (h : Inside a b) (hac : rangesOverlap a c = true) : rangesOverlap b c = true := by
  obtain ⟨address, ha, hc⟩ := rangesOverlap_iff.mp hac
  exact rangesOverlap_iff.mpr ⟨address, h.has ha, hc⟩

theorem inside_of_contains (h : b.contains a = true) : Inside a b := by
  rw [contains, Bool.and_eq_true] at h
  exact of_decide_eq_true h.2

theorem start_lt_stop (a : PageRange) : a.start < a.stop := a.range.nonempty

theorem start_aligned (a : PageRange) : a.start % a.pageSize.bytes = 0 := of_decide_eq_true a.startAligned

theorem stop_aligned (a : PageRange) : a.stop % a.pageSize.bytes = 0 := by
  have hstart := a.start_aligned
  have hlen : (a.stop - a.start) % a.pageSize.bytes = 0 := of_decide_eq_true a.lengthAligned
  have hlt := a.start_lt_stop
  rw [show a.stop = a.start + (a.stop - a.start) by omega, Nat.add_mod, hstart, hlen]
  simp

theorem withPageSize_of_bounds {start stop : Nat} {size : PageSize} (hlt : start < stop) (hstop : stop ≤ wordMax)
    (hstartAligned : start % size.bytes = 0) (hstopAligned : stop % size.bytes = 0) :
    ∃ pages, withPageSize start (stop - start) size = .ok pages ∧ pages.start = start ∧ pages.stop = stop ∧
      pages.pageSize = size := by
  have hlen : (stop - start) % size.bytes = 0 :=
    Nat.mod_eq_zero_of_dvd (Nat.dvd_sub (Nat.dvd_of_mod_eq_zero hstopAligned) (Nat.dvd_of_mod_eq_zero hstartAligned))
  have haligned : size.isAligned start = true ∧ size.isAligned (stop - start) = true := by
    simp [PageSize.isAligned, hstartAligned, hlen]
  rw [withPageSize, dif_pos haligned, dif_neg (by omega), dif_pos (by omega)]
  refine ⟨_, rfl, rfl, ?_, rfl⟩
  change start + (stop - start) = stop
  omega

theorem hull_spec {size : PageSize} (ha : a.pageSize = size) (hb : b.pageSize = size) :
    ∃ pages, withPageSize (min a.start b.start) (max a.stop b.stop - min a.start b.start) size = .ok pages ∧
      pages.start = min a.start b.start ∧ pages.stop = max a.stop b.stop ∧ pages.pageSize = size := by
  have halt := a.start_lt_stop
  have hblt := b.start_lt_stop
  have hastart := a.start_aligned
  have hbstart := b.start_aligned
  have hastop := a.stop_aligned
  have hbstop := b.stop_aligned
  have habound : a.stop ≤ wordMax := a.range.bounded
  have hbbound : b.stop ≤ wordMax := b.range.bounded
  rw [ha] at hastart hastop
  rw [hb] at hbstart hbstop
  apply withPageSize_of_bounds
  · omega
  · omega
  · rcases min_choice a.start b.start with h | h <;> rw [h] <;> assumption
  · rcases max_choice a.stop b.stop with h | h <;> rw [h] <;> assumption

end PageRange

open PageRange

/-- The intersection has the later start and the earlier end. -/
theorem pageRangeIntersection_eq_some {left right target : PageRange}
    (h : pageRangeIntersection left right = some target) :
    left.pageSize = right.pageSize ∧ target.pageSize = right.pageSize ∧ target.start = max left.start right.start ∧
      target.stop = min left.stop right.stop := by
  rw [pageRangeIntersection] at h
  split at h
  · cases h
  · rename_i hsize
    split at h
    · cases h
    · rename_i hlt
      rw [Outcome.toOption_eq_some] at h
      obtain ⟨hstart, hlen, hpage⟩ := withPageSize_eq_ok h
      have hne := target.start_lt_stop
      rw [not_not] at hsize
      refine ⟨hsize, hpage.trans hsize, hstart, ?_⟩
      simp only [UserRange.len, PageRange.stop, PageRange.start] at *
      omega

theorem has_target {left right target : PageRange} (h : pageRangeIntersection left right = some target)
    {address : Nat} : target.range.Has address ↔ left.range.Has address ∧ right.range.Has address := by
  obtain ⟨-, -, hstart, hstop⟩ := pageRangeIntersection_eq_some h
  simp only [PageRange.start, PageRange.stop] at hstart hstop
  simp only [UserRange.Has, hstart, hstop]
  omega

namespace UffdRegistrationTable

def Current (snapshot : MappingSnapshot) (x : UffdRegistration) : Prop := x.revalidate snapshot = .ok ()

def Owned (intent : UffdRegistrationIntent) (snapshot : MappingSnapshot) (x : UffdRegistration) : Prop :=
  x.addressSpace = snapshot.addressSpace ∧ x.handler = intent.handler ∧ x.mode = intent.mode

instance (intent : UffdRegistrationIntent) (snapshot : MappingSnapshot) (x : UffdRegistration) :
    Decidable (Owned intent snapshot x) := inferInstanceAs (Decidable (_ ∧ _))

def folds (intent : UffdRegistrationIntent) (snapshot : MappingSnapshot) (desired : PageRange)
    (x : UffdRegistration) : Bool :=
  Owned intent snapshot x ∧ rangesTouch x.range desired = true ∧ rangesOverlap x.range snapshot.range = true

/-- The registrations a mapping is asked about: those in the target, and those
of the handler in the mapping, which may join it. -/
def Consulted (intent : UffdRegistrationIntent) (snapshot : MappingSnapshot) (target : PageRange)
    (x : UffdRegistration) : Prop :=
  x.addressSpace = snapshot.addressSpace ∧ (rangesOverlap x.range target = true ∨
    x.handler = intent.handler ∧ rangesOverlap x.range snapshot.range = true)

/-- An error of such a registration that is not current for the mapping. -/
def Stale (intent : UffdRegistrationIntent) (snapshot : MappingSnapshot) (target : PageRange)
    (registrations : List UffdRegistration) (error : MmError) : Prop :=
  ∃ x ∈ registrations, Consulted intent snapshot target x ∧ x.revalidate snapshot = .err error

variable {intent : UffdRegistrationIntent} {snapshot : MappingSnapshot} {registrations : List UffdRegistration}
  {x : UffdRegistration} {target desired : PageRange}

theorem revalidate_ne_panic (x : UffdRegistration) (snapshot : MappingSnapshot) : x.revalidate snapshot ≠ .panic := by
  iterate 3 apply Outcome.guard_ne_panic
  simp

theorem current_iff : Current snapshot x ↔ x.addressSpace = snapshot.addressSpace ∧ x.mapping = snapshot.mapping ∧
    x.generation = snapshot.generation ∧ snapshot.kind = .anonymousPrivate ∧ snapshot.range.contains x.range =
      true := by
  rw [Current, UffdRegistration.revalidate, Outcome.guard_eq_ok, Outcome.guard_eq_ok, Outcome.guard_eq_ok]
  simp only [not_or, not_not, and_true]
  tauto

theorem Current.inside (h : Current snapshot x) : Inside x.range snapshot.range :=
  inside_of_contains (current_iff.mp h).2.2.2.2

theorem revalidate_yields (hx : x ∈ registrations) (hconsulted : Consulted intent snapshot target x) :
    (x.revalidate snapshot).Yields (Stale intent snapshot target registrations) (fun _ => Current snapshot x) := by
  cases h : x.revalidate snapshot with
  | ok _ => exact h
  | err error => exact ⟨x, hx, hconsulted, h⟩
  | panic => exact absurd h (revalidate_ne_panic x snapshot)

theorem registrationFoldsInto_eq (intent : UffdRegistrationIntent) (snapshot : MappingSnapshot) (desired : PageRange)
    (x : UffdRegistration) : registrationFoldsInto intent snapshot desired x =
      if folds intent snapshot desired x then (x.revalidate snapshot >>= fun _ => .ok true) else .ok false := by
  by_cases h : folds intent snapshot desired x = true
  · obtain ⟨⟨hspace, hhandler, hmode⟩, htouch, hoverlap⟩ := of_decide_eq_true h
    rw [if_pos h, registrationFoldsInto, if_neg (by tauto)]
  · rw [if_neg h, registrationFoldsInto, if_pos]
    by_contra hnot
    apply h
    refine decide_eq_true (p := _ ∧ _) ⟨⟨?_, ?_, ?_⟩, ?_, ?_⟩ <;> tauto

theorem registrationFoldsInto_yields (hx : x ∈ registrations) :
    (registrationFoldsInto intent snapshot desired x).Yields (Stale intent snapshot target registrations)
      (fun found => found = folds intent snapshot desired x ∧ (found = true → Current snapshot x)) := by
  rw [registrationFoldsInto_eq]
  split
  · rename_i h
    obtain ⟨howned, -, hoverlap⟩ := of_decide_eq_true h
    refine (revalidate_yields hx ⟨howned.1, .inr ⟨howned.2.1, hoverlap⟩⟩).bind fun _ hcurrent => ?_
    exact ⟨h.symm, fun _ => hcurrent⟩
  · rename_i h
    exact ⟨(Bool.eq_false_iff.mpr h).symm, nofun⟩

theorem rangesTouch_iff {a b : PageRange} :
    rangesTouch a b = true ↔ a.pageSize = b.pageSize ∧ a.start ≤ b.stop ∧ b.start ≤ a.stop := decide_eq_true_iff

theorem takeIn_yields (hx : x ∈ registrations) (hsize : desired.pageSize = snapshot.range.pageSize) :
    (takeIn intent snapshot desired x).Yields (Stale intent snapshot target registrations) (fun after =>
      (folds intent snapshot desired x = false ∧ after = desired) ∨
        (folds intent snapshot desired x = true ∧ Current snapshot x ∧ after.start = min desired.start x.range.start ∧
          after.stop = max desired.stop x.range.stop ∧ after.pageSize = snapshot.range.pageSize)) := by
  refine (registrationFoldsInto_yields hx).bind ?_
  rintro found ⟨hfolds, hcurrent⟩
  cases found with
  | false => exact .inl ⟨hfolds.symm, rfl⟩
  | true =>
      obtain ⟨-, htouch, -⟩ := of_decide_eq_true hfolds.symm
      obtain ⟨after, hafter, hbounds⟩ := hull_spec hsize ((rangesTouch_iff.mp htouch).1.trans hsize)
      exact .of_eq hafter (.inr ⟨hfolds.symm, hcurrent rfl, hbounds⟩)

/-- The range is the target together with registrations of its handler. -/
structure Grown (intent : UffdRegistrationIntent) (snapshot : MappingSnapshot) (registrations : List UffdRegistration)
    (target desired : PageRange) : Prop where
  size : desired.pageSize = snapshot.range.pageSize
  reaches : Inside target desired
  within : Inside desired snapshot.range
  covered : ∀ address, desired.range.Has address → target.range.Has address ∨
    ∃ x ∈ registrations, Owned intent snapshot x ∧ Current snapshot x ∧ Inside x.range desired ∧
      x.range.range.Has address

/-- No registration of the handler touches the range and is not a part of it. -/
def Fixed (intent : UffdRegistrationIntent) (snapshot : MappingSnapshot) (registrations : List UffdRegistration)
    (desired : PageRange) : Prop :=
  ∀ x ∈ registrations, folds intent snapshot desired x = true → Current snapshot x ∧ Inside x.range desired

theorem Grown.start (hsize : target.pageSize = snapshot.range.pageSize) (hwithin : Inside target snapshot.range) :
    Grown intent snapshot registrations target target :=
  ⟨hsize, .refl _, hwithin, fun _ h => .inl h⟩

theorem Grown.takeIn {after : PageRange} (h : Grown intent snapshot registrations target desired)
    (hx : x ∈ registrations) (hfolds : folds intent snapshot desired x = true) (hcurrent : Current snapshot x)
    (hstart : after.start = min desired.start x.range.start) (hstop : after.stop = max desired.stop x.range.stop)
    (hsize : after.pageSize = snapshot.range.pageSize) : Grown intent snapshot registrations target after := by
  obtain ⟨howned, htouch, -⟩ := of_decide_eq_true hfolds
  obtain ⟨-, htouch₁, htouch₂⟩ := rangesTouch_iff.mp htouch
  have hinside : Inside desired after := ⟨by omega, by omega⟩
  have hxinside : Inside x.range after := ⟨by omega, by omega⟩
  have hxsnapshot := hcurrent.inside
  have hwithin := h.within
  refine ⟨hsize, h.reaches.trans hinside, ⟨?_, ?_⟩, ?_⟩
  · have := hxsnapshot.1
    have := hwithin.1
    omega
  · have := hxsnapshot.2
    have := hwithin.2
    omega
  · intro address haddress
    have hpart : desired.range.Has address ∨ x.range.range.Has address := by
      simp only [UserRange.Has, PageRange.start, PageRange.stop] at *
      omega
    rcases hpart with hpart | hpart
    · rcases h.covered address hpart with htarget | ⟨y, hy, hyowned, hycurrent, hyinside, hyhas⟩
      · exact .inl htarget
      · exact .inr ⟨y, hy, hyowned, hycurrent, hyinside.trans hinside, hyhas⟩
    · exact .inr ⟨x, hx, howned, hcurrent, hxinside, hpart⟩

/-- A pass lets the range grow; it stays as it is only when nothing touches
it, and else it takes in a registration that was not inside. -/
structure Passed (intent : UffdRegistrationIntent) (snapshot : MappingSnapshot)
    (all registrations : List UffdRegistration) (target before after : PageRange) : Prop where
  grown : Grown intent snapshot all target after
  inside : Inside before after
  fixed : after = before → Fixed intent snapshot registrations before
  progress : after ≠ before → ∃ x ∈ registrations, Inside x.range after ∧ ¬ Inside x.range before

theorem Passed.skip {all : List UffdRegistration} {before after : PageRange}
    (h : Passed intent snapshot all registrations target before after) (hno : folds intent snapshot before x = false) :
    Passed intent snapshot all (x :: registrations) target before after := by
  refine ⟨h.grown, h.inside, ?_, ?_⟩
  · intro heq y hy hyfolds
    rcases List.mem_cons.mp hy with rfl | hy
    · rw [hno] at hyfolds
      cases hyfolds
    · exact h.fixed heq y hy hyfolds
  · intro hne
    obtain ⟨y, hy, hyinside⟩ := h.progress hne
    exact ⟨y, List.mem_cons_of_mem x hy, hyinside⟩

theorem Passed.takeIn {all : List UffdRegistration} {before middle after : PageRange}
    (h : Passed intent snapshot all registrations target middle after) (hcurrent : Current snapshot x)
    (hstart : middle.start = min before.start x.range.start) (hstop : middle.stop = max before.stop x.range.stop)
    (hsize : middle.pageSize = before.pageSize) :
    Passed intent snapshot all (x :: registrations) target before after := by
  have hbefore : Inside before middle := ⟨by omega, by omega⟩
  have hx : Inside x.range middle := ⟨by omega, by omega⟩
  refine ⟨h.grown, hbefore.trans h.inside, ?_, ?_⟩
  · rintro rfl y hy hyfolds
    have hmiddle : middle = after := by
      have h₁ := h.inside.1
      have h₂ := h.inside.2
      have h₃ := hbefore.1
      have h₄ := hbefore.2
      exact ext_of_bounds (by omega) (by omega) hsize
    subst hmiddle
    rcases List.mem_cons.mp hy with rfl | hy
    · exact ⟨hcurrent, hx⟩
    · exact h.fixed rfl y hy hyfolds
  · intro hne
    by_cases hxbefore : Inside x.range before
    · have hmiddle : middle = before := by
        have h₁ := hxbefore.1
        have h₂ := hxbefore.2
        exact ext_of_bounds (by omega) (by omega) hsize
      subst hmiddle
      obtain ⟨y, hy, hyinside⟩ := h.progress hne
      exact ⟨y, List.mem_cons_of_mem x hy, hyinside⟩
    · exact ⟨x, by simp, hx.trans h.inside, hxbefore⟩

theorem foldPass_yields {all : List UffdRegistration} {before : PageRange} (hsub : registrations ⊆ all)
    (h : Grown intent snapshot all target before) :
    (foldPass intent snapshot registrations before).Yields (Stale intent snapshot target all)
      (Passed intent snapshot all registrations target before) := by
  induction registrations generalizing before with
  | nil => exact ⟨h, .refl _, fun _ => by simp [Fixed], fun hne => absurd rfl hne⟩
  | cons x registrations ih =>
      have hx : x ∈ all := hsub (by simp)
      have hrest : registrations ⊆ all := fun y hy => hsub (List.mem_cons_of_mem x hy)
      rw [foldPass, List.foldlM_cons]
      refine (takeIn_yields hx h.size).bind ?_
      rintro middle (⟨hno, rfl⟩ | ⟨hfolds, hcurrent, hstart, hstop, hsize⟩)
      · exact (ih hrest h).imp fun after hpass => hpass.skip hno
      · have hgrown := h.takeIn hx hfolds hcurrent hstart hstop hsize
        exact (ih hrest hgrown).imp fun after hpass => hpass.takeIn hcurrent hstart hstop (hsize.trans h.size.symm)

theorem countP_lt {α : Type} {p q : α → Bool} {xs : List α} (hpq : ∀ x ∈ xs, p x = true → q x = true)
    (h : ∃ x ∈ xs, q x = true ∧ p x = false) : xs.countP p < xs.countP q := by
  induction xs with
  | nil =>
      obtain ⟨x, hx, -⟩ := h
      cases hx
  | cons y xs ih =>
      have hle := List.countP_mono_left (l := xs) fun x hx => hpq x (List.mem_cons_of_mem y hx)
      rw [List.countP_cons, List.countP_cons]
      obtain ⟨x, hx, hq, hp⟩ := h
      rcases List.mem_cons.mp hx with rfl | hx
      · rw [if_pos hq, if_neg (by rw [hp]; exact Bool.false_ne_true)]
        omega
      · have hlt := ih (fun z hz => hpq z (List.mem_cons_of_mem y hz)) ⟨x, hx, hq, hp⟩
        by_cases hy : p y = true
        · rw [if_pos hy, if_pos (hpq y (by simp) hy)]
          omega
        · rw [if_neg hy]
          omega

/-- The loop settles: each pass that changes the range takes in one more
registration. -/
theorem foldLoop_yields {passes : Nat} {before : PageRange} (h : Grown intent snapshot registrations target before)
    (hpasses : registrations.length < passes + registrations.countP (fun x => Inside x.range before)) :
    (foldLoop intent snapshot registrations passes before).Yields (Stale intent snapshot target registrations)
      (fun desired => Grown intent snapshot registrations target desired ∧
        Fixed intent snapshot registrations desired) := by
  induction passes generalizing before with
  | zero =>
      have hle := List.countP_le_length (l := registrations) (p := fun x => Inside x.range before)
      omega
  | succ passes ih =>
      refine (foldPass_yields (List.Subset.refl _) h).bind fun desired hpass => ?_
      split
      · rename_i heq
        exact ⟨hpass.grown, heq ▸ hpass.fixed heq⟩
      · rename_i hne
        apply ih hpass.grown
        obtain ⟨x, hx, hafter, hbefore⟩ := hpass.progress hne
        have hlt : registrations.countP (fun x => Inside x.range before) <
            registrations.countP (fun x => Inside x.range desired) := by
          apply countP_lt
          · intro y _ hy
            exact decide_eq_true ((of_decide_eq_true hy).trans hpass.inside)
          · exact ⟨x, hx, decide_eq_true hafter, decide_eq_false hbefore⟩
        omega

def Foreign (intent : UffdRegistrationIntent) (snapshot : MappingSnapshot) (target : PageRange)
    (registrations : List UffdRegistration) : Prop :=
  ∃ x ∈ registrations, x.addressSpace = snapshot.addressSpace ∧ rangesOverlap x.range target = true ∧
    x.handler ≠ intent.handler

def Refused (intent : UffdRegistrationIntent) (snapshot : MappingSnapshot) (target : PageRange)
    (registrations : List UffdRegistration) (error : MmError) : Prop :=
  Stale intent snapshot target registrations error ∨ error = .busy ∧ Foreign intent snapshot target registrations

theorem checkTarget_yields {all : List UffdRegistration} (hsub : registrations ⊆ all) :
    (checkTarget intent snapshot target registrations).Yields (Refused intent snapshot target all)
      (fun _ => ∀ x ∈ registrations, x.addressSpace = snapshot.addressSpace → rangesOverlap x.range target = true →
        x.handler = intent.handler ∧ Current snapshot x) := by
  induction registrations with
  | nil => exact nofun
  | cons x registrations ih =>
      have hx : x ∈ all := hsub (by simp)
      have hrest := ih fun y hy => hsub (List.mem_cons_of_mem x hy)
      rw [checkTarget]
      split
      · rename_i htarget
        refine ((revalidate_yields hx ⟨htarget.1, .inl htarget.2⟩).mono (fun _ => .inl) fun _ =>
          id).bind fun _ hcurrent => ?_
        split
        · rename_i hforeign
          exact .inr ⟨rfl, x, hx, htarget.1, htarget.2, hforeign⟩
        · rename_i hown
          refine hrest.imp fun _ hothers y hy => ?_
          rcases List.mem_cons.mp hy with rfl | hy
          · exact fun _ _ => ⟨not_not.mp hown, hcurrent⟩
          · exact hothers y hy
      · rename_i htarget
        refine hrest.imp fun _ hothers y hy => ?_
        rcases List.mem_cons.mp hy with rfl | hy
        · exact fun hspace hoverlap => absurd ⟨hspace, hoverlap⟩ htarget
        · exact hothers y hy

theorem foldsAmong_yields {all : List UffdRegistration} (hsub : registrations ⊆ all) :
    (foldsAmong intent snapshot desired registrations).Yields (Stale intent snapshot target all)
      (fun found => found = registrations.filter (folds intent snapshot desired)) := by
  induction registrations with
  | nil => exact rfl
  | cons x registrations ih =>
      rw [foldsAmong]
      refine (registrationFoldsInto_yields (hsub (by simp))).bind ?_
      rintro found ⟨hfolds, -⟩
      refine (ih fun y hy => hsub (List.mem_cons_of_mem x hy)).bind ?_
      rintro others rfl
      rw [hfolds, List.filter_cons]
      exact rfl

structure Canonical (table : UffdRegistrationTable) (intent : UffdRegistrationIntent) (snapshot : MappingSnapshot)
    (target : PageRange) (delta : CanonicalRegistrationDelta) : Prop where
  own : ∀ x ∈ table.iter, x.addressSpace = snapshot.addressSpace → rangesOverlap x.range target = true →
    x.handler = intent.handler ∧ Current snapshot x
  request : delta.desired.handler = intent.handler ∧ delta.desired.addressSpace = snapshot.addressSpace ∧
    delta.desired.mapping = snapshot.mapping ∧ delta.desired.generation = snapshot.generation
  grown : Grown intent snapshot table.iter target delta.desired.range
  fixed : Fixed intent snapshot table.iter delta.desired.range
  noOp : delta.noOp = true ↔ ∃ x, table.iter.filter (folds intent snapshot delta.desired.range) = [x] ∧
    x.request = delta.desired

theorem UffdRegistrationRequest.new_eq {snapshot : MappingSnapshot} {range : PageRange} (handler : FaultHandlerId)
    (hkind : snapshot.kind = .anonymousPrivate) (hcontains : snapshot.range.contains range = true)
    {mode : UffdRegisterMode}
    (hmode : mode = .missing) : UffdRegistrationRequest.new handler snapshot range mode =
      .ok ⟨handler, snapshot.addressSpace, snapshot.mapping, snapshot.generation, range, mode, hmode⟩ := by
  rw [UffdRegistrationRequest.new, if_neg (not_not.mpr hkind), if_neg (not_not.mpr hcontains), dif_pos hmode]

theorem contains_of_inside {a b : PageRange} (hsize : a.pageSize = b.pageSize) (h : Inside a b) :
    b.contains a = true := by
  rw [contains, Bool.and_eq_true]
  exact ⟨decide_eq_true (by rw [hsize]), decide_eq_true h⟩

theorem canonicalRegisterDelta_yields (table : UffdRegistrationTable) (hkind : snapshot.kind = .anonymousPrivate)
    (htarget : pageRangeIntersection intent.range snapshot.range = some target) :
    (table.canonicalRegisterDelta intent snapshot).Yields (Refused intent snapshot target table.iter)
      (Canonical table intent snapshot target) := by
  obtain ⟨-, hsize, hstart, hstop⟩ := pageRangeIntersection_eq_some htarget
  have hwithin : Inside target snapshot.range := ⟨by omega, by omega⟩
  rw [canonicalRegisterDelta, htarget]
  refine (checkTarget_yields (List.Subset.refl _)).bind fun _ hown => ?_
  have hloop : (foldLoop intent snapshot table.iter (table.len + 1) target).Yields
      (Stale intent snapshot target table.iter) fun desired =>
      Grown intent snapshot table.iter target desired ∧ Fixed intent snapshot table.iter desired :=
    foldLoop_yields (Grown.start hsize hwithin) (by rw [len]; omega)
  refine (hloop.mono (fun _ => .inl) fun _ => id).bind ?_
  rintro range ⟨hgrown, hfixed⟩
  rw [UffdRegistrationRequest.new_eq intent.handler hkind (contains_of_inside hgrown.size hgrown.within)
    intent.supported, Outcome.ok_bind]
  refine ((foldsAmong_yields (List.Subset.refl _)).mono (fun _ => .inl) fun _ => id).bind ?_
  rintro connected rfl
  refine ⟨hown, ⟨rfl, rfl, rfl, rfl⟩, hgrown, hfixed, ?_⟩
  simp only [Bool.and_eq_true, decide_eq_true_eq, List.any_eq_true, List.length_eq_one_iff]
  constructor
  · rintro ⟨⟨x, hx⟩, y, hy, hrequest⟩
    rw [hx, List.mem_singleton] at hy
    subst hy
    exact ⟨y, hx, hrequest⟩
  · rintro ⟨x, hx, hrequest⟩
    exact ⟨⟨x, hx⟩, x, by rw [hx]; simp, hrequest⟩

end UffdRegistrationTable

end TheKernel.Mm
