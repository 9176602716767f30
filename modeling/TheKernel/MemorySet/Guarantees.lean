import TheKernel.MemorySet.Set
import TheKernel.MemorySet.Run

namespace TheKernel.MemorySet

open Act

section

variable {F B E R ε : Type}

def Recorded (c : Call F B E R) : Prop := c.set.areas.size ≤ c.peak

def Bounded (maxAreas : Nat) (d : Call F B E R) : Prop := d.peak ≤ maxAreas ∧ d.set.areas.size ≤ maxAreas

theorem bounded_of_ensures {α : Type} {x : Act (Call F B E R) ε α} {maxAreas : Nat} {c : Call F B E R} (hc : Recorded c)
    (hkeep : Keeps Recorded x) (h : Ensures x c (fun _ d => d.peak ≤ maxAreas) (fun _ d => d.peak ≤ maxAreas) False) :
    Bounded maxAreas (x c).2 := by
  have hpeak := h.final
  exact ⟨hpeak, (hkeep c hc).trans hpeak⟩

variable {backend : MappingBackend F B E R} {mode : UnmapMode} {memory : Nat → Bool} {maxAreas : Nat}

theorem keeps_modify {f : Call F B E R → Call F B E R} (hareas : ∀ c, (f c).set.areas = c.set.areas)
    (hpeak : ∀ c, (f c).peak = c.peak) : Keeps Recorded (modify f : Act (Call F B E R) ε Unit) := by
  intro c hc
  rw [modify_apply, Recorded, hareas, hpeak]
  exact hc

theorem keeps_putAreas (areas : Areas F B) : Keeps Recorded (putAreas areas : Act (Call F B E R) ε Unit) :=
  fun c _ => Nat.le_max_right c.peak areas.size

theorem keeps_areaAt (start : Nat) : Keeps Recorded (areaAt start : Act (Call F B E R) ε (Area F B)) :=
  .get_bind fun _ => keeps_of_readOnly (readOnly_expect _)

theorem keeps_putArea (start : Nat) (area : Area F B) :
    Keeps Recorded (putArea start area : Act (Call F B E R) ε Unit) :=
  .get_bind fun _ => keeps_putAreas _

theorem keeps_insertArea (area : Area F B) : Keeps Recorded (insertArea area : Act (Call F B E R) ε Unit) :=
  .get_bind fun _ => (keeps_of_readOnly (readOnly_expect _)).bind fun _ => keeps_putArea _ _

theorem keeps_removeArea (start : Nat) : Keeps Recorded (removeArea start : Act (Call F B E R) ε (Area F B)) :=
  .get_bind fun _ => (keeps_areaAt start).bind fun _ => (keeps_putAreas _).bind fun _ =>
    keeps_of_readOnly (readOnly_pure _)

theorem keeps_updateArea (start : Nat) (f : Area F B → Area F B) :
    Keeps Recorded (updateArea start f : Act (Call F B E R) ε Unit) :=
  (keeps_areaAt start).bind fun _ => keeps_putArea _ _

theorem keeps_releaseGap (range : Range) : Keeps Recorded (releaseGap range : Act (Call F B E R) ε Unit) :=
  keeps_modify (fun _ => rfl) fun _ => rfl

theorem keeps_occupyGap (range : Range) : Keeps Recorded (occupyGap range : Act (Call F B E R) ε Unit) :=
  .get_bind fun _ => (keeps_of_readOnly (readOnly_lift _)).bind fun _ => keeps_modify (fun _ => rfl) fun _ => rfl

theorem keeps_bumpRevision : Keeps Recorded (bumpRevision : Act (Call F B E R) ε Unit) :=
  keeps_modify (fun _ => rfl) fun _ => rfl

theorem keeps_modeUnmap (owner : B) (start size : Nat) :
    Keeps Recorded (modeUnmap backend mode owner start size : Act (Call F B E R) ε Unit) := by
  intro c hc
  rw [modeUnmap.eq_def]
  cases mode with
  | immediate => exact hc
  | deferred =>
      dsimp only
      rcases backend.unmapDeferred owner start size c.table with ⟨_ | token, table⟩
      · exact hc
      · exact hc

theorem keeps_retireArea (area : Area F B) : Keeps Recorded (retireArea mode area : Act (Call F B E R) ε Unit) := by
  cases mode with
  | immediate => exact keeps_of_readOnly (readOnly_pure _)
  | deferred => exact keeps_modify (fun _ => rfl) fun _ => rfl

theorem keeps_insertIf (wanted : Bool) (area : Area F B) :
    Keeps Recorded (insertIf wanted area : Act (Call F B E R) ε Unit) :=
  keeps_ite (keeps_insertArea area) (keeps_of_readOnly (readOnly_pure _))

theorem keeps_splitArea (areaStart start stop oldStop : Nat) (middleFlags rightFlags : F) (lineage : Nat) :
    Keeps Recorded (splitArea areaStart start stop oldStop middleFlags rightFlags lineage : Act
      (Call F B E R) ε Unit) :=
  (keeps_areaAt _).bind fun _ => (keeps_updateArea _ _).bind fun _ => (keeps_insertIf _ _).bind fun _ =>
    keeps_insertIf _ _

theorem keeps_protectPages (owner : B) (start size : Nat) (newFlags : F) :
    Keeps Recorded (protectPages backend owner start size newFlags : Act (Call F B E R) ε Unit) := fun _ hc => hc

theorem keeps_mapArea (area : Area F B) :
    Keeps Recorded (mapArea backend area : Act (Call F B E R) MappingError Unit) := fun _ hc => hc

theorem keeps_tryReserve (site count : Nat) :
    Keeps Recorded (tryReserve memory site count : Act (Call F B E R) MappingError Unit) :=
  keeps_ite (keeps_of_readOnly (readOnly_pure _)) (keeps_of_readOnly (readOnly_fail _))

theorem keeps_modeReserve (site unmaps completeAreas : Nat) :
    Keeps Recorded (modeReserve mode memory site unmaps completeAreas : Act (Call F B E R) MappingError Unit) := by
  cases mode with
  | immediate => exact keeps_of_readOnly (readOnly_pure _)
  | deferred => exact (keeps_tryReserve _ _).bind fun _ => keeps_tryReserve _ _

theorem keeps_checkAreaLimit (count : Nat) :
    Keeps Recorded (checkAreaLimit count maxAreas : Act (Call F B E R) MappingError Unit) :=
  keeps_ite (keeps_of_readOnly (readOnly_fail _)) (keeps_of_readOnly (readOnly_pure _))

theorem keeps_preflightUnmap (range : Range) : Keeps Recorded (preflightUnmap backend range) :=
  .get_bind fun _ => keeps_ite (keeps_of_readOnly (readOnly_pure _)) (keeps_of_readOnly (readOnly_fail _))

theorem keeps_admitUnmap (range : Range) : Keeps Recorded (admitUnmap backend mode memory range maxAreas) :=
  .get_bind fun _ => (keeps_of_readOnly (readOnly_lift _)).bind fun _ => (keeps_checkAreaLimit _).bind fun _ =>
    (keeps_tryReserve _ _).bind fun _ => (keeps_modeReserve _ _ _).bind fun _ => keeps_preflightUnmap range

theorem keeps_shrinkBefore (range : Range) :
    Keeps Recorded (shrinkBefore backend mode range : Act (Call F B E R) ε Unit) := by
  refine .get_bind fun c => ?_
  cases c.set.areas.lastBelow range.1 with
  | none => exact keeps_of_readOnly (readOnly_pure _)
  | some e =>
      refine keeps_ite (keeps_ite ?_ ?_) (keeps_of_readOnly (readOnly_pure _))
      · exact (keeps_modeUnmap _ _ _).bind fun _ => keeps_putArea _ _
      · exact (keeps_modeUnmap _ _ _).bind fun _ => (keeps_putArea _ _).bind fun _ => keeps_putArea _ _

theorem keeps_shrinkAfter (range : Range) :
    Keeps Recorded (shrinkAfter backend mode range : Act (Call F B E R) ε Unit) := by
  refine .get_bind fun c => ?_
  cases c.set.areas.firstFrom range.1 with
  | none => exact keeps_of_readOnly (readOnly_pure _)
  | some e =>
      refine keeps_ite ?_ (keeps_of_readOnly (readOnly_pure _))
      exact (keeps_modeUnmap _ _ _).bind fun _ => (keeps_removeArea _).bind fun _ => keeps_putArea _ _

theorem keeps_unmapWhole (start : Nat) : Keeps Recorded (unmapWhole backend mode start : Act (Call F B E R) ε Unit) :=
  (keeps_areaAt _).bind fun _ => (keeps_modeUnmap _ _ _).bind fun _ => (keeps_removeArea _).bind fun _ =>
    keeps_retireArea _

theorem keeps_modeFinish : Keeps Recorded (modeFinish : Act (Call F B E R) ε (UnmapRetirement F B R)) :=
  .get_bind fun _ => keeps_of_readOnly (readOnly_pure _)

theorem keeps_absorbNext (start next : Nat) : Keeps Recorded (absorbNext start next : Act (Call F B E R) ε Unit) :=
  (keeps_removeArea _).bind fun _ => keeps_updateArea _ _

theorem keeps_admitProtect (actions : List (ProtectAction F)) :
    Keeps Recorded (admitProtect backend memory actions maxAreas) := by
  refine (keeps_each (fun _ => keeps_tryReserve _ _) _).bind fun _ => .get_bind fun _ =>
    (keeps_of_readOnly (readOnly_lift _)).bind
    fun _ => (keeps_checkAreaLimit _).bind fun _ => keeps_each (fun action => ?_) _
  exact (keeps_areaAt _).bind fun _ => .get_bind fun _ =>
    keeps_ite (keeps_of_readOnly (readOnly_pure _)) (keeps_of_readOnly (readOnly_fail _))

variable [DecidableEq F]

theorem keeps_mergePrevInto (current : Nat) :
    Keeps Recorded (mergePrevInto backend current : Act (Call F B E R) ε Nat) := by
  refine .get_bind fun c => ?_
  cases c.set.areas.lastBelow current with
  | none => exact keeps_of_readOnly (readOnly_pure _)
  | some e =>
      refine (keeps_areaAt _).bind fun _ => (keeps_areaAt _).bind fun _ =>
        keeps_ite ?_ (keeps_of_readOnly (readOnly_pure _))
      exact (keeps_absorbNext _ _).bind fun _ => keeps_of_readOnly (readOnly_pure _)

theorem keeps_mergeNextInto (current : Nat) :
    Keeps Recorded (mergeNextInto backend current : Act (Call F B E R) ε Bool) := by
  refine .get_bind fun c => ?_
  cases c.set.areas.firstAfter current with
  | none => exact keeps_of_readOnly (readOnly_pure _)
  | some e =>
      refine (keeps_areaAt _).bind fun _ => (keeps_areaAt _).bind fun _ =>
        keeps_ite ?_ (keeps_of_readOnly (readOnly_pure _))
      exact (keeps_absorbNext _ _).bind fun _ => keeps_of_readOnly (readOnly_pure _)

theorem keeps_mergePrevLoop (fuel : Nat) :
    ∀ current, Keeps Recorded (mergePrevLoop backend fuel current : Act (Call F B E R) ε Nat) := by
  induction fuel with
  | zero => exact fun _ => keeps_of_readOnly (readOnly_pure _)
  | succ fuel ih =>
      exact fun current => (keeps_mergePrevInto current).bind fun merged =>
        keeps_ite (keeps_of_readOnly (readOnly_pure _)) (ih merged)

theorem keeps_mergeNextLoop (fuel : Nat) :
    ∀ current, Keeps Recorded (mergeNextLoop backend fuel current : Act (Call F B E R) ε Unit) := by
  induction fuel with
  | zero => exact fun _ => keeps_of_readOnly (readOnly_pure _)
  | succ fuel ih =>
      exact fun current => (keeps_mergeNextInto current).bind fun _ =>
        keeps_ite (ih current) (keeps_of_readOnly (readOnly_pure _))

theorem keeps_mergeAdjacentAt (anchor : Nat) :
    Keeps Recorded (mergeAdjacentAt backend anchor : Act (Call F B E R) ε Unit) := by
  refine .get_bind fun c => ?_
  cases mergeAnchor c.set.areas anchor with
  | none => exact keeps_of_readOnly (readOnly_pure _)
  | some start => exact (keeps_mergePrevLoop _ _).bind fun _ => keeps_mergeNextLoop _ _

theorem keeps_commitUnmap (range : Range) (covered : List Nat) :
    Keeps Recorded (commitUnmap backend mode range covered : Act (Call F B E R) ε Unit) :=
  (keeps_each keeps_unmapWhole _).bind fun _ => (keeps_shrinkBefore _).bind fun _ => (keeps_shrinkAfter _).bind fun _ =>
    (keeps_mergeAdjacentAt _).bind fun _ => (keeps_mergeAdjacentAt _).bind fun _ => (keeps_releaseGap _).bind fun _ =>
      keeps_bumpRevision

theorem keeps_unmapWithLimitInner (start size : Nat) :
    Keeps Recorded (unmapWithLimitInner backend mode memory start size maxAreas) :=
  (keeps_of_readOnly (readOnly_lift _)).bind fun _ => keeps_ite keeps_modeFinish
    ((keeps_admitUnmap _).bind fun _ => .get_bind fun _ => (keeps_commitUnmap _ _).bind fun _ => keeps_modeFinish)

theorem keeps_makeRoom (range : Range) (unmapOverlap : Bool) :
    Keeps Recorded (makeRoom backend memory range unmapOverlap maxAreas) := by
  refine .get_bind fun c => keeps_ite (keeps_ite ?_ (keeps_of_readOnly (readOnly_fail _))) ?_
  · exact (keeps_of_readOnly (readOnly_lift _)).bind fun _ => (keeps_of_readOnly (readOnly_lift _)).bind fun _ =>
      (keeps_checkAreaLimit _).bind fun _ => (keeps_unmapWithLimitInner _ _).bind fun _ =>
        keeps_of_readOnly (readOnly_pure _)
  · exact (keeps_of_readOnly (readOnly_lift _)).bind fun _ => keeps_checkAreaLimit _

theorem keeps_mapWithLimit (area : Area F B) (unmapOverlap : Bool) :
    Keeps Recorded (mapWithLimit backend memory area unmapOverlap maxAreas) :=
  keeps_ite (keeps_of_readOnly (readOnly_fail _)) ((keeps_makeRoom _ _).bind fun _ => (keeps_mapArea _).bind fun _ =>
    (keeps_occupyGap _).bind fun _ => (keeps_insertArea _).bind fun _ => (keeps_mergeAdjacentAt _).bind fun _ =>
      keeps_bumpRevision)

theorem keeps_commitProtect (actions : List (ProtectAction F)) :
    Keeps Recorded (commitProtect backend actions : Act (Call F B E R) ε Unit) := by
  refine (keeps_each (fun _ => keeps_splitArea _ _ _ _ _ _ _) _).bind fun _ =>
    (keeps_each (fun _ => ?_) _).bind fun _ =>
    (keeps_each (fun _ => keeps_updateArea _ _) _).bind fun _ => (keeps_each (fun _ => ?_) _).bind fun _ =>
      keeps_bumpRevision
  · exact (keeps_areaAt _).bind fun _ => keeps_protectPages _ _ _ _
  · exact (keeps_mergeAdjacentAt _).bind fun _ => keeps_mergeAdjacentAt _

theorem keeps_protectWithLimit (start size : Nat) (updateFlags : Nat → F → Option F) :
    Keeps Recorded (protectWithLimit backend memory start size updateFlags maxAreas) :=
  (keeps_of_readOnly (readOnly_lift _)).bind fun _ => keeps_ite (keeps_of_readOnly (readOnly_pure _))
    (.get_bind fun _ => (keeps_admitProtect _).bind fun _ => keeps_commitProtect _)

end

variable {F B E R L : Type} [DecidableEq F] {backend : MappingBackend F B E R} {ℓ : B → Nat → L} {s : System F B E R}

/-- What the calls do to the contents of a reachable set, address by address:
a map shows the new area and leaves the rest, an unmap clears its range and
leaves the rest, a protect changes the flags of its range as `update_flags`
answered; joining and splitting areas show nothing. -/
theorem contents_exact (h : Reachable backend s) (hloc : Interchangeable backend ℓ) :
    (∀ memory area unmapOverlap maxAreas d, area.stop ≤ usizeMax →
      mapWithLimit backend memory area unmapOverlap maxAreas s.enter = (.ok (), d) →
      (∀ x, view ℓ d.set.areas x =
        if area.start ≤ x ∧ x < area.stop then some (area.cell ℓ x) else view ℓ s.set.areas x) ∧
      (unmapOverlap = false → ∀ x, area.start ≤ x → x < area.stop → view ℓ s.set.areas x = none)) ∧
    (∀ mode memory start size maxAreas r d, unmapWithLimitInner backend mode memory start size maxAreas s.enter =
      (.ok r, d) →
      ∀ x, view ℓ d.set.areas x = if start ≤ x ∧ x < start + size then none else view ℓ s.set.areas x) ∧
    (∀ memory start size updateFlags maxAreas d, protectWithLimit backend memory start size updateFlags
      maxAreas s.enter = (.ok (), d) →
      ∀ x, view ℓ d.set.areas x = protectedView ℓ (start, start + size) updateFlags s.set.areas x) ∧
    (∀ anchor, ∃ d, (mergeAdjacentAt backend anchor : Act (Call F B E R) MappingError Unit) s.enter = (.ok (), d) ∧
      ∀ x, view ℓ d.set.areas x = view ℓ s.set.areas x) ∧
    (∀ k a start stop, s.set.areas.get? k = some a → k ≤ start → start < stop → stop ≤ a.stop →
      ∃ d, (splitArea k start stop a.stop a.flags a.flags a.lineage : Act (Call F B E R) MappingError Unit) s.enter =
        (.ok (), d) ∧ d.set.areas.get? start = some ⟨start, stop, a.flags, a.backend, a.lineage⟩ ∧
        ∀ x, view ℓ d.set.areas x = view ℓ s.set.areas x) := by
  have hcons := h.inv.set
  refine ⟨fun memory area unmapOverlap maxAreas d hbound hrun => ?_, fun mode memory start size maxAreas r d hrun x =>
    ?_,
    fun memory start size updateFlags maxAreas d hrun x => ?_, fun anchor =>
      ?_, fun k a start stop hget hle hlt hstop => ?_⟩
  · obtain ⟨-, hmapped⟩ := (mapWithLimit_spec (c := s.enter) hcons hloc hbound unmapOverlap).ok_of hrun
    exact ⟨hmapped.view, hmapped.vacant⟩
  · obtain ⟨-, ⟨hzero, rfl⟩ | ⟨-, hun, -⟩⟩ := (unmapWithLimitInner_spec (c := s.enter) hcons hloc start size).ok_of hrun
    · rw [if_neg (by omega)]
      rfl
    · exact hun.view x
  · obtain ⟨-, ⟨hzero, rfl⟩ | ⟨-, hprot⟩⟩ :=
      (protectWithLimit_spec (c := s.enter) hcons hloc start size updateFlags).ok_of hrun
    · show view ℓ s.set.areas x = _
      rw [protectedView, view]
      refine congrArg (Option.map · _) (funext fun a => ?_)
      rw [if_neg (by dsimp only; omega)]
    · exact hprot.view x
  · obtain ⟨_, d, hrun, hmerged⟩ :=
      (mergeAdjacentAt_spec (ε := MappingError) (c := s.enter) anchor hcons.ordered hloc).returns
    exact ⟨d, hrun, hmerged.view⟩
  · obtain ⟨_, d, hrun, hsplit⟩ := (splitArea_spec (ε := MappingError) (ℓ := ℓ) (c := s.enter) a.flags hcons.ordered
      hget hle hlt hstop).returns
    have hmid : d.set.areas.get? start = some ⟨start, stop, a.flags, a.backend, a.lineage⟩ := by
      rw [hsplit.middle, ite_self]
    refine ⟨d, hrun, hmid, fun x => ?_⟩
    by_cases hx : start ≤ x ∧ x < stop
    · have hkey := hcons.ordered.key k a hget
      rw [hsplit.ordered.view_of_get? hmid hx.1 hx.2, hcons.ordered.view_of_get? hget (by omega) (by omega)]
      rfl
    · exact hsplit.view x hx

theorem contents_exact_mapped :
    ((unmapWithLimitInner FlagTable.backend .immediate (fun _ => true) 18 2 8) FlagTable.mapped.enter).1.isOk = true ∧
    ∀ x, view (fun _ x => x) ((unmapWithLimitInner FlagTable.backend .immediate (fun _ => true) 18 2 8)
      FlagTable.mapped.enter).2.set.areas x =
      if 18 ≤ x ∧ x < 18 + 2 then none else view (fun _ x => x) FlagTable.mapped.set.areas x := by
  have hok : ((unmapWithLimitInner FlagTable.backend .immediate (fun _ => true) 18 2 8)
      FlagTable.mapped.enter).1.isOk = true := by
    decide +kernel
  obtain ⟨r, hrun⟩ := eq_ok_of_isOk hok
  exact ⟨hok, (contents_exact FlagTable.mapped_reachable FlagTable.interchangeable).2.1 _ _ _ _ _ r _ hrun⟩

section Failures

/-- A call that fails leaves the set and the page table as they were, but for
a map whose backend fails: there the set is as it was, and the table is what
the backend left. While a map, an unmap or a protect runs, the set never holds
more areas than it may. -/
theorem failures_keep_state (h : Reachable backend s) :
    (∀ mode memory start size maxAreas e d,
      unmapWithLimitInner backend mode memory start size maxAreas s.enter = (.err e, d) → d = s.enter) ∧
    (∀ memory start size updateFlags maxAreas e d,
      protectWithLimit backend memory start size updateFlags maxAreas s.enter = (.err e, d) → d = s.enter) ∧
    (∀ memory shouldUnmap maxAreas e d,
      unmapMatchingDeferredWithLimit backend memory shouldUnmap maxAreas s.enter = (.err e, d) → d = s.enter) ∧
    (∀ memory selected shouldUnmap maxAreas e d,
      unmapSelectedDeferredWithLimit backend memory selected shouldUnmap maxAreas s.enter = (.err e, d) → d = s.enter) ∧
    (∀ mode memory e d, clearInner backend mode memory s.enter = (.err e, d) → d = s.enter) ∧
    (∀ memory area maxAreas e d, area.stop ≤ usizeMax →
      mapWithLimit backend memory area false maxAreas s.enter = (.err e, d) → d = s.enter ∨
        e = .badState ∧ (backend.map area.backend area.start area.size area.flags s.table).1 = false ∧
          d = { s.enter with table := (backend.map area.backend area.start area.size area.flags s.table).2 }) ∧
    (Honest backend → ∀ maxAreas, s.set.areas.size ≤ maxAreas →
      (∀ memory area unmapOverlap, area.stop ≤ usizeMax →
        Bounded maxAreas (mapWithLimit backend memory area unmapOverlap maxAreas s.enter).2) ∧
      (∀ mode memory start size, Bounded maxAreas
        (unmapWithLimitInner backend mode memory start size maxAreas s.enter).2) ∧
      ∀ memory start size updateFlags, Bounded maxAreas
        (protectWithLimit backend memory start size updateFlags maxAreas s.enter).2) := by
  have hcons := h.inv.set
  have hloc := interchangeable_unit backend
  refine ⟨fun mode memory start size maxAreas e d hrun => (unmapWithLimitInner_spec
    (c := s.enter) hcons hloc start size).err_of hrun,
    fun memory start size updateFlags maxAreas e d hrun =>
      (protectWithLimit_spec (c := s.enter) hcons hloc start size updateFlags).err_of hrun,
    fun memory shouldUnmap maxAreas e d hrun =>
      (unmapMatchingDeferredWithLimit_spec (c := s.enter) hcons shouldUnmap).err_of hrun,
    fun memory selected shouldUnmap maxAreas e d hrun =>
      (unmapSelectedDeferredWithLimit_spec (c := s.enter) hcons selected shouldUnmap).err_of hrun,
    fun mode memory e d hrun => (clearInner_spec (c := s.enter) hcons).err_of hrun,
    fun memory area maxAreas e d hbound hrun =>
      ((mapWithLimit_spec (c := s.enter) hcons hloc hbound false).err_of hrun).keep rfl,
    fun hon maxAreas hsize => ⟨fun memory area unmapOverlap hbound => ?_, fun mode memory start size => ?_,
      fun memory start size updateFlags => ?_⟩⟩
  · have hmax (n : Nat) (hn : n ≤ max s.enter.peak maxAreas) : n ≤ maxAreas := hn.trans (max_le hsize (Nat.le_refl _))
    refine bounded_of_ensures (c := s.enter) (Nat.le_refl _) (keeps_mapWithLimit _ _) ?_
    exact (mapWithLimit_spec (c := s.enter) hcons hloc hbound unmapOverlap).mono (fun _ d hd => hmax _ hd.2.peak)
      (fun _ d hd => hmax _ hd.peak) (fun hnot => hnot hon)
  · refine bounded_of_ensures (c := s.enter) (Nat.le_refl _) (keeps_unmapWithLimitInner _ _) ?_
    refine (unmapWithLimitInner_spec (c := s.enter) hcons hloc start size).mono ?_ (fun _ d hd => hd ▸ hsize)
      (fun hnot => hnot hon)
    rintro - d ⟨-, ⟨-, rfl⟩ | ⟨-, hd, -, hmax⟩⟩
    · exact hsize
    · exact hd.peak.trans (max_le hsize hmax)
  · refine bounded_of_ensures (c := s.enter) (Nat.le_refl _) (keeps_protectWithLimit _ _ _) ?_
    refine (protectWithLimit_spec (c := s.enter) hcons hloc start size updateFlags).mono ?_ (fun _ d hd => hd ▸ hsize)
      (fun hnot => hnot hon)
    rintro - d ⟨-, ⟨-, rfl⟩ | ⟨-, hd⟩⟩
    · exact hsize
    · exact hd.peak.trans (max_le hsize (Nat.le_refl _))

theorem failures_keep_state_mapped :
    (unmapWithLimitInner FlagTable.backend .deferred (fun _ => true) 18 2 1 FlagTable.mapped.enter).1 = .err .noMemory ∧
    (unmapWithLimitInner FlagTable.backend .deferred (fun _ => true) 18 2 1 FlagTable.mapped.enter).2 =
      FlagTable.mapped.enter ∧
    Bounded 2 (unmapWithLimitInner FlagTable.backend .immediate (fun _ => true) 18 2 2 FlagTable.mapped.enter).2 :=
  ⟨rfl, (failures_keep_state FlagTable.mapped_reachable).1 .deferred (fun _ => true) 18 2 1 .noMemory _ rfl,
    ((failures_keep_state FlagTable.mapped_reachable).2.2.2.2.2.2 FlagTable.honest 2 (by decide +kernel)).2.1 _ _ _ _⟩

namespace FlagTable

/-- A leaf that no area accounts for, in the middle of the range to map. -/
def stray : System Nat Unit Nat (Table Nat) := System.init fun x => if x = 20 then 5 else 0

theorem stray_reachable : Reachable FlagTable.backend stray := ⟨0, _, .refl _⟩

end FlagTable

/-- A backend that keeps the contract of the preflights can fail a map halfway,
and what it had mapped by then stays in the table. -/
theorem map_failure_changes_table :
    Honest FlagTable.backend ∧
    ¬ ∀ s, Reachable FlagTable.backend s → ∀ memory area maxAreas e d, area.stop ≤ usizeMax →
      mapWithLimit FlagTable.backend memory area false maxAreas s.enter = (.err e, d) → d.table = s.table := by
  refine ⟨FlagTable.honest, fun hall => ?_⟩
  have hrun := hall _ FlagTable.stray_reachable (fun _ => true) ⟨16, 24, 7, (), 1⟩ 8 .badState _ (by decide) rfl
  have hleaf := congrFun hrun 16
  revert hleaf
  decide +kernel

end Failures

section Transactions

variable (backend) in
/-- A step in which the revision counter does not wrap around. -/
def Onward (s t : System F B E R) : Prop := Step backend s t ∧ s.set.revision ≤ t.set.revision

theorem onward_spec {t : System F B E R} (hs : Inv s) (h : Relation.ReflTransGen (Onward backend) s t) :
    Inv t ∧ s.set.revision ≤ t.set.revision := by
  induction h with
  | refl => exact ⟨hs, Nat.le_refl _⟩
  | tail _ hstep ih => exact ⟨(step_spec ih.1 hstep.1).1, ih.2.trans hstep.2⟩

/-- A fixed replacement that was prepared commits and installs; rolled back,
installed or not, it leaves areas, gaps and page table as they were before it;
finished, it leaves the contents that a map over the old areas leaves. Once a
step has changed the areas, the commit is refused. -/
theorem fixed_replacement_transacts {vacant : E} (h : Reachable backend s) (hidle : s.committedMetadata = none)
    (hrev : Reversible backend vacant) (hloc : Interchangeable backend ℓ)
    {memory : Nat → Bool} {replacement : Area F B} {maxAreas : Nat} (hbound : replacement.stop ≤ usizeMax)
    (htable : ∀ x, replacement.start ≤ x → x < replacement.stop → find s.set.areas x = none → s.table x = vacant)
    {p : PreparedFixedReplacement F B R} {c : Call F B E R}
    (hp : prepareFixedReplacementWithLimit backend memory replacement maxAreas s.enter = (.ok p, c)) :
    c = s.enter ∧
    (∃ g d, commitFixed backend p s.enter = (.ok g, d) ∧
      (∃ tree e, (rollbackFixed backend g : Act (Call F B E R) MappingError (Areas F B)) d = (.ok tree, e) ∧
        e.set.areas = s.set.areas ∧ e.set.gaps = s.set.gaps ∧ e.table = s.table) ∧
      ∃ g' e, (install backend g : Act (Call F B E R) MappingError (CommittedFixedReplacement F B R)) d = (.ok g', e) ∧
        (∃ tree f, (rollbackFixed backend g' : Act (Call F B E R) MappingError (Areas F B)) e = (.ok tree, f) ∧
          f.set.areas = s.set.areas ∧ f.set.gaps = s.set.gaps ∧ f.table = s.table) ∧
        ∃ r f, (finishFixed g' : Act (Call F B E R) MappingError (FixedReplacementRetirement F B R)) e = (.ok r, f) ∧
          (∀ x, view ℓ f.set.areas x =
            if replacement.start ≤ x ∧ x < replacement.stop then some (replacement.cell ℓ x)
            else view ℓ s.set.areas x) ∧
          ∀ memory maxAreas m, mapWithLimit backend memory replacement true maxAreas s.enter = (.ok (), m) →
            ∀ x, view ℓ f.set.areas x = view ℓ m.set.areas x) ∧
    ∀ t u v, Relation.ReflTransGen (Onward backend) { s.leave c with preparedFixed := p :: s.preparedFixed } t →
      Onward backend t u → u.set.areas ≠ t.set.areas → Relation.ReflTransGen (Onward backend) u v →
      commitFixed backend p v.enter = (.err .badState, v.enter) := by
  have hinv := h.inv
  obtain ⟨rfl, hfor⟩ := (prepareFixedReplacementWithLimit_spec (ℓ := ℓ) (c := s.enter) hinv.set hbound).ok_of hp
  refine ⟨rfl, ?_, fun t u v hst htu hne huv => ?_⟩
  · obtain ⟨g, d, hcommit, hg, hfresh, htoken, hd⟩ :=
      (commitFixed_spec hrev hfor (fun x hin => htable x hin.1 hin.2)).returns
    obtain ⟨tree, e, hroll, hback⟩ := (rollbackFixed_spec (ε := MappingError) hg).returns
    refine ⟨g, d, hcommit, ⟨tree, e, hroll, hback⟩, ?_⟩
    obtain ⟨g', e, hinstall, hg', hinst, -⟩ := (install_spec (ε := MappingError) hrev hfor hg hfresh htoken hd).returns
    obtain ⟨tree, f, hroll, hback⟩ := (rollbackFixed_spec (ε := MappingError) hg').returns
    obtain ⟨r, hfinish⟩ := finishFixed_apply (ε := MappingError) hg' hinst
    refine ⟨g', e, hinstall, ⟨tree, f, hroll, hback⟩, r, e, hfinish, hg'.view, fun memory maxAreas m hmap x => ?_⟩
    obtain ⟨-, hmapped⟩ := (mapWithLimit_spec (c := s.enter) hinv.set hloc hbound true).ok_of hmap
    rw [hg'.view, hmapped.view]
  · have hstart := (step_spec hinv (.prepareFixed hidle hbound hp)).1
    obtain ⟨ht, hle⟩ := onward_spec hstart hst
    obtain ⟨hu, hcount⟩ := step_spec ht htu.1
    have hlt := hcount.revision_lt_of_changed htu.2 hne
    obtain ⟨-, hle'⟩ := onward_spec hu huv
    refine commitFixed_stale ?_
    rw [hfor.revision]
    have hfirst : s.enter.set.revision ≤ t.set.revision := hle
    exact Nat.ne_of_lt (Nat.lt_of_le_of_lt hfirst (Nat.lt_of_lt_of_le hlt hle'))

theorem fixed_replacement_transacts_mapped :
    (prepareFixedReplacementWithLimit FlagTable.backend (fun _ => true) ⟨20, 28, 3, (),
      2⟩ 8 FlagTable.mapped.enter).1.isOk = true ∧
    ∃ p c g d g' e tree f,
      prepareFixedReplacementWithLimit FlagTable.backend (fun _ => true) ⟨20, 28, 3, (), 2⟩ 8 FlagTable.mapped.enter =
        (.ok p, c) ∧
      commitFixed FlagTable.backend p FlagTable.mapped.enter = (.ok g, d) ∧
      (install FlagTable.backend g : Act _ MappingError _) d = (.ok g', e) ∧
      (rollbackFixed FlagTable.backend g' : Act _ MappingError _) e = (.ok tree, f) ∧
      f.set.areas = FlagTable.mapped.set.areas ∧ f.set.gaps = FlagTable.mapped.set.gaps ∧
        f.table = FlagTable.mapped.table := by
  have hok : (prepareFixedReplacementWithLimit FlagTable.backend (fun _ => true) ⟨20, 28, 3, (),
      2⟩ 8 FlagTable.mapped.enter).1.isOk = true := by decide +kernel
  obtain ⟨p, hp⟩ := eq_ok_of_isOk hok
  have htable : ∀ x < 28, 20 ≤ x → find FlagTable.mapped.set.areas x = none → FlagTable.mapped.table x = 0 := by
    decide +kernel
  obtain ⟨-, ⟨g, d, hcommit, -, g', e, hinstall, ⟨tree, f, hroll, hback⟩, -⟩, -⟩ :=
    fixed_replacement_transacts FlagTable.mapped_reachable rfl FlagTable.reversible FlagTable.interchangeable
      (by decide) (fun x hx hx' => htable x hx' hx) hp
  exact ⟨hok, p, _, g, d, g', e, tree, f, hp, hcommit, hinstall, hroll, hback⟩

end Transactions

end TheKernel.MemorySet
