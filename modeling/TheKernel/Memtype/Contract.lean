import TheKernel.Memtype.State

namespace TheKernel.Memtype

open Act MemtypeState

section Intervals

variable {α : Type} {set : IntervalSet α} {i j : Interval α} {start stop : Nat} {key : Nat ×ₗ Nat}

def IntervalSet.Live (set : IntervalSet α) (i : Interval α) : Prop := ∃ key, set.entries.get? key = some i

def Interval.Overlaps (i : Interval α) (start stop : Nat) : Prop := i.start < stop ∧ start < i.stop

/-- Every interval stands under its own start. -/
def IntervalSet.Keyed (set : IntervalSet α) : Prop :=
  ∀ key i, set.entries.get? key = some i → (ofLex key).1 = i.start

theorem key_lt_iff : key < toLex (stop, 0) ↔ (ofLex key).1 < stop := by
  rw [Prod.Lex.lt_iff]
  simp

theorem mem_below (hkeyed : set.Keyed) : i ∈ (set.below stop).map Prod.snd ↔ set.Live i ∧ i.start < stop := by
  rw [List.mem_map]
  constructor
  · rintro ⟨⟨key, i⟩, hmem, rfl⟩
    rw [IntervalSet.below, List.mem_filter, SortedMap.mem_entries] at hmem
    refine ⟨⟨key, hmem.1⟩, ?_⟩
    rw [← hkeyed key i hmem.1, ← key_lt_iff]
    exact of_decide_eq_true hmem.2
  · rintro ⟨⟨key, hkey⟩, hlt⟩
    refine ⟨(key, i), ?_, rfl⟩
    rw [IntervalSet.below, List.mem_filter, SortedMap.mem_entries]
    refine ⟨hkey, decide_eq_true ?_⟩
    rw [key_lt_iff, hkeyed key i hkey]
    exact hlt

theorem mem_overlapping (hkeyed : set.Keyed) :
    i ∈ set.overlapping start stop ↔ set.Live i ∧ i.Overlaps start stop := by
  rw [IntervalSet.overlapping, List.mem_filter, mem_below hkeyed, decide_eq_true_iff, and_assoc]
  rfl

/-- The first interval is one that overlaps, if any does. -/
theorem firstOverlapping_spec (hkeyed : set.Keyed) (hlive : set.Live i) (hoverlaps : i.Overlaps start stop) :
    ∃ first, set.firstOverlapping start stop = some first ∧ set.Live first ∧ first.Overlaps start stop := by
  cases hfirst : set.firstOverlapping start stop with
  | none =>
      rw [IntervalSet.firstOverlapping, List.find?_eq_none] at hfirst
      have hnot := hfirst i ((mem_below hkeyed).mpr ⟨hlive, hoverlaps.1⟩)
      exact absurd (decide_eq_true hoverlaps.2) hnot
  | some first =>
      rw [IntervalSet.firstOverlapping] at hfirst
      obtain ⟨hlive', hlt⟩ := (mem_below hkeyed).mp (List.mem_of_find?_eq_some hfirst)
      have hstop := List.find?_some hfirst
      exact ⟨first, rfl, hlive', hlt, of_decide_eq_true hstop⟩

theorem live_insert {value : α} {next : IntervalSet α} (h : set.insert start stop value = some next)
    (hlive : next.Live i) : set.Live i ∨ i = ⟨start, stop, value⟩ := by
  obtain ⟨key, hkey⟩ := hlive
  rw [IntervalSet.insert] at h
  split at h
  · cases h
    rw [SortedMap.get?_insert] at hkey
    split at hkey
    · exact .inr (Option.some.inj hkey).symm
    · exact .inl ⟨key, hkey⟩
  · cases h

theorem keyed_insert {value : α} {next : IntervalSet α} (hkeyed : set.Keyed)
    (h : set.insert start stop value = some next) : next.Keyed := by
  intro key i hkey
  rw [IntervalSet.insert] at h
  split at h
  · cases h
    rw [SortedMap.get?_insert] at hkey
    split at hkey
    case isTrue heq =>
      cases hkey
      rw [heq]
      rfl
    case isFalse => exact hkeyed key i hkey
  · cases h

theorem removeExact_get? {removed : Interval α} {next : IntervalSet α}
    (h : set.removeExact start stop = some (removed, next))
    {value : Interval α} (hkey : next.entries.get? key = some value) : set.entries.get? key = some value := by
  simp only [IntervalSet.removeExact, Option.bind_eq_bind, Option.bind_eq_some_iff] at h
  obtain ⟨entry, _, interval, _, heq⟩ := h
  cases heq
  rw [SortedMap.get?_erase] at hkey
  split at hkey
  · cases hkey
  · exact hkey

end Intervals

theorem settle_eq_ok {overlapping : List (Interval CacheMode)} {actual result : CacheMode} {policy : ReservePolicy}
    (h : settle overlapping actual policy = .ok result) : ∀ entry ∈ overlapping, entry.value = result := by
  rw [settle, Outcome.bind_eq_ok] at h
  obtain ⟨settled, _, h⟩ := h
  cases hfind : overlapping.find? fun entry => entry.value ≠ settled with
  | some entry =>
      rw [hfind] at h
      cases h
  | none =>
      rw [hfind] at h
      cases h
      intro entry hentry
      have hsame := List.find?_eq_none.mp hfind entry hentry
      simpa using hsame

inductive MemtypeCall where
  | reserve (start stop : BitVec 64) (req : CacheMode) (policy : ReservePolicy)
  | free (start stop : BitVec 64)
  deriving DecidableEq

namespace MemtypeCall

def Aligned : MemtypeCall → Prop
  | .reserve start stop _ _ | .free start stop => pageSize ∣ start.toNat ∧ pageSize ∣ stop.toNat

def run (ram : RamMap) : MemtypeCall → Act MemtypeState MemtypeError (Option CacheMode)
  | .reserve start stop req policy => do
      let mode ← MemtypeState.reserve ram true start.toNat stop.toNat req policy
      pure (some mode)
  | .free start stop => do
      MemtypeState.free ram true start.toNat stop.toNat
      pure none

end MemtypeCall

abbrev MemtypeTrace := List (MemtypeCall × Outcome MemtypeError (Option CacheMode))

inductive MemtypeRun (ram : RamMap) : MemtypeTrace → MemtypeState → Prop
  | start : MemtypeRun ram [] .new
  | step {trace : MemtypeTrace} {s : MemtypeState} {call : MemtypeCall} (h : MemtypeRun ram trace s)
      (haligned : call.Aligned) : MemtypeRun ram (trace ++ [(call, (call.run ram s).1)]) (call.run ram s).2

/-- A range that begins outside RAM, at or above 1 MiB, and reaches into RAM. -/
def Strays (ram : RamMap) (start stop : Nat) : Prop :=
  ¬ InRam ram (visibleStart start) ∧ ∃ x, visibleStart start ≤ x ∧ x < stop ∧ InRam ram x

/-- The invariant of the intervals, which `classify` takes to be outside RAM. -/
structure MemtypeState.Sound (ram : RamMap) (s : MemtypeState) : Prop where
  keyed : s.nonRam.Keyed
  agree : ∀ i j, s.nonRam.Live i → s.nonRam.Live j → i.Overlaps j.start j.stop → i.value = j.value
  each : ∀ i, s.nonRam.Live i → i.start < i.stop ∧ pageSize ∣ i.start ∧ pageSize ∣ i.stop ∧ i.stop ≤ wordMax
  outside : ∀ i, s.nonRam.Live i → classify ram i.start i.stop = .nonRam

section Run

variable {ram : RamMap} {s : MemtypeState}

theorem MemtypeState.Sound.same {t : MemtypeState} (hs : s.Sound ram) (h : t.nonRam = s.nonRam) : t.Sound ram := by
  refine ⟨?_, ?_, ?_, ?_⟩
  · rw [h]
    exact hs.keyed
  · rw [h]
    exact hs.agree
  · rw [h]
    exact hs.each
  · rw [h]
    exact hs.outside

theorem reserveRam_nonRam (s : MemtypeState) (start stop : Nat) (req : CacheMode) :
    Ensures (reserveRam start stop req) s (fun _ t => t.nonRam = s.nonRam) (fun _ t => t = s) False := by
  apply ensures_get_bind
  split
  · exact ensures_fail rfl
  simp only
  split
  · exact ensures_fail rfl
  · apply ensures_modify_bind
    exact ensures_pure rfl

theorem reserveNonRam_sound {start stop : Nat} {actual : CacheMode} {policy : ReservePolicy} (hs : s.Sound ram)
    (hlt : start < stop) (hstart : pageSize ∣ start) (hstop : pageSize ∣ stop) (hmax : stop ≤ wordMax)
    (hkind : classify ram start stop = .nonRam) : (reserveNonRam start stop actual policy s).2.Sound ram := by
  rw [reserveNonRam, get_bind, bind_apply, lift_apply]
  cases hsettle : settle (s.nonRam.overlapping start stop) actual policy with
  | err e => exact hs
  | panic => exact hs
  | ok result =>
      simp only
      cases hinsert : s.nonRam.insert start stop result with
      | none => exact hs
      | some next =>
          change MemtypeState.Sound ram { s with nonRam := next }
          have hvalues := settle_eq_ok hsettle
          have hagree : ∀ i, s.nonRam.Live i → i.Overlaps start stop → i.value = result := by
            intro i hi hoverlaps
            exact hvalues i ((mem_overlapping hs.keyed).mpr ⟨hi, hoverlaps⟩)
          refine ⟨keyed_insert hs.keyed hinsert, ?_, ?_, ?_⟩
          · intro i j hi hj hoverlaps
            rcases live_insert hinsert hi with hi | rfl <;> rcases live_insert hinsert hj with hj | rfl
            · exact hs.agree i j hi hj hoverlaps
            · exact hagree i hi hoverlaps
            · exact (hagree j hj ⟨hoverlaps.2, hoverlaps.1⟩).symm
            · rfl
          · intro i hi
            rcases live_insert hinsert hi with hi | rfl
            · exact hs.each i hi
            · exact ⟨hlt, hstart, hstop, hmax⟩
          · intro i hi
            rcases live_insert hinsert hi with hi | rfl
            · exact hs.outside i hi
            · exact hkind

theorem reserve_sound {start stop : Nat} {req : CacheMode} {policy : ReservePolicy} (hs : s.Sound ram)
    (hstart : pageSize ∣ start) (hstop : pageSize ∣ stop) (hmax : stop ≤ wordMax) :
    (reserve ram true start stop req policy s).2.Sound ram := by
  rw [reserve]
  split
  · exact hs
  case isFalse hlt =>
    have hlt : start < stop := Nat.not_le.mp hlt
    rw [if_neg (by simp)]
    split
    · exact hs
    cases hkind : classify ram start stop with
    | mixed => exact hs
    | ram =>
        have hsame := reserveRam_nonRam s start stop req
        refine hs.same ?_
        simp only
        rcases hres : reserveRam start stop req s with ⟨o, t⟩
        cases o with
        | ok mode => exact hsame.ok_of hres
        | err e => rw [hsame.err_of hres]
        | panic => exact (hsame.panic_of (by rw [hres])).elim
    | nonRam => exact reserveNonRam_sound hs hlt hstart hstop hmax hkind

theorem free_sound {start stop : Nat} (hs : s.Sound ram) : (free ram true start stop s).2.Sound ram := by
  rw [free]
  split
  · exact hs
  cases classify ram start stop with
  | mixed => exact hs
  | ram => exact hs.same rfl
  | nonRam =>
      simp only [get_bind]
      cases hremove : s.nonRam.removeExact start stop with
      | none => exact hs
      | some result =>
          obtain ⟨removed, next⟩ := result
          change MemtypeState.Sound ram { s with nonRam := next }
          have hlive : ∀ i, next.Live i → s.nonRam.Live i := by
            rintro i ⟨key, hkey⟩
            exact ⟨key, removeExact_get? hremove hkey⟩
          refine ⟨?_, ?_, fun i hi => hs.each i (hlive i hi), fun i hi => hs.outside i (hlive i hi)⟩
          · intro key i hkey
            exact hs.keyed key i (removeExact_get? hremove hkey)
          · intro i j hi hj
            exact hs.agree i j (hlive i hi) (hlive j hj)

theorem MemtypeCall.run_snd (ram : RamMap) (s : MemtypeState) (call : MemtypeCall) : (call.run ram s).2 =
    match call with
    | .reserve start stop req policy => (MemtypeState.reserve ram true start.toNat stop.toNat req policy s).2
    | .free start stop => (MemtypeState.free ram true start.toNat stop.toNat s).2 := by
  cases call with
  | reserve start stop req policy => exact bind_pure_snd ..
  | free start stop => exact bind_pure_snd ..

theorem MemtypeRun.sound {trace : MemtypeTrace} (h : MemtypeRun ram trace s) : s.Sound ram := by
  induction h with
  | start =>
      refine ⟨?_, ?_, ?_, ?_⟩
      · rintro key i ⟨⟩
      · rintro i j ⟨key, ⟨⟩⟩
      · rintro i ⟨key, ⟨⟩⟩
      · rintro i ⟨key, ⟨⟩⟩
  | @step trace s call h haligned ih =>
      rw [call.run_snd ram s]
      cases call with
      | reserve start stop req policy =>
          exact reserve_sound ih haligned.1 haligned.2 (Nat.le_sub_one_of_lt stop.isLt)
      | free start stop => exact free_sound ih

theorem le_visibleStart (start : Nat) : start ≤ visibleStart start ∧ isaEnd ≤ visibleStart start :=
  ⟨Nat.le_max_left _ _, Nat.le_max_right _ _⟩

/-- A reservation that does not begin outside RAM to reach into it covers no RAM. -/
theorem MemtypeState.Sound.outside_ram (hs : s.Sound ram) {i : Interval CacheMode} (hi : s.nonRam.Live i)
    (hstrays : ¬ Strays ram i.start i.stop) {x : Nat} (hstart : i.start ≤ x) (hstop : x < i.stop) (hisa : isaEnd ≤ x) :
    ¬ InRam ram x := by
  intro hram
  have hvisible : visibleStart i.start ≤ x := Nat.max_le.mpr ⟨hstart, hisa⟩
  rcases (classify_eq_nonRam (hs.each i hi).2.2.2).mp (hs.outside i hi) with hhidden | hfirst
  · exact absurd hstop (Nat.not_lt.mpr (Nat.le_trans hhidden hvisible))
  · exact hstrays ⟨hfirst, x, hvisible, hstop, hram⟩

theorem isUntracked_page {page : Nat} (hpage : pageSize ∣ page) :
    isUntracked page (page + pageSize) = true ↔ isaStart ≤ page ∧ page < isaEnd := by
  rw [isUntracked, decide_eq_true_iff]
  obtain ⟨a, rfl⟩ := hpage
  simp only [isaStart, isaEnd, pageSize]
  omega

/-- A page that is not RAM as a whole is not classified as RAM. -/
theorem classify_page {page : Nat} (hpage : pageSize ∣ page) (hmax : page + pageSize ≤ wordMax)
    (hpart : page < isaEnd ∨ ∃ x, page ≤ x ∧ x < page + pageSize ∧ ¬ InRam ram x) :
    classify ram page (page + pageSize) ≠ .ram := by
  intro hkind
  obtain ⟨hlt, hall⟩ := (classify_eq_ram hmax).mp hkind
  have habove : isaEnd ≤ page := by
    have hvisible := le_visibleStart page
    obtain ⟨a, rfl⟩ := hpage
    simp only [isaEnd, pageSize] at *
    omega
  rcases hpart with hbelow | ⟨x, hx, hlt, hnot⟩
  · omega
  · exact hnot (hall x (Nat.max_le.mpr ⟨hx, by omega⟩) hlt)

/-- The page is found in the first reservation that overlaps it, which agrees with
the others. -/
theorem MemtypeState.Sound.lookup_page (hs : s.Sound ram) {i : Interval CacheMode} (hi : s.nonRam.Live i) {page : Nat}
    (hpage : pageSize ∣ page) (hstart : i.start ≤ page) (hstop : page < i.stop)
    (hpart : page < isaEnd ∨ ∃ x, page ≤ x ∧ x < page + pageSize ∧ ¬ InRam ram x) :
    s.lookup ram true page = some (if isaStart ≤ page ∧ page < isaEnd then .wb else i.value) := by
  obtain ⟨_, _, hstopAligned, hmax⟩ := hs.each i hi
  have hend : page + pageSize ≤ i.stop := by
    obtain ⟨a, rfl⟩ := hpage
    obtain ⟨b, hb⟩ := hstopAligned
    rw [hb] at hstop ⊢
    have hab := Nat.lt_of_mul_lt_mul_left hstop
    calc pageSize * a + pageSize = pageSize * (a + 1) := (Nat.mul_succ _ _).symm
      _ ≤ pageSize * b := Nat.mul_le_mul_left _ hab
  have hsum : checkedAddBits 64 page pageSize = some (page + pageSize) := by
    rw [checkedAddBits, if_pos (by simp only [wordMax] at hmax; omega)]
  rw [MemtypeState.lookup, if_neg (by simp), hsum]
  simp only [Option.bind_eq_bind, Option.bind_some]
  by_cases hisa : isaStart ≤ page ∧ page < isaEnd
  · rw [if_pos ((isUntracked_page hpage).mpr hisa), if_pos hisa]
  · rw [if_neg (mt (isUntracked_page hpage).mp hisa), if_neg hisa]
    obtain ⟨first, hfirst, hlive, hoverlaps⟩ := firstOverlapping_spec hs.keyed hi
      (show i.Overlaps page (page + pageSize) from ⟨by simp only [pageSize]; omega, hstop⟩)
    have hvalue : first.value = i.value := by
      apply hs.agree first i hlive hi
      exact ⟨Nat.lt_of_lt_of_le hoverlaps.1 hend, Nat.lt_of_le_of_lt hstart hoverlaps.2⟩
    have hnotRam := classify_page hpage (Nat.le_trans hend hmax) hpart
    cases hkind : classify ram page (page + pageSize) with
    | ram => exact absurd hkind hnotRam
    | nonRam | mixed =>
        simp only
        rw [hfirst, Option.map_some, Option.getD_some, hvalue]

/-- In every history of whole pages, with PAT enabled: a range that begins in
RAM and leaves it is refused, reservations that overlap agree, one that does not
stray into RAM covers none at or above 1 MiB, and outside the legacy region a
lookup finds the reserved type of each page that is not RAM as a whole. -/
theorem memtype_contract {trace : MemtypeTrace} (h : MemtypeRun ram trace s) :
    (∀ (start stop : BitVec 64) (req : CacheMode) (policy : ReservePolicy), InRam ram (visibleStart start.toNat) →
      (∃ x, visibleStart start.toNat ≤ x ∧ x < stop.toNat ∧ ¬ InRam ram x) →
        s.reserve ram true start.toNat stop.toNat req policy = (.err .invalid, s)) ∧
    (∀ i j, s.nonRam.Live i → s.nonRam.Live j → i.Overlaps j.start j.stop → i.value = j.value) ∧
    (∀ i, s.nonRam.Live i → ¬ Strays ram i.start i.stop → ∀ x, i.start ≤ x → x < i.stop → isaEnd ≤ x → ¬ InRam ram x) ∧
    ∀ i, s.nonRam.Live i → ∀ page, pageSize ∣ page → i.start ≤ page → page < i.stop →
      page < isaEnd ∨ (∃ x, page ≤ x ∧ x < page + pageSize ∧ ¬ InRam ram x) →
      s.lookup ram true page = some (if isaStart ≤ page ∧ page < isaEnd then .wb else i.value) := by
  have hs := h.sound
  refine ⟨?_, hs.agree, fun i hi hstrays x => hs.outside_ram hi hstrays, fun i hi page => hs.lookup_page hi⟩
  rintro start stop req policy hfirst ⟨x, hx, hlt, hnot⟩
  have hmixed := (classify_eq_mixed (Nat.le_sub_one_of_lt stop.isLt)).mpr ⟨hfirst, x, hx, hlt, hnot⟩
  have hvisible := le_visibleStart start.toNat
  have htracked : isUntracked start.toNat stop.toNat = false := by
    rw [isUntracked, decide_eq_false_iff_not]
    omega
  rw [MemtypeState.reserve, if_neg (by omega), if_neg (by simp), htracked, hmixed]
  rfl

end Run

def sampleRam : RamMap := [(0x100000, 0x100000), (0x20000000, 0x10000000)]

/-- The gap is reserved write-combining, twice and overlapping, after a range that
strays into RAM; the range that begins in RAM is refused. -/
theorem memtype_contract_gap : ∃ (trace : MemtypeTrace) (s : MemtypeState) (i : Interval CacheMode),
    MemtypeRun sampleRam trace s ∧ trace.length = 3 ∧ s.nonRam.Live i ∧ i.start = 0x202000 ∧ i.value = .wc ∧
    s.lookup sampleRam true 0x203000 = some .wc ∧ (∀ x, i.start ≤ x → x < i.stop → isaEnd ≤ x → ¬ InRam sampleRam x) ∧
    s.reserve sampleRam true 0x1ff000 0x201000 .wc .exact = (.err .invalid, s) := by
  have hstraying : (MemtypeCall.reserve 0x1ffff000 0x20001000 .uc .exact).Aligned := ⟨by decide, by decide⟩
  have hfirst : (MemtypeCall.reserve 0x200000 0x204000 .wc .exact).Aligned := ⟨by decide, by decide⟩
  have hsecond : (MemtypeCall.reserve 0x202000 0x206000 .uc .any).Aligned := ⟨by decide, by decide⟩
  have hrun : MemtypeRun sampleRam _ _ := ((MemtypeRun.start.step hstraying).step hfirst).step hsecond
  obtain ⟨hrefused, -, houtside, hlookup⟩ := memtype_contract hrun
  have hnot : ∀ x, 0x200000 ≤ x → x < 0x206000 → ¬ InRam sampleRam x := by
    intro x hx hlt hram
    simp only [InRam, sampleRam, List.mem_cons, List.not_mem_nil, or_false, exists_eq_or_imp, exists_eq_left] at hram
    omega
  refine ⟨_, _, ⟨0x202000, 0x206000, .wc⟩, hrun, rfl, ⟨toLex (0x202000, 2), by decide +kernel⟩, rfl, rfl, ?_, ?_, ?_⟩
  · refine hlookup ⟨0x202000, 0x206000, .wc⟩ ⟨toLex (0x202000, 2), by decide +kernel⟩ 0x203000 (by decide)
      (by decide) (by decide) ?_
    exact .inr ⟨0x203000, Nat.le_refl _, by decide, hnot _ (by decide) (by decide)⟩
  · refine houtside ⟨0x202000, 0x206000, .wc⟩ ⟨toLex (0x202000, 2), by decide +kernel⟩ ?_
    rintro ⟨-, x, hx, hlt, hram⟩
    exact hnot x (Nat.le_trans (by decide) hx) hlt hram
  · refine hrefused 0x1ff000 0x201000 .wc .exact ?_ ⟨0x200000, by decide, by decide, hnot _ (by decide) (by decide)⟩
    exact ⟨(0x100000, 0x100000), by decide, by decide, by decide⟩

/-- A range that begins outside RAM is reserved over the RAM that follows it,
where the lookup does not find it; and a reservation over the edge of the legacy
region is not found inside the region. -/
theorem straying_range_reserved : ∃ (trace : MemtypeTrace) (s : MemtypeState) (i j : Interval CacheMode),
    MemtypeRun sampleRam trace s ∧ InRam sampleRam 0x20000000 ∧ ¬ InRam sampleRam 0x1ffff000 ∧
    (.reserve 0x1ffff000 0x20001000 .uc .exact, .ok (some .uc)) ∈ trace ∧
    s.nonRam.Live i ∧ i.start ≤ 0x20000000 ∧ 0x20000000 < i.stop ∧ i.value = .uc ∧
    s.lookup sampleRam true 0x20000000 = some .wb ∧
    s.nonRam.Live j ∧ j.start ≤ 0xa0000 ∧ 0xa0000 < j.stop ∧ j.value = .uc ∧ s.lookup sampleRam true 0xa0000 =
      some .wb := by
  have hstraying : (MemtypeCall.reserve 0x1ffff000 0x20001000 .uc .exact).Aligned := ⟨by decide, by decide⟩
  have hedge : (MemtypeCall.reserve 0x9f000 0xa1000 .uc .exact).Aligned := ⟨by decide, by decide⟩
  have hrun : MemtypeRun sampleRam _ _ := (MemtypeRun.start.step hstraying).step hedge
  refine ⟨_, _, ⟨0x1ffff000, 0x20001000, .uc⟩, ⟨0x9f000, 0xa1000, .uc⟩, hrun, ?_, ?_, ?_, ?_, by decide, by decide,
    rfl, ?_, ?_, by decide, by decide, rfl, ?_⟩
  · exact ⟨(0x20000000, 0x10000000), by decide, by decide, by decide⟩
  · simp [InRam, sampleRam]
  · decide +kernel
  · exact ⟨toLex (0x1ffff000, 0), by decide +kernel⟩
  · decide +kernel
  · exact ⟨toLex (0x9f000, 1), by decide +kernel⟩
  · decide +kernel

end TheKernel.Memtype
