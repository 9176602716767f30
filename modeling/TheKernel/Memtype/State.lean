import Mathlib.Data.Prod.Lex
import Mathlib.Data.List.Sort
import TheKernel.Lib.Action
import TheKernel.Lib.Machine
import TheKernel.Lib.SortedMap

namespace TheKernel.Memtype

open Act

def wordMax : Nat := 2 ^ 64 - 1

def isaStart : Nat := 0xa0000

def isaEnd : Nat := 0x100000

def pageSize : Nat := 4096

inductive CacheMode where
  | wb
  | wc
  | ucMinus
  | uc
  | wt
  | wp
  deriving DecidableEq

inductive MemtypeError where
  | invalid
  | busy (tracked requested : CacheMode)
  | notFound
  deriving DecidableEq

inductive ReservePolicy where
  | exact
  | any
  deriving DecidableEq

inductive RangeKind where
  | ram
  | nonRam
  | mixed
  deriving DecidableEq

abbrev RamMap := List (Nat × Nat)

/-- The part of a RAM range that lies in `[start, stop)`. -/
def piece (start stop : Nat) (range : Nat × Nat) : Option (Nat × Nat) :=
  if max range.1 start < min (min (range.1 + range.2) wordMax) stop
  then some (max range.1 start, min (min (range.1 + range.2) wordMax) stop) else none

/-- The walk over the sorted pieces: the bytes covered, and where the walk
ends. -/
def walkPieces : List (Nat × Nat) → Nat → Nat → Nat × Nat
  | [], covered, cursor => (covered, cursor)
  | (s, e) :: rest, covered, cursor =>
      if s > cursor then (covered, cursor)
      else if e > cursor then walkPieces rest (covered + (e - cursor)) e
      else walkPieces rest covered cursor

def classify (ram : RamMap) (start stop : Nat) : RangeKind :=
  let start := max start isaEnd
  if start ≥ stop then .nonRam
  else
    let pieces := (ram.filterMap (piece start stop)).insertionSort fun a b => toLex a ≤ toLex b
    let (covered, cursor) := walkPieces pieces 0 start
    if covered = 0 then .nonRam else if cursor ≥ stop then .ram else .mixed

def isUntracked (start stop : Nat) : Bool := decide (isaStart ≤ start ∧ stop ≤ isaEnd)

structure Interval (α : Type) where
  start : Nat
  stop : Nat
  value : α
  deriving DecidableEq

/-- The intervals by start and then by their sequence numbers, so that equal
starts can coexist. -/
structure IntervalSet (α : Type) where
  entries : SortedMap (Nat ×ₗ Nat) (Interval α)
  nextSeq : Nat

namespace IntervalSet

variable {α : Type}

def new : IntervalSet α := ⟨.empty, 0⟩

/-- `None` where the next sequence number overflows. -/
def insert (set : IntervalSet α) (start stop : Nat) (value : α) : Option (IntervalSet α) :=
  if set.nextSeq + 1 ≤ wordMax then
    some ⟨set.entries.insert (toLex (start, set.nextSeq)) ⟨start, stop, value⟩, set.nextSeq + 1⟩
  else none

/-- `self.entries.range(..(end, 0))`. -/
def below (set : IntervalSet α) (stop : Nat) : List ((Nat ×ₗ Nat) × Interval α) :=
  set.entries.entries.filter fun entry => entry.1 < toLex (stop, 0)

def overlapping (set : IntervalSet α) (start stop : Nat) : List (Interval α) :=
  ((set.below stop).map Prod.snd).filter fun entry => entry.stop > start

def firstOverlapping (set : IntervalSet α) (start stop : Nat) : Option (Interval α) :=
  ((set.below stop).map Prod.snd).find? fun entry => entry.stop > start

def removeExact (set : IntervalSet α) (start stop : Nat) : Option (Interval α × IntervalSet α) := do
  let entry ← (set.entries.range (toLex (start, 0)) (toLex (min (start + 1) wordMax, 0))).find? fun entry =>
    entry.2.stop = stop
  let interval ← set.entries.get? entry.1
  some (interval, { set with entries := set.entries.erase entry.1 })

end IntervalSet

structure MemtypeState where
  nonRam : IntervalSet CacheMode
  /-- The mode of the RAM pages that are not WB, by frame number. -/
  ram : SortedMap Nat CacheMode

namespace MemtypeState

def new : MemtypeState := ⟨.new, .empty⟩

def ramMode (s : MemtypeState) (pfn : Nat) : CacheMode := (s.ram.get? pfn).getD .wb

/-- `(start >> PAGE_SHIFT)..(end >> PAGE_SHIFT)`. -/
def frames (start stop : Nat) : List Nat := List.range' (start / pageSize) (stop / pageSize - start / pageSize)

def reserveRam (start stop : Nat) (req : CacheMode) : Act MemtypeState MemtypeError CacheMode := do
  let s ← get
  if req = .wp then fail .invalid
  else
    let req := if req = .uc then .ucMinus else req
    match (frames start stop).find? fun pfn => s.ramMode pfn ≠ .wb with
    | some pfn => fail (.busy (s.ramMode pfn) req)
    | none => do
        modify fun s => { s with ram := (frames start stop).foldl (fun ram pfn =>
          if req = .wb then ram.erase pfn else ram.insert pfn req) s.ram }
        pure req

/-- The type that the first entry that a range overlaps leaves to it. -/
def choice (actual : CacheMode) : Option (Interval CacheMode) → ReservePolicy → Outcome MemtypeError CacheMode
  | none, _ => .ok actual
  | some first, .any => .ok first.value
  | some first, .exact => if first.value ≠ actual then .err (.busy first.value actual) else .ok actual

/-- The type that a range outside RAM gets: that of all the entries that it
overlaps. -/
def settle (overlapping : List (Interval CacheMode)) (actual : CacheMode) (policy : ReservePolicy) :
    Outcome MemtypeError CacheMode := do
  let result ← choice actual overlapping.head? policy
  match overlapping.find? fun entry => entry.value ≠ result with
  | some entry => .err (.busy entry.value result)
  | none => .ok result

def reserveNonRam (start stop : Nat) (actual : CacheMode) (policy : ReservePolicy) :
    Act MemtypeState MemtypeError CacheMode := do
  let s ← get
  let result ← lift (settle (s.nonRam.overlapping start stop) actual policy)
  let nonRam ← expect (s.nonRam.insert start stop result)
  set { s with nonRam := nonRam }
  pure result

def reserve (ram : RamMap) (pat : Bool) (start stop : Nat) (req : CacheMode) (policy : ReservePolicy) :
    Act MemtypeState MemtypeError CacheMode :=
  if start ≥ stop then fail .invalid
  else if pat = false then pure req
  else if isUntracked start stop then pure .wb
  else match classify ram start stop with
    | .mixed => fail .invalid
    | .ram => reserveRam start stop req
    -- without MTRR information, WB outside RAM is UC-
    | .nonRam => reserveNonRam start stop (if req = .wb then .ucMinus else req) policy

def free (ram : RamMap) (pat : Bool) (start stop : Nat) : Act MemtypeState MemtypeError Unit :=
  if pat = false ∨ isUntracked start stop then pure ()
  else match classify ram start stop with
    | .mixed => fail .invalid
    | .ram => modify fun s => { s with ram := (frames start stop).foldl (fun ram pfn => ram.erase pfn) s.ram }
    | .nonRam => do
        let s ← get
        match s.nonRam.removeExact start stop with
        | some (_, nonRam) => set { s with nonRam := nonRam }
        | none => fail .notFound

/-- `None` where the end of the page overflows. -/
def lookup (s : MemtypeState) (ram : RamMap) (pat : Bool) (paddr : Nat) : Option CacheMode :=
  if pat = false then some .wb
  else do
    let stop ← checkedAddBits 64 paddr pageSize
    if isUntracked paddr stop then some .wb
    else match classify ram paddr stop with
      | .ram => some (s.ramMode (paddr / pageSize))
      | _ => some (((s.nonRam.firstOverlapping paddr stop).map Interval.value).getD .ucMinus)

end MemtypeState

variable {ram : RamMap} {start stop x : Nat}

def InRam (ram : RamMap) (x : Nat) : Prop := ∃ range ∈ ram, range.1 ≤ x ∧ x < range.1 + range.2

/-- The first byte of a range that the legacy region does not hide. -/
def visibleStart (start : Nat) : Nat := max start isaEnd

theorem walkPieces_spec (pieces : List (Nat × Nat)) (covered cursor : Nat)
    (hsorted : pieces.Pairwise fun a b => a.1 ≤ b.1) :
    cursor ≤ (walkPieces pieces covered cursor).2 ∧
      (walkPieces pieces covered cursor).1 = covered + ((walkPieces pieces covered cursor).2 - cursor) ∧
      (∀ x, cursor ≤ x → x < (walkPieces pieces covered cursor).2 → ∃ p ∈ pieces, p.1 ≤ x ∧ x < p.2) ∧
      ∀ p ∈ pieces, p.1 ≤ (walkPieces pieces covered cursor).2 → p.2 ≤ (walkPieces pieces covered cursor).2 := by
  induction pieces generalizing covered cursor with
  | nil =>
      refine ⟨Nat.le_refl _, by simp [walkPieces], ?_, by simp⟩
      intro x hx hlt
      exact absurd hlt (Nat.not_lt.mpr hx)
  | cons p pieces ih =>
      obtain ⟨s, e⟩ := p
      obtain ⟨hfirst, hrest⟩ := List.pairwise_cons.mp hsorted
      rw [walkPieces]
      split
      case isTrue hbreak =>
        refine ⟨Nat.le_refl _, by simp, ?_, ?_⟩
        · intro x hx hlt
          exact absurd hlt (Nat.not_lt.mpr hx)
        · intro p hp hle
          rcases List.mem_cons.mp hp with rfl | hp
          · exact absurd hle (Nat.not_le.mpr hbreak)
          · exact absurd (Nat.le_trans (hfirst p hp) hle) (Nat.not_le.mpr hbreak)
      case isFalse hreached =>
        split
        case isTrue hextends =>
          obtain ⟨hle, hcovered, hall, hout⟩ := ih (covered + (e - cursor)) e hrest
          refine ⟨by omega, by omega, ?_, ?_⟩
          · intro x hx hlt
            by_cases hxe : x < e
            · exact ⟨(s, e), by simp, by simp only; omega, hxe⟩
            · obtain ⟨p, hp, hin⟩ := hall x (by omega) hlt
              exact ⟨p, by simp [hp], hin⟩
          · intro p hp hstart
            rcases List.mem_cons.mp hp with rfl | hp
            · exact hle
            · exact hout p hp hstart
        case isFalse hinside =>
          obtain ⟨hle, hcovered, hall, hout⟩ := ih covered cursor hrest
          refine ⟨hle, hcovered, ?_, ?_⟩
          · intro x hx hlt
            obtain ⟨p, hp, hin⟩ := hall x hx hlt
            exact ⟨p, by simp [hp], hin⟩
          · intro p hp hstart
            rcases List.mem_cons.mp hp with rfl | hp
            · simp only
              omega
            · exact hout p hp hstart

theorem mem_pieces (hx : start ≤ x) (hlt : x < stop) (hstop : stop ≤ wordMax) :
    (∃ p ∈ ram.filterMap (piece start stop), p.1 ≤ x ∧ x < p.2) ↔ InRam ram x := by
  constructor
  · rintro ⟨p, hp, hle, hpx⟩
    obtain ⟨range, hrange, hpiece⟩ := List.mem_filterMap.mp hp
    rw [piece] at hpiece
    split at hpiece
    · cases hpiece
      simp only at hle hpx
      exact ⟨range, hrange, by omega, by omega⟩
    · cases hpiece
  · rintro ⟨range, hrange, hle, hrx⟩
    have hpiece : piece start stop range = some (max range.1 start, min (min (range.1 + range.2) wordMax) stop) := by
      rw [piece, if_pos (by omega)]
    refine ⟨_, List.mem_filterMap.mpr ⟨range, hrange, hpiece⟩, ?_, ?_⟩
    · simp only
      omega
    · simp only
      omega

theorem piece_stop_le {p : Nat × Nat} (h : p ∈ ram.filterMap (piece start stop)) : p.2 ≤ stop := by
  obtain ⟨range, _, hpiece⟩ := List.mem_filterMap.mp h
  rw [piece] at hpiece
  split at hpiece
  · cases hpiece
    exact Nat.min_le_right _ _
  · cases hpiece

/-- The walk over RAM from `start` ends at the first byte outside RAM. -/
theorem classify_walk (ram : RamMap) (hlt : visibleStart start < stop) (hstop : stop ≤ wordMax) :
    ∃ cursor, visibleStart start ≤ cursor ∧ cursor ≤ stop ∧
      (∀ x, visibleStart start ≤ x → x < cursor → InRam ram x) ∧ (cursor < stop → ¬ InRam ram cursor) ∧
      classify ram start stop =
        if cursor = visibleStart start then .nonRam
        else if cursor ≥ stop then .ram
        else .mixed := by
  have hsorted := List.pairwise_insertionSort (fun a b => toLex a ≤ toLex b)
    (ram.filterMap (piece (visibleStart start) stop))
  generalize hpieces : (ram.filterMap (piece (visibleStart start) stop)).insertionSort (fun a b => toLex a ≤ toLex b) =
    pieces at hsorted
  have hmem : ∀ p, p ∈ pieces ↔ p ∈ ram.filterMap (piece (visibleStart start) stop) := by
    intro p
    rw [← hpieces, List.mem_insertionSort]
  have hstarts : pieces.Pairwise fun a b => a.1 ≤ b.1 := by
    refine hsorted.imp ?_
    intro a b hab
    rcases Prod.Lex.toLex_le_toLex.mp hab with hab | hab
    · exact Nat.le_of_lt hab
    · exact Nat.le_of_eq hab.1
  obtain ⟨hle, hcovered, hall, hout⟩ := walkPieces_spec pieces 0 (visibleStart start) hstarts
  generalize hcursor : (walkPieces pieces 0 (visibleStart start)).2 = cursor at hle hcovered hall hout
  have hbound : cursor ≤ stop := by
    by_contra hover
    obtain ⟨p, hp, _, hpx⟩ := hall (cursor - 1) (by omega) (by omega)
    have hpstop := piece_stop_le ((hmem p).mp hp)
    omega
  refine ⟨cursor, hle, hbound, ?_, ?_, ?_⟩
  · intro x hx hxc
    obtain ⟨p, hp, hin⟩ := hall x hx hxc
    exact (mem_pieces hx (by omega) hstop).mp ⟨p, (hmem p).mp hp, hin⟩
  · intro hend hram
    obtain ⟨p, hp, hple, hplt⟩ := (mem_pieces hle hend hstop).mpr hram
    have hpout := hout p ((hmem p).mpr hp) hple
    omega
  · have hclassify : classify ram start stop =
        if (walkPieces pieces 0 (visibleStart start)).1 = 0 then .nonRam
        else if (walkPieces pieces 0 (visibleStart start)).2 ≥ stop then .ram else .mixed := by
      rw [← hpieces, classify]
      exact if_neg (Nat.not_le.mpr hlt)
    rw [hclassify, hcovered, hcursor]
    have hzero : 0 + (cursor - visibleStart start) = 0 ↔ cursor = visibleStart start := by omega
    simp only [hzero]

theorem classify_hidden (h : stop ≤ visibleStart start) : classify ram start stop = .nonRam := by
  rw [classify]
  simp only
  exact if_pos h

/-- Nothing but the first byte decides that a range is outside RAM. -/
theorem classify_eq_nonRam (hstop : stop ≤ wordMax) :
    classify ram start stop = .nonRam ↔ stop ≤ visibleStart start ∨ ¬ InRam ram (visibleStart start) := by
  by_cases hlt : visibleStart start < stop
  · obtain ⟨cursor, hle, hbound, hall, hout, hclassify⟩ := classify_walk ram hlt hstop
    rw [hclassify]
    constructor
    · intro hkind
      split at hkind
      case isTrue heq =>
        rw [← heq]
        exact .inr (hout (by omega))
      case isFalse => split at hkind <;> cases hkind
    · rintro (hhidden | hnot)
      · omega
      · rw [if_pos]
        by_contra hne
        exact hnot (hall _ (Nat.le_refl _) (by omega))
  · exact ⟨fun _ => .inl (by omega), fun _ => classify_hidden (by omega)⟩

theorem classify_eq_ram (hstop : stop ≤ wordMax) : classify ram start stop = .ram ↔
    visibleStart start < stop ∧ ∀ x, visibleStart start ≤ x → x < stop → InRam ram x := by
  by_cases hlt : visibleStart start < stop
  · obtain ⟨cursor, hle, hbound, hall, hout, hclassify⟩ := classify_walk ram hlt hstop
    rw [hclassify]
    constructor
    · intro hkind
      refine ⟨hlt, ?_⟩
      split at hkind
      · cases hkind
      · split at hkind
        case isTrue hend => exact fun x hx hxs => hall x hx (by omega)
        case isFalse => cases hkind
    · rintro ⟨_, hram⟩
      have hend : stop ≤ cursor := by
        by_contra hbefore
        exact hout (by omega) (hram cursor hle (by omega))
      rw [if_neg (by omega), if_pos hend]
  · rw [classify_hidden (by omega)]
    refine ⟨fun h => ?_, fun h => absurd h.1 hlt⟩
    cases h

theorem classify_eq_mixed (hstop : stop ≤ wordMax) : classify ram start stop = .mixed ↔
    InRam ram (visibleStart start) ∧ ∃ x, visibleStart start ≤ x ∧ x < stop ∧ ¬ InRam ram x := by
  constructor
  · intro hkind
    have hnonRam : ¬ (stop ≤ visibleStart start ∨ ¬ InRam ram (visibleStart start)) := by
      rw [← classify_eq_nonRam hstop, hkind]
      simp
    have hram : ¬ (visibleStart start < stop ∧ ∀ x, visibleStart start ≤ x → x < stop → InRam ram x) := by
      rw [← classify_eq_ram hstop, hkind]
      simp
    rw [not_or, not_not] at hnonRam
    refine ⟨hnonRam.2, ?_⟩
    by_contra hall
    apply hram
    refine ⟨by omega, ?_⟩
    intro x hx hlt
    by_contra hnot
    exact hall ⟨x, hx, hlt, hnot⟩
  · rintro ⟨hfirst, x, hx, hlt, hnot⟩
    cases hkind : classify ram start stop with
    | mixed => rfl
    | nonRam =>
        rcases (classify_eq_nonRam hstop).mp hkind with hhidden | hout
        · omega
        · exact absurd hfirst hout
    | ram => exact absurd (((classify_eq_ram hstop).mp hkind).2 x hx hlt) hnot

end TheKernel.Memtype
