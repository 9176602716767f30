import Mathlib.Data.Finset.Card
import Mathlib.Order.Interval.Finset.Basic
import Mathlib.Data.Int.Interval
import TheKernel.Lib.Machine

namespace TheKernel.Ipc

def ipcmniShift : Nat := 15

def ipcmni : Int := 2 ^ ipcmniShift

def ipcmniIdxMask : Int := ipcmni - 1

def ipcMinCycle : Int := 64

/-- `i32::MAX >> IPCMNI_SHIFT`. -/
def ipcidSeqMax : Int := (2 ^ 31 - 1) / 2 ^ ipcmniShift

def ipcidToIdx (id : Int) : Int := (BitVec.ofInt 32 id &&& BitVec.ofInt 32 ipcmniIdxMask).toInt

def ipcidToSeqx (id : Int) : Int := ((BitVec.ofInt 32 id).sshiftRight ipcmniShift).toInt

def ipcidCompose (index sequence : Int) : Int := i32 ((BitVec.ofInt 32 sequence <<< ipcmniShift).toInt + index)

inductive IpcError where
  | noSpace

structure IpcId where
  index : Int
  sequence : Int
  deriving DecidableEq

def IpcId.raw (id : IpcId) : Int := ipcidCompose id.index id.sequence

structure IpcIdTable where
  inUse : Int
  sequence : Int
  maxIndex : Int
  lastIndex : Int
  next : Int

/-- The loop of `first_free`, with the number of indices still to be looked at. -/
def firstFreeFrom (isUsed : Int → Bool) : Nat → Int → Option Int
  | 0, _ => none
  | n + 1, index => if isUsed index then firstFreeFrom isUsed n (index + 1) else some index

def firstFree (start stop : Int) (isUsed : Int → Bool) : Option Int :=
  firstFreeFrom isUsed (stop - max start 0).toNat (max start 0)

/-- The loop of `release`, downwards from a candidate. -/
def lastUsedFrom (isUsed : Int → Bool) : Nat → Int → Int
  | 0, candidate => candidate
  | n + 1, candidate => if 0 ≤ candidate ∧ ¬ isUsed candidate then lastUsedFrom isUsed n (candidate - 1) else candidate

namespace IpcIdTable

def new : IpcIdTable := ⟨0, 0, -1, -1, 0⟩

/-- The method `max_index`, which reads the field of that name only between the two ends. -/
def getMaxIndex (t : IpcIdTable) : Int :=
  if t.inUse = 0 then -1 else if ipcmni ≤ t.inUse then ipcmni - 1 else t.maxIndex

def register (t : IpcIdTable) (index : Int) : IpcIdTable :=
  { t with inUse := i32 (t.inUse + 1), maxIndex := if t.maxIndex < index then index else t.maxIndex }

def window (t : IpcIdTable) : Int := max ipcMinCycle (min ((i32 (t.inUse * 3)).tdiv 2) ipcmni)

def nextSequence (t : IpcIdTable) (index : Int) : Int :=
  if index ≤ t.lastIndex then
    if ipcidSeqMax ≤ i32 (t.sequence + 1) then 0 else i32 (t.sequence + 1)
  else t.sequence

/-- The end of `allocate(None)`, once the index is found. -/
def advance (t : IpcIdTable) (index : Int) : IpcIdTable :=
  IpcIdTable.register { t with sequence := t.nextSequence index, lastIndex := index, next := i32 (index + 1) } index

def publish (t : IpcIdTable) : Option Int → IpcIdTable × Except IpcError IpcId
  | none => (t, .error .noSpace)
  | some index => (t.advance index, .ok ⟨index, t.nextSequence index⟩)

/-- `allocate(None)`: on from the cursor, then from the start of the window. -/
def allocateCyclic (t : IpcIdTable) (isUsed : Int → Bool) : IpcIdTable × Except IpcError IpcId :=
  t.publish ((firstFree t.next t.window isUsed).or (firstFree 0 t.window isUsed))

def allocateRequested (t : IpcIdTable) (requested : Int) (isUsed : Int → Bool) : IpcIdTable × Except IpcError IpcId :=
  match firstFree (ipcidToIdx requested) ipcmni isUsed with
  | none => (t, .error .noSpace)
  | some index => (t.register index, .ok ⟨index, ipcidToSeqx requested⟩)

/-- The table a method on `&mut self` leaves behind, and its result. -/
def allocate (t : IpcIdTable) (requested : Option Int) (isUsed : Int → Bool) : IpcIdTable × Except IpcError IpcId :=
  match requested with
  | some requested => t.allocateRequested requested isUsed
  | none => t.allocateCyclic isUsed

def release (t : IpcIdTable) (index : Int) (isUsed : Int → Bool) : IpcIdTable :=
  { t with
    inUse := max (t.inUse - 1) (-2 ^ 31)
    maxIndex := if index = t.maxIndex then lastUsedFrom isUsed index.toNat (index - 1) else t.maxIndex }

end IpcIdTable

/-- A table and the indices that hold an object: the keys of the manager's map,
which both closures passed to the table read. -/
structure Manager where
  ids : IpcIdTable
  live : Finset Int

namespace Manager

def new : Manager := ⟨.new, ∅⟩

def isUsed (m : Manager) (index : Int) : Bool := index ∈ m.live

/-- `allocate` comes with the configured limit, which `semget` and its siblings
compare with the number of objects first. -/
inductive Op where
  | allocate (limit : Nat)
  | release (index : Int)

def create (m : Manager) (limit : Nat) : Manager × Except IpcError IpcId :=
  if limit ≤ m.live.card then (m, .error .noSpace)
  else match m.ids.allocate none m.isUsed with
    | (ids, .error e) => (⟨ids, m.live⟩, .error e)
    | (ids, .ok id) => (⟨ids, insert id.index m.live⟩, .ok id)

/-- `remove_semid`: the object leaves the map before the table is told. -/
def remove (m : Manager) (index : Int) : Manager :=
  let live := m.live.erase index
  ⟨m.ids.release index fun i => i ∈ live, live⟩

def step (m : Manager) : Op → Manager
  | .allocate limit => (m.create limit).1
  | .release index => m.remove index

def issued (m : Manager) : Op → Option IpcId
  | .allocate limit => (m.create limit).2.toOption
  | .release _ => none

def after (ops : Nat → Op) : Nat → Manager
  | 0 => .new
  | t + 1 => (after ops t).step (ops t)

end Manager

section Identifiers

theorem ipcmni_eq : ipcmni = 32768 := by decide

theorem ipcidSeqMax_eq : ipcidSeqMax = 65535 := by decide

theorem toInt_ofNat {n : Nat} (h : n < 2 ^ 31) : (BitVec.ofNat 32 n).toInt = n := by
  rw [BitVec.toInt_eq_toNat_of_lt] <;> rw [BitVec.toNat_ofNat] <;> omega

variable {index sequence : Int} (hi : 0 ≤ index) (hi' : index < ipcmni) (hs : 0 ≤ sequence)
  (hs' : sequence < ipcidSeqMax)

include hi hi' hs hs'

theorem ipcidCompose_eq : ipcidCompose index sequence = sequence * ipcmni + index := by
  rw [ipcmni_eq] at hi' ⊢
  rw [ipcidSeqMax_eq] at hs'
  obtain ⟨s, rfl⟩ := Int.eq_ofNat_of_zero_le hs
  have hshift : (BitVec.ofInt 32 (s : Int) <<< ipcmniShift).toInt = s * 32768 := by
    have hnat : BitVec.ofInt 32 (s : Int) <<< ipcmniShift = BitVec.ofNat 32 (s * 32768) := by
      apply BitVec.eq_of_toNat_eq
      rw [BitVec.toNat_shiftLeft, BitVec.ofInt_natCast, BitVec.toNat_ofNat, BitVec.toNat_ofNat, Nat.shiftLeft_eq,
        ipcmniShift]
      omega
    rw [hnat, toInt_ofNat (by omega)]
    omega
  rw [ipcidCompose, hshift, i32_eq] <;> omega

theorem ipcidToIdx_compose : ipcidToIdx (ipcidCompose index sequence) = index := by
  rw [ipcidCompose_eq hi hi' hs hs']
  rw [ipcmni_eq] at hi' ⊢
  rw [ipcidSeqMax_eq] at hs'
  obtain ⟨s, rfl⟩ := Int.eq_ofNat_of_zero_le hs
  obtain ⟨i, rfl⟩ := Int.eq_ofNat_of_zero_le hi
  have hid : (s : Int) * 32768 + i = ((s * 32768 + i : Nat) : Int) := by omega
  have hmask : BitVec.ofInt 32 ipcmniIdxMask = BitVec.ofNat 32 (2 ^ 15 - 1) := by decide
  rw [ipcidToIdx, hid, BitVec.ofInt_natCast, hmask, ← BitVec.ofNat_and, Nat.and_two_pow_sub_one_eq_mod,
    toInt_ofNat] <;> omega

end Identifiers

theorem firstFreeFrom_eq_some {isUsed : Int → Bool} {n : Nat} {start index : Int}
    (h : firstFreeFrom isUsed n start = some index) : start ≤ index ∧ index < start + n ∧ isUsed index = false := by
  induction n generalizing start with
  | zero => cases h
  | succ n ih =>
      rw [firstFreeFrom] at h
      split at h
      · obtain ⟨hle, hlt, hfree⟩ := ih h
        exact ⟨by omega, by omega, hfree⟩
      · rename_i hfree
        cases h
        exact ⟨Int.le_refl _, by omega, by simpa using hfree⟩

theorem firstFree_eq_some {isUsed : Int → Bool} {start stop index : Int}
    (h : firstFree start stop isUsed = some index) : 0 ≤ index ∧ index < stop ∧ isUsed index = false := by
  obtain ⟨hle, hlt, hfree⟩ := firstFreeFrom_eq_some h
  exact ⟨by omega, by omega, hfree⟩

/-- The downward scan ends at the highest used index below its start. -/
theorem lastUsedFrom_spec (isUsed : Int → Bool) {n : Nat} (candidate : Int) (hc : candidate < n) (hn : -1 ≤ candidate) :
    -1 ≤ lastUsedFrom isUsed n candidate ∧
      (0 ≤ lastUsedFrom isUsed n candidate → isUsed (lastUsedFrom isUsed n candidate) = true) ∧
      ∀ i, 0 ≤ i → i ≤ candidate → isUsed i = true → i ≤ lastUsedFrom isUsed n candidate := by
  induction n generalizing candidate with
  | zero =>
      rw [lastUsedFrom]
      exact ⟨hn, fun h => by omega, fun i _ hi _ => hi⟩
  | succ n ih =>
      rw [lastUsedFrom]
      split
      · rename_i hfree
        obtain ⟨hge, hused, hmax⟩ := ih (candidate - 1) (by omega) (by omega)
        refine ⟨hge, hused, fun i hi hle hi' => hmax i hi ?_ hi'⟩
        rcases Int.lt_or_eq_of_le hle with hlt | rfl
        · omega
        · exact absurd hi' hfree.2
      · rename_i hstop
        refine ⟨hn, fun h => ?_, fun i _ hi _ => hi⟩
        by_contra hunused
        exact hstop ⟨h, hunused⟩

structure Manager.Sound (m : Manager) : Prop where
  inUse : m.ids.inUse = m.live.card
  range : ∀ i ∈ m.live, 0 ≤ i ∧ i < ipcmni
  max_le : ∀ i ∈ m.live, i ≤ m.ids.maxIndex
  max_mem : m.ids.maxIndex = -1 ∨ m.ids.maxIndex ∈ m.live
  sequence : 0 ≤ m.ids.sequence ∧ m.ids.sequence < ipcidSeqMax
  lastIndex : -1 ≤ m.ids.lastIndex ∧ m.ids.lastIndex < ipcmni

namespace Manager

def rank (m : Manager) : Int := m.ids.sequence * ipcmni + m.ids.lastIndex

/-- The sequence counter returns from its last value to `0`. -/
def Wraps (m m' : Manager) : Prop := m.ids.sequence = ipcidSeqMax - 1 ∧ m'.ids.sequence = 0

def IsHighest (live : Finset Int) (i : Int) : Prop := (live = ∅ ∧ i = -1) ∨ (i ∈ live ∧ ∀ j ∈ live, j ≤ i)

variable {m m' : Manager}

theorem sound_new : Sound new where
  inUse := rfl
  range := by simp [new]
  max_le := by simp [new]
  max_mem := .inl rfl
  sequence := by decide
  lastIndex := by decide

theorem Sound.card_le (h : Sound m) : (m.live.card : Int) ≤ ipcmni := by
  have hsub : m.live ⊆ Finset.Ico 0 ipcmni := fun i hi => Finset.mem_Ico.mpr (h.range i hi)
  have := Finset.card_le_card hsub
  rw [Int.card_Ico, ipcmni_eq] at this
  rw [ipcmni_eq]
  omega

theorem Sound.isHighest (h : Sound m) : IsHighest m.live m.ids.getMaxIndex := by
  rw [IpcIdTable.getMaxIndex, h.inUse]
  split
  · rename_i hzero
    exact .inl ⟨Finset.card_eq_zero.mp (by omega), rfl⟩
  · rename_i hpos
    split
    · rename_i hfull
      have hsub : m.live ⊆ Finset.Ico 0 ipcmni := fun i hi => Finset.mem_Ico.mpr (h.range i hi)
      have hall : m.live = Finset.Ico 0 ipcmni := by
        apply Finset.eq_of_subset_of_card_le hsub
        rw [Int.card_Ico]
        omega
      refine .inr ⟨?_, fun j hj => ?_⟩
      · rw [hall, Finset.mem_Ico, ipcmni_eq]
        omega
      · have := h.range j hj
        omega
    · refine .inr ⟨?_, h.max_le⟩
      rcases h.max_mem with hnone | hmem
      · obtain ⟨i, hi⟩ : m.live.Nonempty := Finset.card_pos.mp (by omega)
        have := h.max_le i hi
        have := h.range i hi
        omega
      · exact hmem

theorem allocate_none_cases (t : IpcIdTable) (isUsed : Int → Bool) :
    t.allocate none isUsed = (t, .error .noSpace) ∨
      ∃ index, 0 ≤ index ∧ index < ipcmni ∧ isUsed index = false ∧
        t.allocate none isUsed = (t.advance index, .ok ⟨index, t.nextSequence index⟩) := by
  rw [IpcIdTable.allocate, IpcIdTable.allocateCyclic]
  cases hfree : (firstFree t.next t.window isUsed).or (firstFree 0 t.window isUsed) with
  | none => exact .inl rfl
  | some index =>
      have hwindow : t.window ≤ ipcmni := by
        simp only [IpcIdTable.window, ipcMinCycle, ipcmni_eq]
        omega
      have hspec : 0 ≤ index ∧ index < t.window ∧ isUsed index = false := by
        rcases Option.or_eq_some_iff.mp hfree with hfirst | ⟨-, hsecond⟩
        · exact firstFree_eq_some hfirst
        · exact firstFree_eq_some hsecond
      exact .inr ⟨index, hspec.1, by omega, hspec.2.2, rfl⟩

/-- What a creation does: nothing, or it issues an unused index. -/
theorem create_cases (m : Manager) (limit : Nat) :
    m.create limit = (m, .error .noSpace) ∨
      ∃ index, index ∉ m.live ∧ 0 ≤ index ∧ index < ipcmni ∧ m.create limit =
        (⟨⟨i32 (m.ids.inUse + 1), m.ids.nextSequence index, if m.ids.maxIndex < index then index else m.ids.maxIndex,
          index, i32 (index + 1)⟩, insert index m.live⟩, .ok ⟨index, m.ids.nextSequence index⟩) := by
  rw [create]
  split
  · exact .inl rfl
  · rcases allocate_none_cases m.ids m.isUsed with hfull | ⟨index, hnonneg, hlt, hunused, hok⟩
    · rw [hfull]
      exact .inl rfl
    · rw [hok]
      exact .inr ⟨index, by simpa [isUsed] using hunused, hnonneg, hlt, rfl⟩

theorem Sound.nextSequence (h : Sound m) (index : Int) :
    0 ≤ m.ids.nextSequence index ∧ m.ids.nextSequence index < ipcidSeqMax := by
  obtain ⟨hge, hlt⟩ := h.sequence
  rw [IpcIdTable.nextSequence]
  rw [ipcidSeqMax_eq] at hlt ⊢
  rw [i32_eq (by omega) (by omega)]
  split
  · split <;> omega
  · exact ⟨hge, hlt⟩

theorem sound_create (h : Sound m) (limit : Nat) : Sound (m.create limit).1 := by
  rcases create_cases m limit with hfull | ⟨index, hfresh, hnonneg, hlt, hok⟩
  · rw [hfull]
    exact h
  · rw [hok]
    have hcard := h.card_le
    rw [ipcmni_eq] at hcard
    refine ⟨?_, ?_, ?_, ?_, h.nextSequence index, Int.le_trans (by decide) hnonneg, hlt⟩
    · show i32 (m.ids.inUse + 1) = ((insert index m.live).card : Int)
      rw [Finset.card_insert_of_notMem hfresh, h.inUse, i32_eq (by omega) (by omega)]
      omega
    · intro i hi
      rcases Finset.mem_insert.mp hi with rfl | hi
      · exact ⟨hnonneg, hlt⟩
      · exact h.range i hi
    · intro i hi
      show i ≤ if m.ids.maxIndex < index then index else m.ids.maxIndex
      rcases Finset.mem_insert.mp hi with rfl | hi
      · split <;> omega
      · have := h.max_le i hi
        split <;> omega
    · show (if m.ids.maxIndex < index then index else m.ids.maxIndex) = -1 ∨
        (if m.ids.maxIndex < index then index else m.ids.maxIndex) ∈ insert index m.live
      split
      · exact .inr (Finset.mem_insert_self _ _)
      · exact h.max_mem.imp_right (Finset.mem_insert_of_mem)

theorem sound_remove (h : Sound m) {index : Int} (hindex : index ∈ m.live) : Sound (m.remove index) := by
  have hcard := h.card_le
  have hpos := Finset.card_pos.mpr ⟨index, hindex⟩
  obtain ⟨hnonneg, hlt⟩ := h.range index hindex
  have hscan := lastUsedFrom_spec (fun i => decide (i ∈ m.live.erase index)) (n := index.toNat)
    (index - 1) (by omega) (by omega)
  simp only [decide_eq_true_eq] at hscan
  obtain ⟨hge, hused, hmax⟩ := hscan
  refine ⟨?_, fun i hi => h.range i (Finset.mem_of_mem_erase hi), ?_, ?_, h.sequence, h.lastIndex⟩
  · show max (m.ids.inUse - 1) (-2 ^ 31) = ((m.live.erase index).card : Int)
    rw [Finset.card_erase_of_mem hindex, h.inUse]
    omega
  · intro i hi
    show i ≤ if index = m.ids.maxIndex then _ else m.ids.maxIndex
    have hle := h.max_le i (Finset.mem_of_mem_erase hi)
    have hne := Finset.ne_of_mem_erase hi
    split
    · rename_i htop
      exact hmax i (h.range i (Finset.mem_of_mem_erase hi)).1 (by omega) hi
    · exact hle
  · show (if index = m.ids.maxIndex then _ else m.ids.maxIndex) = -1 ∨
      (if index = m.ids.maxIndex then _ else m.ids.maxIndex) ∈ m.live.erase index
    split
    · by_cases hnone : 0 ≤ lastUsedFrom (fun i => decide (i ∈ m.live.erase index)) index.toNat (index - 1)
      · exact .inr (hused hnone)
      · exact .inl (by omega)
    · rename_i hother
      exact h.max_mem.imp_right fun hmem => Finset.mem_erase.mpr ⟨Ne.symm hother, hmem⟩

/-- The operations of a run release only indices in use. -/
def Admissible (ops : Nat → Op) : Prop := ∀ t index, ops t = .release index → index ∈ (after ops t).live

theorem sound_after {ops : Nat → Op} (hops : Admissible ops) (t : Nat) : Sound (after ops t) := by
  induction t with
  | zero => exact sound_new
  | succ t ih =>
      rw [after]
      cases hop : ops t with
      | allocate limit => exact sound_create ih limit
      | release index => exact sound_remove ih (hops t index hop)

theorem create_of_issued {limit : Nat} {id : IpcId} (hid : m.issued (.allocate limit) = some id) :
    id.index ∉ m.live ∧ 0 ≤ id.index ∧ id.index < ipcmni ∧ id.sequence = m.ids.nextSequence id.index ∧
      (m.create limit).1.ids.sequence = id.sequence ∧ (m.create limit).1.ids.lastIndex = id.index := by
  rw [issued] at hid
  rcases create_cases m limit with hfull | ⟨index, hfresh, hnonneg, hlt, hok⟩
  · rw [hfull] at hid
    cases hid
  · rw [hok] at hid ⊢
    cases hid
    exact ⟨hfresh, hnonneg, hlt, rfl, rfl, rfl⟩

theorem rank_of_issued (h : Sound m) {op : Op} {id : IpcId} (hid : m.issued op = some id) :
    id.raw = (m.step op).rank ∧ id.index ∉ m.live ∧ 0 ≤ id.raw ∧ ipcidToIdx id.raw = id.index := by
  cases op with
  | release index => cases hid
  | allocate limit =>
      obtain ⟨hfresh, hnonneg, hlt, hseq, hseq', hlast⟩ := create_of_issued hid
      have hrange := h.nextSequence id.index
      rw [← hseq] at hrange
      have hraw : id.raw = id.sequence * ipcmni + id.index := ipcidCompose_eq hnonneg hlt hrange.1 hrange.2
      refine ⟨?_, hfresh, ?_, ipcidToIdx_compose hnonneg hlt hrange.1 hrange.2⟩
      · rw [hraw, rank, step, hseq', hlast]
      · rw [hraw, ipcmni_eq]
        omega

/-- Until the counter wraps, an allocation moves the rank up and nothing moves it down. -/
theorem rank_lt_of_issued (h : Sound m) {op : Op} {id : IpcId} (hid : m.issued op = some id)
    (hwrap : ¬ Wraps m (m.step op)) : m.rank < (m.step op).rank := by
  cases op with
  | release index => cases hid
  | allocate limit =>
      obtain ⟨hfresh, hnonneg, hlt, hseq, hseq', hlast⟩ := create_of_issued hid
      obtain ⟨hge, hmax⟩ := h.sequence
      have hlast' := h.lastIndex
      rw [Wraps, step, hseq', hseq, IpcIdTable.nextSequence] at hwrap
      rw [rank, rank, step, hseq', hlast, hseq, IpcIdTable.nextSequence]
      rw [ipcidSeqMax_eq] at hmax hwrap ⊢
      rw [i32_eq (by omega) (by omega)] at hwrap ⊢
      rw [ipcmni_eq] at hlt hlast' ⊢
      split at hwrap
      · split at hwrap
        · exact absurd ⟨by omega, rfl⟩ hwrap
        · rename_i hle hroom
          rw [if_pos hle, if_neg hroom]
          omega
      · rename_i hgt
        rw [if_neg hgt]
        omega

theorem step_of_not_issued {op : Op} (hnone : m.issued op = none) : (m.step op).rank = m.rank := by
  cases op with
  | release index => rfl
  | allocate limit =>
      rcases create_cases m limit with hfull | ⟨index, -, -, -, hok⟩
      · rw [step, hfull]
      · rw [issued, hok] at hnone
        cases hnone

theorem rank_le_after {ops : Nat → Op} (hops : Admissible ops) {t n : Nat}
    (hwrap : ∀ k, t ≤ k → k < t + n → ¬ Wraps (after ops k) (after ops (k + 1))) :
    (after ops t).rank ≤ (after ops (t + n)).rank := by
  induction n with
  | zero => exact Int.le_refl _
  | succ n ih =>
      have hle := ih fun k hk hk' => hwrap k hk (by omega)
      refine Int.le_trans hle ?_
      have hstep : after ops (t + (n + 1)) = (after ops (t + n)).step (ops (t + n)) := rfl
      have hno := hwrap (t + n) (by omega) (by omega)
      rw [hstep]
      cases hissued : (after ops (t + n)).issued (ops (t + n)) with
      | none => exact Int.le_of_eq (step_of_not_issued hissued).symm
      | some id => exact Int.le_of_lt (rank_lt_of_issued (sound_after hops (t + n)) hissued hno)

/-- In every run that releases only indices in use, under any limits: the table
counts and bounds the live indices exactly, issues only free indices under
nonnegative identifiers that decode to them, issues no identifier again before
the sequence counter wraps, and a refused allocation changes nothing. -/
theorem ids_sound (ops : Nat → Op) (hops : Admissible ops) :
    (∀ t, (after ops t).ids.inUse = (after ops t).live.card ∧ IsHighest (after ops t).live
      (after ops t).ids.getMaxIndex) ∧
    (∀ t id, (after ops t).issued (ops t) = some id →
      id.index ∉ (after ops t).live ∧ 0 ≤ id.raw ∧ ipcidToIdx id.raw = id.index) ∧
    (∀ t u id id', t < u → (after ops t).issued (ops t) = some id → (after ops u).issued (ops u) = some id' →
      id.raw = id'.raw → ∃ k, t < k ∧ k ≤ u ∧ Wraps (after ops k) (after ops (k + 1))) ∧
    (∀ t limit, ops t = .allocate limit → (after ops t).issued (ops t) = none → after ops (t + 1) = after ops t) := by
  refine ⟨fun t => ⟨(sound_after hops t).inUse, (sound_after hops t).isHighest⟩, ?_, ?_, ?_⟩
  · intro t id hid
    exact (rank_of_issued (sound_after hops t) hid).2
  · intro t u id id' htu hid hid' heq
    by_contra hwrap
    have hno (k : Nat) (hk : t < k) (hk' : k ≤ u) : ¬ Wraps (after ops k) (after ops (k + 1)) :=
      fun hw => hwrap ⟨k, hk, hk', hw⟩
    obtain ⟨n, rfl⟩ := Nat.exists_eq_add_of_le (Nat.succ_le_of_lt htu)
    have hle := rank_le_after hops (t := t + 1) (n := n) fun k hk hk' => hno k (by omega) (by omega)
    have hlt := rank_lt_of_issued (sound_after hops (t + 1 + n)) hid' (hno _ (by omega) (Nat.le_refl _))
    rw [(rank_of_issued (sound_after hops t) hid).1, (rank_of_issued (sound_after hops _) hid').1] at heq
    rw [← heq] at hlt
    exact Int.not_lt.mpr hle hlt
  · intro t limit hop hnone
    rw [after, hop, step]
    rw [hop, issued] at hnone
    rcases create_cases (after ops t) limit with hfull | ⟨index, -, -, -, hok⟩
    · rw [hfull]
    · rw [hok] at hnone
      cases hnone

def createTwice : Nat → Op
  | 0 => .allocate 32000
  | 1 => .release 0
  | 2 => .allocate 32000
  | _ => .allocate 0

theorem admissible_createTwice : Admissible createTwice := by
  intro t index hop
  match t, hop with
  | 1, hop =>
      cases hop
      decide
  | 0, hop | 2, hop | _ + 3, hop => cases hop

theorem ids_sound_createTwice :
    Admissible createTwice ∧ (after createTwice 2).issued (createTwice 2) = some ⟨1, 0⟩ ∧
      1 ∉ (after createTwice 2).live ∧ ipcidToIdx (IpcId.raw ⟨1, 0⟩) = 1 :=
  have hissued : (after createTwice 2).issued (createTwice 2) = some ⟨1, 0⟩ := by decide
  have hsound := (ids_sound createTwice admissible_createTwice).2.1 2 ⟨1, 0⟩ hissued
  ⟨admissible_createTwice, hissued, hsound.1, hsound.2.2⟩

end Manager

end TheKernel.Ipc
