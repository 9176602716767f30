import Mathlib.Data.List.Basic
import TheKernel.Pipe.Transfers

namespace TheKernel.Pipe

open Act

/-- What a source with these answers gives to a read of `n` bytes, and the answers
it has left; `none` when the read fails. -/
def heard (n : Nat) : List Answer → Option (Nat × List Answer)
  | [] => some (n, [])
  | ⟨count, none⟩ :: answers => some (min count n, answers)
  | ⟨_, some _⟩ :: _ => none

/-- The same for reads of these lengths, one after the other. A read that falls
short is the last one. -/
def given : List Nat → List Answer → Option (Nat × List Answer)
  | [], answers => some (0, answers)
  | n :: ns, answers =>
      match heard n answers with
      | none => none
      | some (count, rest) =>
          if count < n then some (count, rest) else (given ns rest).map fun later => (count + later.1, later.2)

theorem heard_le {n count : Nat} {answers rest : List Answer} (h : heard n answers = some (count, rest)) :
    count ≤ n := by
  match answers, h with
  | [], h =>
      cases h
      exact Nat.le_refl _
  | ⟨_, none⟩ :: _, h =>
      cases h
      exact Nat.min_le_right _ _

theorem given_singleton (n : Nat) (answers : List Answer) : given [n] answers = heard n answers := by
  rw [given]
  rcases heard n answers with _ | ⟨count, rest⟩
  · rfl
  · simp [given]

/-- Reads that go on where others have filled their buffers. -/
theorem given_append_eq_some {xs ys : List Nat} {answers rest : List Answer} {d : Nat} :
    given (xs ++ ys) answers = some (xs.sum + d, rest) ↔
      ∃ mid, given xs answers = some (xs.sum, mid) ∧ given ys mid = some (d, rest) := by
  induction xs generalizing answers with
  | nil => simp [given]
  | cons n ns ih =>
      rw [List.cons_append, given, given, List.sum_cons]
      rcases hheard : heard n answers with _ | ⟨count, later⟩
      · simp
      · have hle := heard_le hheard
        simp only
        by_cases hshort : count < n
        · rw [if_pos hshort, if_pos hshort]
          constructor
          · intro h
            cases h
            omega
          · rintro ⟨mid, h, -⟩
            cases h
            omega
        · obtain rfl : count = n := by omega
          have hmap : ∀ (g : Option (Nat × List Answer)) (c : Nat) (rest : List Answer),
              g.map (fun later => (count + later.1, later.2)) = some (count + c, rest) ↔ g = some (c, rest) := by
            rintro (_ | ⟨c', rest'⟩) c rest <;> simp
          rw [if_neg hshort, if_neg hshort, Nat.add_assoc, hmap, ih]
          exact exists_congr fun mid => and_congr_left fun _ => (hmap _ _ _).symm

theorem given_all (ns : List Nat) : given ns [] = some (ns.sum, []) := by
  induction ns with
  | nil => rfl
  | cons n ns ih => simp [given, heard, ih]

theorem IoSrc.read_heard {s : IoSrc} (n : Nat) :
    (heard n s.answers = none → ∃ e t, IoSrc.read n s = (.err e, t)) ∧
      ∀ count rest, heard n s.answers = some (count, rest) →
        IoSrc.read n s = (.ok (s.bytes.take count), ⟨s.bytes.drop count, rest⟩) := by
  obtain ⟨bytes, answers⟩ := s
  match answers with
  | [] => simp [heard, IoSrc.read]
  | ⟨_, some e⟩ :: _ => simp [heard, IoSrc.read]
  | ⟨_, none⟩ :: _ => simp [heard, IoSrc.read]

/-- The lengths of the reads that put `len` bytes behind the first `offset` bytes of
the vacant region: one for each of its slices. -/
def PipeRing.reads (r : PipeRing) (offset len : Nat) : List Nat :=
  let left := r.bytes.vacantSlices.1
  if offset < left ∧ left < offset + len then [left - offset, offset + len - left] else [len]

theorem PipeRing.sum_reads (r : PipeRing) (offset len : Nat) : (r.reads offset len).sum = len := by
  rw [reads]
  split
  · simp only [List.sum_cons, List.sum_nil]
    omega
  · simp

section Copies

variable {r : PipeRing} {s : IoSrc} {n : Nat}

theorem onSrc_of_read {α : Type} {x : Act IoSrc AxError α} {o : Outcome AxError α} {t : IoSrc} (h : x s = (o, t)) :
    onSrc x (r, s) = (o, (r, t)) := by
  rw [onSrc, Act.zoom, h]

theorem vacantSlices_left_pos (h : 0 < r.vacantLen) : 0 < r.bytes.vacantSlices.1 := by
  rw [PipeRing.vacantLen] at h
  rw [Fifo.vacantSlices]
  split
  · simp only
    omega
  · exact h

/-- One copy of `n` bytes goes as far as the source's answers say. -/
theorem pushSource_given (hroom : n ≤ r.vacantLen) (hsrc : n ≤ s.remaining) :
    (given (r.reads 0 n) s.answers = none → ∃ e t, pushSource n (r, s) = (.err e, (r, t))) ∧
      ∀ count rest, given (r.reads 0 n) s.answers = some (count, rest) →
        pushSource n (r, s) = (.ok count, (r.filled (s.bytes.take count), ⟨s.bytes.drop count, rest⟩)) := by
  have hsum := r.bytes.vacantSlices_sum
  have hpos := @vacantSlices_left_pos r
  rw [PipeRing.vacantLen] at hroom hpos
  rw [IoSrc.remaining] at hsrc
  generalize hleft : r.bytes.vacantSlices.1 = left at *
  have hread := s.read_heard (min left n)
  by_cases hsplit : left < n
  · -- the copy goes on in the second slice, once the first is full
    have hreads : r.reads 0 n = [left, n - left] := by
      rw [PipeRing.reads, hleft, if_pos (by omega), Nat.sub_zero, Nat.zero_add]
    rw [Nat.min_eq_left hsplit.le] at hread
    rw [hreads, given]
    rcases hheard : heard left s.answers with _ | ⟨count, rest⟩
    · obtain ⟨e, t, he⟩ := hread.1 hheard
      refine ⟨fun _ => ⟨e, t, ?_⟩, fun _ _ h => absurd h.symm (Option.some_ne_none _)⟩
      simp [pushSource, bind_apply, hleft, Nat.min_eq_left hsplit.le, onSrc_of_read he]
    · have hle := heard_le hheard
      have hgot := hread.2 count rest hheard
      have hlen : (s.bytes.take count).length = count := by
        rw [List.length_take]
        omega
      simp only
      by_cases hshort : count < left
      · rw [if_pos hshort]
        refine ⟨fun h => absurd h (Option.some_ne_none _), ?_⟩
        rintro _ _ ⟨⟩
        simp [pushSource, bind_apply, hleft, Nat.min_eq_left hsplit.le, onSrc_of_read hgot, readRight, hlen, hshort.ne,
          onRing, PipeRing.filled]
      · obtain rfl : count = left := by omega
        have hmin : min r.bytes.vacantSlices.2 (n - count) = n - count := by omega
        have hagain := IoSrc.read_heard (s := ⟨s.bytes.drop count, rest⟩) (n - count)
        rw [if_neg hshort, given_singleton]
        rcases hheard' : heard (n - count) rest with _ | ⟨count', rest'⟩
        · obtain ⟨e, t, he⟩ := hagain.1 hheard'
          refine ⟨fun _ => ⟨e, t, ?_⟩, fun _ _ h => absurd h.symm (Option.some_ne_none _)⟩
          simp [pushSource, bind_apply, hleft, Nat.min_eq_left hsplit.le, onSrc_of_read hgot, readRight, hlen, hsplit,
            hmin, onSrc_of_read he]
        · have hle' := heard_le hheard'
          have hgot' := hagain.2 count' rest' hheard'
          have hlen' : ((s.bytes.drop count).take count').length = count' := by
            rw [List.length_take, List.length_drop]
            omega
          refine ⟨fun h => absurd h (Option.some_ne_none _), ?_⟩
          rintro _ _ ⟨⟩
          simp [pushSource, bind_apply, hleft, Nat.min_eq_left hsplit.le, onSrc_of_read hgot, readRight, hlen, hsplit,
            hmin, onSrc_of_read hgot', hlen', onRing, PipeRing.filled, List.take_add]
  · have hall : min left n = n := by omega
    have hreads : r.reads 0 n = [n] := by
      rw [PipeRing.reads, hleft, if_neg (by omega)]
    rw [hall] at hread
    rw [hreads, given_singleton]
    refine ⟨fun hnone => ?_, fun count rest hsome => ?_⟩
    · obtain ⟨e, t, he⟩ := hread.1 hnone
      exact ⟨e, t, by simp [pushSource, bind_apply, hleft, hall, onSrc_of_read he]⟩
    · have hle := heard_le hsome
      have hlen : (s.bytes.take count).length = count := by
        rw [List.length_take]
        omega
      have hdone : ¬ (count = n ∧ count < n) := by omega
      simp [pushSource, bind_apply, hleft, hall, onSrc_of_read (hread.2 count rest hsome), readRight, hlen, hdone,
        onRing, PipeRing.filled]

end Copies

/-- There is a slot for the packet that follows `j` others. -/
def PipeRing.HasSlot (r : PipeRing) (j : Nat) : Prop :=
  if j = 0 then 0 < r.vacantBuffers else r.marks.occupiedLen + j < r.marks.capacity

/-- Page `j` of what is left of `total` bytes once `merged` are in the ring has
its slot and its room. -/
structure PipeRing.HasRoom (r : PipeRing) (total merged j : Nat) : Prop where
  more : merged + j * pipeBufSize < total
  slot : r.HasSlot j
  room : min total (merged + (j + 1) * pipeBufSize) ≤ r.vacantLen

/-- The reads that page `j` takes. -/
def PipeRing.pageReads (r : PipeRing) (total merged j : Nat) : List Nat :=
  r.reads (merged + j * pipeBufSize) (min (total - (merged + j * pipeBufSize)) pipeBufSize)

/-- The source gives full pages up to one with room for it that a read fails
for; `added` tells whether bytes were added before the first page. -/
def LateFailure (r : PipeRing) (total merged : Nat) (answers : List Answer) (added : Prop) : Prop :=
  ∃ k rest, (added ∨ 0 < k) ∧ (∀ j ≤ k, r.HasRoom total merged j) ∧
    given ((List.range k).flatMap (r.pageReads total merged)) answers = some (k * pipeBufSize, rest) ∧
    given (r.pageReads total merged k) rest = none

/-- What the source gives to the merge of a packetized write. -/
def PipeRing.merges (r : PipeRing) (s : IoSrc) : Option (Nat × List Answer) :=
  let chars := s.remaining &&& (pipeBufSize - 1)
  let len := min chars r.vacantLen
  if 0 < chars ∧ r.isEmpty = false ∧ 0 < r.tailStreamLen ∧ tailUsed r.tailStreamLen + len ≤ pipeBufSize then
    given (r.reads 0 len) s.answers
  else some (0, s.answers)

/-- `grown` is the ring with `bytes` more bytes and `packets` more packets. -/
structure Grown (r grown : PipeRing) (bytes packets : Nat) : Prop where
  fits : bytes ≤ r.vacantLen
  vacantLen : grown.vacantLen = r.vacantLen - bytes
  left : grown.bytes.vacantSlices.1 =
    if bytes < r.bytes.vacantSlices.1 then r.bytes.vacantSlices.1 - bytes else r.vacantLen - bytes
  slot : ∀ j, grown.HasSlot j ↔ r.HasSlot (j + packets)

namespace Grown

variable {r grown : PipeRing} {bytes packets total merged j : Nat}

theorem reads_eq (h : Grown r grown bytes packets) {offset len : Nat} (hroom : bytes + offset + len ≤ r.vacantLen) :
    grown.reads offset len = r.reads (bytes + offset) len := by
  have hsum := r.bytes.vacantSlices_sum
  rw [PipeRing.vacantLen] at hroom
  simp only [PipeRing.reads, h.left]
  by_cases hin : bytes < r.bytes.vacantSlices.1
  · rw [if_pos hin]
    by_cases hsplit : bytes + offset < r.bytes.vacantSlices.1 ∧ r.bytes.vacantSlices.1 < bytes + offset + len
    · rw [if_pos hsplit, if_pos (by omega)]
      simp only [List.cons.injEq, and_true]
      omega
    · rw [if_neg hsplit, if_neg (by omega)]
  · rw [if_neg hin, PipeRing.vacantLen, if_neg (by omega), if_neg (by omega)]

variable (h : Grown r grown (merged + packets * pipeBufSize) packets)
include h

theorem hasRoom_iff (total j : Nat) :
    grown.HasRoom (total - (merged + packets * pipeBufSize)) 0 j ↔ r.HasRoom total merged (j + packets) := by
  have hfits := h.fits
  constructor
  · rintro ⟨hmore, hslot, hroom⟩
    rw [h.vacantLen] at hroom
    refine ⟨?_, (h.slot j).mp hslot, ?_⟩ <;> simp only [pipeBufSize] at * <;> omega
  · rintro ⟨hmore, hslot, hroom⟩
    refine ⟨?_, (h.slot j).mpr hslot, ?_⟩
    · simp only [pipeBufSize] at *
      omega
    · rw [h.vacantLen]
      simp only [pipeBufSize] at *
      omega

theorem pageReads_eq (hroom : r.HasRoom total merged (j + packets)) :
    grown.pageReads (total - (merged + packets * pipeBufSize)) 0 j = r.pageReads total merged (j + packets) := by
  have hmore := hroom.more
  have hspace := hroom.room
  rw [PipeRing.pageReads, h.reads_eq, PipeRing.pageReads]
  · simp only [pipeBufSize] at *
    congr 1 <;> omega
  · simp only [pipeBufSize] at *
    omega

end Grown

section Growth

variable {r : PipeRing}

theorem Grown.refl (r : PipeRing) : Grown r r 0 0 := by
  refine ⟨Nat.zero_le _, rfl, ?_, fun j => Iff.rfl⟩
  split
  · rfl
  · rename_i hnone
    have hvacant : ¬ 0 < r.vacantLen := fun h => hnone (vacantSlices_left_pos h)
    omega

theorem items_filled {xs : List UInt8} (h : xs.length ≤ r.vacantLen) :
    (r.filled xs).bytes.items = r.bytes.items ++ xs :=
  Fifo.items_extend h

theorem left_filled {xs : List UInt8} (h : xs.length ≤ r.vacantLen) : (r.filled xs).bytes.vacantSlices.1 =
    if xs.length < r.bytes.vacantSlices.1 then r.bytes.vacantSlices.1 - xs.length else r.vacantLen - xs.length := by
  have hfits := r.bytes.fits
  have hlen : (r.filled xs).bytes.items.length = r.bytes.items.length + xs.length := by
    rw [items_filled h, List.length_append]
  have hhead : (r.filled xs).bytes.head = r.bytes.head := rfl
  have hcapacity : (r.filled xs).bytes.capacity = r.bytes.capacity := rfl
  rw [PipeRing.vacantLen, Fifo.vacantLen] at *
  simp only [Fifo.vacantSlices, Fifo.vacantLen, hlen, hhead, hcapacity]
  by_cases hwrapped : r.bytes.head + r.bytes.items.length < r.bytes.capacity
  · simp only [if_pos hwrapped]
    split <;> split <;> omega
  · simp only [if_neg hwrapped]
    split <;> split <;> omega

theorem vacantLen_filled {xs : List UInt8} (h : xs.length ≤ r.vacantLen) :
    (r.filled xs).vacantLen = r.vacantLen - xs.length := by
  rw [PipeRing.vacantLen, Fifo.vacantLen, items_filled h, List.length_append, PipeRing.vacantLen, Fifo.vacantLen,
    Nat.sub_sub]
  rfl

theorem vacantLen_pushStream {xs : List UInt8} (h : xs.length ≤ r.vacantLen) :
    (r.pushStream xs).vacantLen = r.vacantLen - xs.length :=
  vacantLen_filled h

theorem tailStreamLen_pushStream {xs : List UInt8} (h : xs.length ≤ r.vacantLen) (htail : 0 < r.tailStreamLen) :
    (r.pushStream xs).tailStreamLen = r.tailStreamLen + xs.length := by
  have hmarks : (r.pushStream xs).marks = r.marks := rfl
  rw [PipeRing.tailStreamLen] at htail
  rw [PipeRing.tailStreamLen, PipeRing.tailStreamLen, hmarks]
  split
  · rename_i mark hlast
    simp only [hlast] at htail
    rw [PipeRing.writePos_pushStream]
    omega
  · rw [PipeRing.occupiedLen, PipeRing.occupiedLen, Fifo.occupiedLen, Fifo.occupiedLen, PipeRing.items_pushStream h,
      List.length_append]

/-- The merge takes no slot: its bytes go into the last page of the tail. -/
theorem grown_pushStream (xs : List UInt8) (h : xs.length ≤ r.vacantLen)
    (hpage : 0 < r.tailStreamLen ∧ tailUsed r.tailStreamLen + xs.length ≤ pipeBufSize) :
    Grown r (r.pushStream xs) xs.length 0 := by
  have hpages : divCeil (r.tailStreamLen + xs.length) pipeBufSize = divCeil r.tailStreamLen pipeBufSize :=
    le_antisymm (divCeil_le_iff.mpr (tail_page hpage.1 hpage.2)) (divCeil_mono _ (Nat.le_add_right _ _))
  have hbuffers : (r.pushStream xs).vacantBuffers = r.vacantBuffers := by
    rw [PipeRing.vacantBuffers, PipeRing.occupiedBuffers, tailStreamLen_pushStream h hpage.1, hpages]
    rfl
  refine ⟨h, vacantLen_pushStream h, left_filled h, fun j => ?_⟩
  rw [PipeRing.HasSlot, PipeRing.HasSlot, hbuffers]
  rfl

theorem grown_pushPacket (xs : List UInt8) (flags : UInt8) (h : xs.length ≤ r.vacantLen) (hslot : r.HasSlot 0) :
    Grown r (r.pushPacket xs flags) xs.length 1 := by
  rw [PipeRing.HasSlot, if_pos rfl, PipeRing.vacantBuffers, PipeRing.occupiedBuffers] at hslot
  have hfree : r.marks.items.length < r.marks.capacity := by
    rw [Fifo.occupiedLen] at hslot
    omega
  have hmarks : (r.pushPacket xs flags).marks.items = r.marks.items ++ [⟨r.writePos, xs.length, flags⟩] :=
    (Fifo.tryPush_accepted hfree).2
  have hcapacity : (r.pushPacket xs flags).marks.capacity = r.marks.capacity := Fifo.capacity_tryPush
  have hoccupied : (r.pushPacket xs flags).marks.occupiedLen = r.marks.occupiedLen + 1 := by
    rw [Fifo.occupiedLen, hmarks, List.length_append]
    rfl
  have htail : (r.pushPacket xs flags).tailStreamLen = 0 := by
    rw [PipeRing.tailStreamLen, hmarks, List.getLast?_append, List.getLast?_singleton, PipeRing.writePos_pushPacket]
    simp
  refine ⟨h, vacantLen_filled h, left_filled h, fun j => ?_⟩
  have hnone : divCeil 0 pipeBufSize = 0 := rfl
  rw [PipeRing.HasSlot, PipeRing.HasSlot, if_neg (Nat.succ_ne_zero j), PipeRing.vacantBuffers, PipeRing.occupiedBuffers,
    hoccupied, hcapacity, htail, hnone]
  split <;> omega

end Growth

section Late

variable {r grown : PipeRing} {total merged k : Nat} {answers rest : List Answer} {added : Prop}

/-- What comes after the merge, seen from the ring that the merge leaves. -/
theorem lateFailure_grown (h : Grown r grown merged 0) :
    LateFailure grown (total - merged) 0 answers added ↔ LateFailure r total merged answers added := by
  have hgrown : Grown r grown (merged + 0 * pipeBufSize) 0 := by simpa using h
  have hroom : ∀ j, grown.HasRoom (total - merged) 0 j ↔ r.HasRoom total merged j :=
    fun j => by simpa using hgrown.hasRoom_iff total j
  have hreads : ∀ j, r.HasRoom total merged j → grown.pageReads (total - merged) 0 j = r.pageReads total merged j :=
    fun j hj => by simpa using hgrown.pageReads_eq (j := j) hj
  refine exists_congr fun k => exists_congr fun rest => and_congr_right fun _ => ?_
  rw [forall₂_congr fun j (_ : j ≤ k) => hroom j]
  refine and_congr_right fun hrooms => ?_
  rw [hreads k (hrooms k le_rfl),
    List.flatMap_congr fun j hj => hreads j (hrooms j (List.mem_range.mp hj).le)]

theorem not_lateFailure_of_room (h : ¬ r.HasRoom total merged 0) : ¬ LateFailure r total merged answers added := by
  rintro ⟨k, rest, -, hroom, -⟩
  exact h (hroom 0 (Nat.zero_le k))

/-- The first of several pages is a full one. -/
theorem given_pages (hmore : pipeBufSize < total) :
    given ((List.range (k + 1)).flatMap (r.pageReads total 0)) answers = some ((k + 1) * pipeBufSize, rest) ↔
      ∃ mid, given (r.pageReads total 0 0) answers = some (pipeBufSize, mid) ∧
        given ((List.range k).flatMap fun j => r.pageReads total 0 (j + 1)) mid = some (k * pipeBufSize, rest) := by
  have hsum : (r.pageReads total 0 0).sum = pipeBufSize := by
    rw [PipeRing.pageReads, PipeRing.sum_reads]
    omega
  have happend := @given_append_eq_some (r.pageReads total 0 0)
    ((List.range k).flatMap fun j => r.pageReads total 0 (j + 1)) answers rest (k * pipeBufSize)
  rw [hsum] at happend
  rw [List.range_succ_eq_map, List.flatMap_cons, List.flatMap_map, Nat.succ_mul, Nat.add_comm]
  exact happend

/-- A read fails for the first page. -/
theorem lateFailure_of_none (h : r.HasRoom total 0 0) (hnone : given (r.pageReads total 0 0) answers = none) :
    LateFailure r total 0 answers added ↔ added := by
  constructor
  · rintro ⟨k, rest, hadded, hroom, hfull, -⟩
    cases k with
    | zero => exact hadded.resolve_right (Nat.lt_irrefl 0)
    | succ k =>
        have hmore := (hroom (k + 1) le_rfl).more
        obtain ⟨mid, hfirst, -⟩ := (given_pages (by simp only [pipeBufSize] at *; omega)).mp hfull
        rw [hnone] at hfirst
        cases hfirst
  · intro hadded
    refine ⟨0, answers, .inl hadded, fun j hj => ?_, by simp [given], hnone⟩
    rwa [Nat.le_zero.mp hj]

/-- The first page goes into the ring as far as the source gives it. -/
theorem lateFailure_of_some {count : Nat} (hsome : given (r.pageReads total 0 0) answers = some (count, rest)) :
    LateFailure r total 0 answers added ↔
      count = pipeBufSize ∧ pipeBufSize < total ∧ r.HasRoom total 0 0 ∧ ∃ k rest',
        (∀ j ≤ k, r.HasRoom total 0 (j + 1)) ∧
        given ((List.range k).flatMap fun j => r.pageReads total 0 (j + 1)) rest = some (k * pipeBufSize, rest') ∧
        given (r.pageReads total 0 (k + 1)) rest' = none := by
  constructor
  · rintro ⟨k, rest', -, hroom, hfull, hfail⟩
    cases k with
    | zero =>
        have hrest : rest' = answers := by simpa [given, eq_comm] using hfull
        rw [hrest, hsome] at hfail
        cases hfail
    | succ k =>
        have hmore := (hroom (k + 1) le_rfl).more
        have hmany : pipeBufSize < total := by
          simp only [pipeBufSize] at *
          omega
        obtain ⟨mid, hfirst, hlater⟩ := (given_pages hmany).mp hfull
        rw [hsome, Option.some.injEq, Prod.mk.injEq] at hfirst
        obtain ⟨rfl, rfl⟩ := hfirst
        exact ⟨rfl, hmany, hroom 0 (Nat.zero_le _), k, rest', fun j hj => hroom (j + 1) (Nat.succ_le_succ hj), hlater,
          hfail⟩
  · rintro ⟨rfl, hmany, hfirst, k, rest', hroom, hlater, hfail⟩
    refine ⟨k + 1, rest', .inr (Nat.succ_pos k), fun j hj => ?_, (given_pages hmany).mpr ⟨rest, hsome, hlater⟩, hfail⟩
    cases j with
    | zero => exact hfirst
    | succ j => exact hroom j (Nat.le_of_succ_le_succ hj)

/-- Behind a page that is whole it is the same question again. -/
theorem lateFailure_next (h : r.HasRoom total 0 0) (hgrown : Grown r grown (min total pipeBufSize) 1)
    (hsome : given (r.pageReads total 0 0) answers = some (min total pipeBufSize, rest)) :
    LateFailure r total 0 answers added ↔ LateFailure grown (total - min total pipeBufSize) 0 rest True := by
  by_cases hmany : pipeBufSize < total
  · rw [Nat.min_eq_right hmany.le] at hgrown hsome ⊢
    have hnext : Grown r grown (0 + 1 * pipeBufSize) 1 := by simpa using hgrown
    have hroom : ∀ j, grown.HasRoom (total - pipeBufSize) 0 j ↔ r.HasRoom total 0 (j + 1) :=
      fun j => by simpa using hnext.hasRoom_iff total j
    have hreads : ∀ j, r.HasRoom total 0 (j + 1) →
        grown.pageReads (total - pipeBufSize) 0 j = r.pageReads total 0 (j + 1) :=
      fun j hj => by simpa using hnext.pageReads_eq (j := j) hj
    rw [lateFailure_of_some hsome]
    constructor
    · rintro ⟨-, -, -, k, rest', hrooms, hlater, hfail⟩
      refine ⟨k, rest', .inl trivial, fun j hj => (hroom j).mpr (hrooms j hj), ?_, ?_⟩
      · rw [List.flatMap_congr fun j hj => hreads j (hrooms j (List.mem_range.mp hj).le)]
        exact hlater
      · rw [hreads k (hrooms k le_rfl)]
        exact hfail
    · rintro ⟨k, rest', -, hrooms, hlater, hfail⟩
      have hrooms' : ∀ j ≤ k, r.HasRoom total 0 (j + 1) := fun j hj => (hroom j).mp (hrooms j hj)
      refine ⟨rfl, hmany, h, k, rest', hrooms', ?_, ?_⟩
      · rw [List.flatMap_congr fun j hj => hreads j (hrooms' j (List.mem_range.mp hj).le)] at hlater
        exact hlater
      · rw [hreads k (hrooms' k le_rfl)] at hfail
        exact hfail
  · rw [lateFailure_of_some hsome]
    constructor
    · rintro ⟨-, hmore, -⟩
      exact absurd hmore hmany
    · intro hlate
      have hall : total - min total pipeBufSize = 0 := by omega
      rw [hall] at hlate
      exact absurd hlate (not_lateFailure_of_room fun hroom => Nat.not_lt_zero _ hroom.more)

end Late

end TheKernel.Pipe
