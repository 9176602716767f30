import TheKernel.Pipe.Transfers

namespace TheKernel.Pipe

open Act

variable {r r' : PipeRing} {xs : List UInt8} {n : Nat}

section Writable

theorem pipePollWritable_iff : pipePollWritable r = true ↔ pipeBufSize ≤ r.vacantLen ∧ r.vacantBuffers ≠ 0 := by
  simp [pipePollWritable, pipeRingFull]

/-- The ring has neither more vacant bytes nor, if it was full, a free slot. -/
theorem not_writable_of_le (hbytes : r'.vacantLen ≤ r.vacantLen) (hslots : r.vacantBuffers = 0 → r'.vacantBuffers = 0)
    (h : pipePollWritable r = false) : pipePollWritable r' = false := by
  rw [Bool.eq_false_iff, Ne, pipePollWritable_iff] at *
  rintro ⟨hvacant, hfree⟩
  exact h ⟨hvacant.trans hbytes, fun hfull => hfree (hslots hfull)⟩

theorem vacantLen_eq : r.vacantLen = r.capacity - r.bytes.items.length := rfl

theorem Pushes.not_writable (h : Pushes r xs r') (hr : r.Sound) (hwritable : pipePollWritable r = false) :
    pipePollWritable r' = false := by
  induction h with
  | done r => exact hwritable
  | stream hfits _ ih =>
      rename_i r _ xs _ _
      have hsound := hr.pushStream hfits
      have hitems := PipeRing.items_pushStream hfits.1
      apply ih hsound
      apply not_writable_of_le _ _ hwritable
      · rw [vacantLen_eq, vacantLen_eq, hitems, List.length_append]
        exact Nat.sub_le_sub_left (by omega) _
      · intro hfull
        have hslots := PipeRing.slots_eq hr
        have hslots' := PipeRing.slots_eq hsound
        have htail := PipeRing.tailStreamLen_eq hr.positions
        have htail' := PipeRing.tailStreamLen_eq hsound.positions
        have hceil : divCeil r.tailStreamLen pipeBufSize ≤ divCeil (r.pushStream xs).tailStreamLen pipeBufSize := by
          apply divCeil_mono
          rw [htail, htail', PipeRing.writePos_pushStream, PipeRing.readPos_pushStream]
          exact Nat.sub_le_sub_right (by omega) _
        have hmarks : (r.pushStream xs).marks = r.marks := rfl
        rw [hmarks] at hslots'
        omega
  | packet hfits _ ih =>
      rename_i r _ xs _ flags _
      have hitems := PipeRing.items_pushPacket flags hfits.2.1
      apply ih (hr.pushPacket hfits)
      apply not_writable_of_le _ _ hwritable
      · rw [vacantLen_eq, vacantLen_eq, hitems, List.length_append]
        exact Nat.sub_le_sub_left (by omega) _
      · intro hfull
        have hfree := hfits.2.2.1
        rw [pipeRingFull, hfull] at hfree
        cases hfree

/-- A call that removes nothing leaves the ring as writable as it was. -/
theorem Consumes.writable_of_none (h : Consumes r n r') (hr : r.Sound) (hn : n = 0) :
    pipePollWritable r' = pipePollWritable r := by
  induction h with
  | done r => rfl
  | step hle _ ih =>
      rename_i r _ n m _
      obtain ⟨rfl, rfl⟩ : n = 0 ∧ m = 0 := by omega
      rw [ih (hr.advanceRead hle) rfl]
      have hmarks := marks_advanceRead_stream hr (Nat.zero_le r.headStreamLen)
      have hpos := (hr.advanceRead hle).positions
      have htail : (r.advanceRead 0).tailStreamLen = r.tailStreamLen := by
        rw [PipeRing.tailStreamLen_eq hpos, PipeRing.tailStreamLen_eq hr.positions, hmarks]
        rfl
      rw [pipePollWritable, pipePollWritable, pipeRingFull, pipeRingFull, PipeRing.vacantBuffers,
        PipeRing.vacantBuffers,
        PipeRing.occupiedBuffers, PipeRing.occupiedBuffers, htail, Fifo.occupiedLen, hmarks]
      rfl

end Writable

structure SoundRing where
  ring : PipeRing
  sound : ring.Sound

/-- A writer on `poll_tx`: whether it has found the ring not writable since it
registered, and whether `poll_tx` has been woken since. -/
structure Writer where
  found : Bool
  woken : Bool
  deriving DecidableEq

inductive Consumer
  | idle
  | reserved (reservation : PipeReadReservation)
  | notifying (wake : Bool)
  deriving DecidableEq

/-- One pipe. `resizes` counts the changes of the capacity that have yet to wake `poll_tx`. -/
structure Waits where
  named : Bool
  ring : PipeRing
  consumer : Consumer
  resizes : Nat
  writers : List Writer

/-- The sections under the ring lock, the wake-ups after them, and the writers. -/
inductive Event
  | write (src : IoSrc) (atomicLen : Option Nat)
  | writePackets (src : IoSrc)
  | spliceFrom (other : SoundRing) (len : Nat)
  | teeFrom (other : SoundRing) (len : Nat)
  | read (dst : IoDst)
  | vmspliceRead (dst : IoDst)
  | spliceTo (other : SoundRing) (len : Nat)
  | reserve (dstLen : Nat) (sourceClosed : Bool)
  | commit (answer : Except AxError Nat)
  | notify
  | resize (requested : Nat) (limit : Option Nat) (memory : Bool)
  | notifyResize
  | register
  | recheck (i : Nat)
  | leave (i : Nat)

namespace Waits

variable (s : Waits)

def create (named : Bool) (capacity : Nat) : Waits := ⟨named, PipeRing.new capacity, .idle, 0, []⟩

/-- A consumer's section, and the wake-up it decides on: none after an error or
when it moved nothing. -/
def consume {τ : Type} (res : Outcome AxError PipeTransfer × (PipeRing × τ)) (always : Bool) : Waits :=
  { s with
    ring := res.2.1
    consumer := .notifying (match res.1 with
      | .ok transfer => decide (0 < transfer.len) && (always || transfer.becameWritable)
      | _ => false) }

def wakeAll : Waits := { s with writers := s.writers.map fun w => { w with woken := true } }

def moveTo (other : PipeRing) (len : Nat) : Waits :=
  let moved := movePipeBuffer s.ring other len
  { s with
    ring := moved.1
    consumer := .notifying (decide (0 < moved.2.2.len) && (!pipePollWritable s.ring && pipePollWritable moved.1)) }

def commit (reservation : PipeReadReservation) : Except AxError Nat → Waits
  | .error _ => { s with consumer := .idle }
  | .ok accepted =>
      if reservation.available < accepted then { s with consumer := .idle }
      else match commitPipePrefix accepted reservation s.ring with
        | (.ok transfer, ring) => { s with ring, consumer := .notifying transfer.becameWritable }
        | (_, ring) => { s with ring, consumer := .idle }

def resized (requested : Nat) (limit : Option Nat) (memory : Bool) : Waits :=
  match resize requested limit memory s.ring with
  | (.ok true, ring) => { s with ring, resizes := s.resizes + 1 }
  | (_, ring) => { s with ring }

def step : Event → Option Waits
  | .write src atomicLen => some { s with ring := (writePipeBuffer atomicLen (s.ring, src)).2.1 }
  | .writePackets src => some { s with ring := (writePipePackets (s.ring, src)).2.1 }
  | .spliceFrom other len => some { s with ring := (movePipeBuffer other.ring s.ring len).2.1 }
  | .teeFrom other len => some { s with ring := (copyPipeBuffer other.ring s.ring len).1 }
  | .read dst => if s.consumer = .idle then some (s.consume (readPipeBuffer (s.ring, dst)) s.named) else none
  | .vmspliceRead dst =>
      if s.consumer = .idle then some (s.consume (spliceReadPipeBuffer (s.ring, dst)) false)
      else none
  | .spliceTo other len => if s.consumer = .idle then some (s.moveTo other.ring len) else none
  | .reserve dstLen sourceClosed =>
      if s.consumer = .idle then
        match reservePipePrefix s.ring dstLen sourceClosed with
        | .ok (some (reservation, _)) => some { s with consumer := .reserved reservation }
        | _ => some s
      else none
  | .commit answer =>
      match s.consumer with
      | .reserved reservation => some (s.commit reservation answer)
      | _ => none
  | .notify =>
      match s.consumer with
      | .notifying wake => some { (if wake then s.wakeAll else s) with consumer := .idle }
      | _ => none
  | .resize requested limit memory => some (s.resized requested limit memory)
  | .notifyResize => if s.resizes = 0 then none else some { s.wakeAll with resizes := s.resizes - 1 }
  | .register => some { s with writers := s.writers ++ [⟨false, false⟩] }
  | .recheck i =>
      if pipePollWritable s.ring then none
      else some { s with writers := s.writers.modify i fun w => { w with found := true } }
  | .leave i => some { s with writers := s.writers.eraseIdx i }

/-- A commit that makes the ring writable which its reservation had found writable:
a writer has filled it in between. -/
def Misses : Event → Prop
  | .commit (.ok accepted) =>
      ∃ reservation, s.consumer = .reserved reservation ∧ reservation.wasWritable = true ∧
        pipePollWritable s.ring = false ∧ pipePollWritable (s.ring.advanceRead accepted) = true
  | _ => False

/-- Every writer that has found the ring not writable has been woken, if the ring is
writable and no operation that may wake it is under way. -/
def Woken : Prop :=
  pipePollWritable s.ring = true → s.consumer = .idle → s.resizes = 0 → ∀ w ∈ s.writers, w.found = true → w.woken = true

end Waits

inductive Waits.Run (ok : Waits → Event → Prop) : Waits → Prop
  | start (named : Bool) {capacity : Nat} (hpages : pipeBufSize ∣ capacity) : Run ok (Waits.create named capacity)
  | step {s t : Waits} {e : Event} (h : Run ok s) (hok : ok s e) (hstep : s.step e = some t) : Run ok t

namespace Waits

variable {s t : Waits} {e : Event}

def Quiet (s : Waits) : Prop := pipePollWritable s.ring = false ∨ s.consumer = .notifying true ∨ 0 < s.resizes

structure Sound (s : Waits) : Prop where
  ring : s.ring.Sound
  waiting : ∀ w ∈ s.writers, w.found = true → w.woken = false → s.Quiet

theorem Sound.woken (h : s.Sound) : s.Woken := by
  intro hwritable hidle hresizes w hw hfound
  by_contra hasleep
  rcases h.waiting w hw hfound (by simpa using hasleep) with hnot | hnotifying | hresizing
  · rw [hwritable] at hnot
    cases hnot
  · rw [hidle] at hnotifying
    cases hnotifying
  · omega

/-- A step of the other side: the writers stay as they are. -/
theorem Sound.keep (h : s.Sound) (hring : t.ring.Sound) (hwriters : t.writers = s.writers)
    (hquiet : s.Quiet → t.Quiet) : t.Sound := by
  refine ⟨hring, ?_⟩
  intro w hw hfound hasleep
  rw [hwriters] at hw
  exact hquiet (h.waiting w hw hfound hasleep)

theorem Sound.pushed {xs : List UInt8} {ring : PipeRing} (h : s.Sound) (hpush : Pushes s.ring xs ring) :
    Sound { s with ring } := by
  refine h.keep (hpush.sound h.ring) rfl ?_
  rintro (hnot | hpending)
  · exact .inl (hpush.not_writable h.ring hnot)
  · exact .inr hpending

theorem Sound.written {src : IoSrc} {x : Act (PipeRing × IoSrc) AxError PipeTransfer} (h : s.Sound)
    (hx : Ensures x (s.ring, src) (fun transfer t => Wrote s.ring src transfer.len t)
      (fun _ t => ∃ k u, Wrote s.ring src k u ∧ t.1 = u.1) False) :
    Sound { s with ring := (x (s.ring, src)).2.1 } := by
  obtain ⟨k, _, hpush⟩ := Wrote.final hx
  exact h.pushed hpush

/-- The section of an idle pipe's consumer, whose wake-up reports the edge. -/
theorem Sound.section {ring : PipeRing} {n : Nat} {wake : Bool} (h : s.Sound) (hidle : s.consumer = .idle)
    (hconsumes : Consumes s.ring n ring)
    (hedge : pipePollWritable s.ring = false → pipePollWritable ring = true → wake = true) :
    Sound { s with ring, consumer := .notifying wake } := by
  refine h.keep (hconsumes.sound h.ring) rfl ?_
  rintro (hnot | hnotifying | hresizing)
  · cases hwritable : pipePollWritable ring with
    | false => exact .inl hwritable
    | true => exact .inr (.inl (by rw [hedge hnot hwritable]))
  · rw [hidle] at hnotifying
    cases hnotifying
  · exact .inr (.inr hresizing)

theorem edge_of_len {r r' : PipeRing} {transfer : PipeTransfer} {removed : Nat} (hr : r.Sound)
    (hzero : transfer.len = 0 → removed = 0) (hconsumes : Consumes r removed r')
    (hbecame : transfer.becameWritable = (!pipePollWritable r && pipePollWritable r'))
    (hnot : pipePollWritable r = false)
    (hwritable : pipePollWritable r' = true) : 0 < transfer.len ∧ transfer.becameWritable = true := by
  refine ⟨?_, by rw [hbecame, hnot, hwritable]; rfl⟩
  by_contra hnone
  have hsame := hconsumes.writable_of_none hr (hzero (by omega))
  rw [hnot, hwritable] at hsame
  cases hsame

theorem Sound.consume {dst : IoDst} {x : Act (PipeRing × IoDst) AxError PipeTransfer} (always : Bool) (h : s.Sound)
    (hidle : s.consumer = .idle)
    (hx : Ensures x (s.ring, dst) (fun transfer t => (∃ removed, Read s.ring dst transfer.len removed t) ∧
      transfer.becameWritable = (!pipePollWritable s.ring && pipePollWritable t.1))
      (fun _ t => Read s.ring dst 0 0 t) False) : (s.consume (x (s.ring, dst)) always).Sound := by
  rw [Ensures] at hx
  rw [Waits.consume]
  rcases hres : x (s.ring, dst) with ⟨o, t⟩
  rw [hres] at hx
  cases o with
  | ok transfer =>
      obtain ⟨⟨removed, _, hzero, hconsumes, _⟩, hbecame⟩ := hx
      apply h.section hidle hconsumes
      intro hnot hwritable
      obtain ⟨hlen, hedge⟩ := edge_of_len h.ring hzero hconsumes hbecame hnot hwritable
      simp [hlen, hedge]
  | err e =>
      apply h.section hidle hx.2.2.1
      intro hnot hwritable
      have hsame := hx.2.2.1.writable_of_none h.ring rfl
      rw [hnot, hwritable] at hsame
      cases hsame
  | panic => exact hx.elim

theorem Sound.moveTo (other : SoundRing) (len : Nat) (h : s.Sound) (hidle : s.consumer = .idle) :
    (s.moveTo other.ring len).Sound := by
  have hconsumes := (movePipeBuffer_spec len h.ring other.sound).1
  apply h.section hidle hconsumes
  intro hnot hwritable
  have hpos : 0 < (movePipeBuffer s.ring other.ring len).2.2.len := by
    by_contra hnone
    have hsame := hconsumes.writable_of_none h.ring (by omega)
    rw [hnot, hwritable] at hsame
    cases hsame
  simp [hpos, hnot, hwritable]

theorem Sound.wakeAll (h : s.Sound) (c : Consumer) (n : Nat) :
    Sound { s.wakeAll with consumer := c, resizes := n } := by
  refine ⟨h.ring, ?_⟩
  intro w hw _ hasleep
  obtain ⟨v, _, rfl⟩ := List.mem_map.mp hw
  cases hasleep

theorem Sound.reserved {reservation : PipeReadReservation} (h : s.Sound) (hidle : s.consumer = .idle) :
    Sound { s with consumer := .reserved reservation } := by
  refine h.keep h.ring rfl ?_
  rintro (hnot | hnotifying | hresizing)
  · exact .inl hnot
  · rw [hidle] at hnotifying
    cases hnotifying
  · exact .inr (.inr hresizing)

theorem Sound.commit {reservation : PipeReadReservation} (answer : Except AxError Nat) (h : s.Sound)
    (hreserved : s.consumer = .reserved reservation) (hok : ¬ s.Misses (.commit answer)) :
    (s.commit reservation answer).Sound := by
  have hdrop : Sound { s with consumer := .idle } := by
    refine h.keep h.ring rfl ?_
    rintro (hnot | hnotifying | hresizing)
    · exact .inl hnot
    · rw [hreserved] at hnotifying
      cases hnotifying
    · exact .inr (.inr hresizing)
  cases answer with
  | error e => exact hdrop
  | ok accepted =>
      rw [Waits.commit, commitPipePrefix]
      split
      · exact hdrop
      by_cases hshort : s.ring.occupiedLen < accepted
      · rw [if_pos hshort]
        exact hdrop
      · rw [if_neg hshort]
        have hconsumes := Consumes.one (Nat.le_of_not_lt hshort)
        refine h.keep (hconsumes.sound h.ring) rfl ?_
        rintro (hnot | hnotifying | hresizing)
        · cases hwritable : pipePollWritable (s.ring.advanceRead accepted) with
          | false => exact .inl hwritable
          | true =>
              have hsample : reservation.wasWritable = false := by
                by_contra hwas
                exact hok ⟨reservation, hreserved, by simpa using hwas, hnot, hwritable⟩
              exact .inr (.inl (by simp [hsample]))
        · rw [hreserved] at hnotifying
          cases hnotifying
        · exact .inr (.inr hresizing)

theorem Sound.resized (requested : Nat) (limit : Option Nat) (memory : Bool) (h : s.Sound) :
    (s.resized requested limit memory).Sound := by
  have hspec := resize_spec requested limit memory h.ring
  rw [Ensures] at hspec
  rw [Waits.resized]
  rcases hres : resize requested limit memory s.ring with ⟨o, ring⟩
  rw [hres] at hspec
  cases o with
  | ok wake =>
      cases wake with
      | true => exact h.keep hspec.1 rfl fun _ => .inr (.inr (Nat.succ_pos _))
      | false =>
          obtain rfl := hspec.2.2 rfl
          exact h
  | err e =>
      have hsame : ring = s.ring := hspec
      subst hsame
      exact h
  | panic => exact hspec.elim

theorem Sound.step (h : s.Sound) (hok : ¬ s.Misses e) (hstep : s.step e = some t) : t.Sound := by
  cases e with
  | write src atomicLen =>
      cases hstep
      exact h.written ((writePipeBuffer_spec atomicLen h.ring).mono (fun _ _ => id)
        (fun _ _ ht => ⟨0, _, Wrote.zero, ht⟩) id)
  | writePackets src =>
      cases hstep
      exact h.written (writePipePackets_spec h.ring)
  | spliceFrom other len =>
      cases hstep
      exact h.pushed (movePipeBuffer_spec len other.sound h.ring).2
  | teeFrom other len =>
      cases hstep
      exact h.pushed (copyPipeBuffer_spec other.ring len h.ring).2
  | read dst =>
      rw [Waits.step] at hstep
      split at hstep
      · cases hstep
        exact h.consume _ ‹_› ((readPipeBuffer_spec h.ring).mono
          (fun _ _ ht => ⟨ht.1.imp fun _ hread => hread.1, ht.2.2⟩) (fun _ _ => id) id)
      · cases hstep
  | vmspliceRead dst =>
      rw [Waits.step] at hstep
      split at hstep
      · cases hstep
        exact h.consume _ ‹_› (spliceReadPipeBuffer_spec.mono (fun _ _ ht => ⟨⟨_, ht.1⟩, ht.2⟩) (fun _ _ => id) id)
      · cases hstep
  | spliceTo other len =>
      rw [Waits.step] at hstep
      split at hstep
      · cases hstep
        exact h.moveTo other len ‹_›
      · cases hstep
  | reserve dstLen sourceClosed =>
      rw [Waits.step] at hstep
      split at hstep
      · split at hstep
        · cases hstep
          exact h.reserved ‹_›
        · cases hstep
          exact h
      · cases hstep
  | commit answer =>
      rw [Waits.step] at hstep
      split at hstep
      · cases hstep
        exact h.commit answer ‹_› hok
      · cases hstep
  | notify =>
      rw [Waits.step] at hstep
      split at hstep
      · rename_i wake hnotifying
        cases hstep
        cases wake with
        | true => exact h.wakeAll .idle s.resizes
        | false =>
            refine h.keep h.ring rfl ?_
            rintro (hnot | hpending | hresizing)
            · exact .inl hnot
            · rw [hnotifying] at hpending
              cases hpending
            · exact .inr (.inr hresizing)
      · cases hstep
  | resize requested limit memory =>
      cases hstep
      exact h.resized requested limit memory
  | notifyResize =>
      rw [Waits.step] at hstep
      split at hstep
      · cases hstep
      · cases hstep
        exact h.wakeAll s.consumer _
  | register =>
      cases hstep
      refine ⟨h.ring, ?_⟩
      intro w hw hfound hasleep
      rw [List.mem_append, List.mem_singleton] at hw
      rcases hw with hold | rfl
      · exact h.waiting w hold hfound hasleep
      · cases hfound
  | recheck i =>
      rw [Waits.step] at hstep
      split at hstep
      · cases hstep
      · rename_i hnot
        cases hstep
        exact ⟨h.ring, fun _ _ _ _ => .inl (by simpa using hnot)⟩
  | leave i =>
      cases hstep
      exact ⟨h.ring, fun w hw => h.waiting w (List.mem_of_mem_eraseIdx hw)⟩

theorem Sound.create (named : Bool) {capacity : Nat} (hpages : pipeBufSize ∣ capacity) :
    (Waits.create named capacity).Sound := by
  refine ⟨PipeRing.Sound.new hpages, ?_⟩
  intro w hw
  cases hw

theorem Run.sound (h : Run (fun s e => ¬ s.Misses e) s) : s.Sound := by
  induction h with
  | start named hpages => exact Sound.create named hpages
  | step _ hok hstep ih => exact ih.step hok hstep

/-- In every run whose commits miss no edge, a writer that has found the ring not
writable is woken before the ring is writable and at rest. -/
theorem writers_woken (h : Run (fun s e => ¬ s.Misses e) s) : s.Woken := h.sound.woken

theorem Run.events {ok : Waits → Event → Prop} {events : List Event} (h : Run ok s) (hok : ∀ e ∈ events, ∀ u, ok u e)
    (hrun : events.foldlM Waits.step s = some t) : Run ok t := by
  induction events generalizing s with
  | nil =>
      cases hrun
      exact h
  | cons e events ih =>
      rw [List.foldlM_cons, Option.bind_eq_bind, Option.bind_eq_some_iff] at hrun
      obtain ⟨u, hstep, hrest⟩ := hrun
      exact ih (h.step (hok e List.mem_cons_self s) hstep) (fun e' he' => hok e' (List.mem_cons_of_mem _ he')) hrest

/-- A reader empties a slot of the two that the writer has found taken. -/
def readRun : List Event :=
  [.writePackets ⟨[1], []⟩, .writePackets ⟨[2], []⟩, .register, .recheck 0, .read ⟨1, [], []⟩, .notify]

theorem writers_woken_read : ∃ s : Waits, Run (fun s e => ¬ s.Misses e) s ∧ s.writers = [⟨true, true⟩] ∧
    pipePollWritable s.ring = true ∧ s.Woken := by
  have hrun : (readRun.foldlM Waits.step (create false 8192)).map (fun t => (t.writers, pipePollWritable t.ring)) =
      some ([⟨true, true⟩], true) := by decide +kernel
  obtain ⟨t, hrun, hfinal⟩ := Option.map_eq_some_iff.mp hrun
  simp only [Prod.mk.injEq] at hfinal
  obtain ⟨hwriters, hwritable⟩ := hfinal
  have hok : ∀ e ∈ readRun, ∀ u : Waits, ¬ u.Misses e := by
    simp [readRun, Misses]
  have hreach := Run.events (Run.start false (by decide)) hok hrun
  exact ⟨t, hreach, hwriters, hwritable, writers_woken hreach⟩

/-- The writer fills the second slot between the reservation and the commit. -/
def filledRun : List Event :=
  [.writePackets ⟨[1], []⟩, .reserve 1 false, .writePackets ⟨[2], []⟩, .register, .recheck 0, .commit (.ok 1), .notify]

theorem splice_commit_misses : ∃ s : Waits, Run (fun _ _ => True) s ∧ ¬ s.Woken := by
  have hrun : (filledRun.foldlM Waits.step (create false 8192)).map
      (fun t => (t.writers, pipePollWritable t.ring, t.consumer, t.resizes)) =
        some ([⟨true, false⟩], true, .idle, 0) := by decide +kernel
  obtain ⟨t, hrun, hfinal⟩ := Option.map_eq_some_iff.mp hrun
  simp only [Prod.mk.injEq] at hfinal
  obtain ⟨hwriters, hwritable, hidle, hresizes⟩ := hfinal
  refine ⟨t, Run.events (Run.start false (by decide)) (fun _ _ _ => trivial) hrun, ?_⟩
  intro hwoken
  have hasleep := hwoken hwritable hidle hresizes ⟨true, false⟩ (by simp [hwriters]) rfl
  cases hasleep

end Waits

end TheKernel.Pipe
