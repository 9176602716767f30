import TheKernel.Pipe.Transfers

namespace TheKernel.Pipe

open Act

/-- What one call gave to its consumer, from the position `start` on, and the
packet that it may have cut off. -/
structure Delivery where
  start : Nat
  bytes : List UInt8
  packet : Option PipeBufferMark

def Delivery.stop (delivery : Delivery) : Nat := delivery.start + delivery.bytes.length

/-- The byte at the position was given to the consumer, or it is of the rest of the
packet that the consumer got the first part of. -/
def Delivery.Covers (delivery : Delivery) (pos : Nat) : Prop :=
  delivery.start ≤ pos ∧ (pos < delivery.stop ∨
    ∃ mark ∈ delivery.packet, mark.start < delivery.stop ∧ pos < mark.start + mark.len)

/-- What the writers of a pipe have put in and its consumers have got. -/
structure Log where
  committed : List UInt8
  removed : List UInt8
  deliveries : List Delivery

namespace Log

def empty : Log := ⟨[], [], []⟩

/-- The ring went from `r` to `r'` in a write of the bytes `offered`. -/
def commit (log : Log) (r r' : PipeRing) (offered : List UInt8) : Log :=
  { log with committed := log.committed ++ offered.take (r'.writePos - r.writePos) }

/-- The ring went from `r` to `r'` and a consumer got the bytes `delivered`. -/
def remove (log : Log) (r r' : PipeRing) (packet : Option PipeBufferMark) (delivered : List UInt8) : Log :=
  { log with
    removed := log.removed ++ r.bytes.items.take (r'.readPos - r.readPos)
    deliveries := log.deliveries ++ [⟨r.readPos, delivered, packet⟩] }

end Log

/-- A transfer between its reservation and its commit, in which it holds the read
transaction and offers `bytes`. -/
structure Held where
  reservation : PipeReadReservation
  bytes : List UInt8

structure PipeState where
  ring : PipeRing
  held : Option Held
  log : Log

inductive Call
  | write (src : IoSrc) (atomicLen : Option Nat)
  | writePackets (src : IoSrc)
  | read (dst : IoDst)
  | spliceRead (dst : IoDst)
  | reserve (dstLen : Nat) (sourceClosed : Bool)
  | commit (answer : Except AxError Nat)
  | resize (requested : Nat) (limit : Option Nat) (memory : Bool)

namespace PipeState

variable (p : PipeState)

def create (capacity : Nat) : PipeState := ⟨PipeRing.new capacity, none, Log.empty⟩

def written (src : IoSrc) (ring : PipeRing) : PipeState :=
  { p with ring, log := p.log.commit p.ring ring src.bytes }

def consumed (packet : Option PipeBufferMark) (dst : IoDst) (t : PipeRing × IoDst) : PipeState :=
  { p with ring := t.1, log := p.log.remove p.ring t.1 packet (t.2.taken.drop dst.taken.length) }

/-- The end of a transfer: the destination has answered, and what it accepted is committed. -/
def finish (held : Held) : Except AxError Nat → PipeState
  | .error _ => { p with held := none }
  | .ok accepted =>
      if held.reservation.available < accepted then { p with held := none }
      else
        let ring := (commitPipePrefix accepted held.reservation p.ring).2
        { ring, held := none, log := p.log.remove p.ring ring none (held.bytes.take accepted) }

/-- One call, if the read transaction it needs is free. Only a read may cut off a
packet, the first one. -/
def call : Call → Option PipeState
  | .write src atomicLen => some (p.written src (writePipeBuffer atomicLen (p.ring, src)).2.1)
  | .writePackets src => some (p.written src (writePipePackets (p.ring, src)).2.1)
  | .read dst =>
      if p.held.isSome then none
      else some (p.consumed p.ring.marks.items.head? dst (readPipeBuffer (p.ring, dst)).2)
  | .spliceRead dst => if p.held.isSome then none else some (p.consumed none dst (spliceReadPipeBuffer (p.ring, dst)).2)
  | .reserve dstLen sourceClosed =>
      if p.held.isSome then none
      else match reservePipePrefix p.ring dstLen sourceClosed with
        | .ok (some (reservation, bytes)) => some { p with held := some ⟨reservation, bytes⟩ }
        | _ => some p
  | .commit answer => p.held.map fun held => p.finish held answer
  | .resize requested limit memory => some { p with ring := (resize requested limit memory p.ring).2 }

end PipeState

inductive Op
  | create (capacity : Nat)
  | call (i : Nat) (call : Call)
  | splice (i j len : Nat)
  | tee (i j len : Nat)

abbrev System := List PipeState

namespace System

def splice (p q : PipeState) (len : Nat) : PipeState × PipeState :=
  let moved := movePipeBuffer p.ring q.ring len
  ({ p with
      ring := moved.1
      log := p.log.remove p.ring moved.1 none (moved.2.1.bytes.items.drop q.ring.bytes.items.length) },
    { q with ring := moved.2.1, log := q.log.commit q.ring moved.2.1 p.ring.bytes.items })

def tee (p q : PipeState) (len : Nat) : PipeState :=
  let copied := copyPipeBuffer p.ring q.ring len
  { q with ring := copied.1, log := q.log.commit q.ring copied.1 p.ring.bytes.items }

/-- The source and the destination of a transfer between two pipes: they differ,
and the read transaction of the source is free. -/
def ends (s : System) (i j : Nat) : Option (PipeState × PipeState) := do
  let p ← s[i]?
  let q ← s[j]?
  if i = j ∨ p.held.isSome then none else some (p, q)

def step (s : System) : Op → Option System
  | .create capacity => if pipeBufSize ∣ capacity then some (s ++ [PipeState.create capacity]) else none
  | .call i call => (s[i]?.bind fun p => p.call call).map fun p => s.set i p
  | .splice i j len => (s.ends i j).map fun (p, q) => (s.set i (splice p q len).1).set j (splice p q len).2
  | .tee i j len => (s.ends i j).map fun (p, q) => s.set j (tee p q len)

end System

inductive Reachable : System → Prop
  | start : Reachable []
  | step {s t : System} (op : Op) (h : Reachable s) (hstep : s.step op = some t) : Reachable t

/-- What was removed is followed by what is stored, the deliveries are pieces of
what was removed, no two of them share a byte, and what no consumer got is the
rest of a packet that a read cut off. -/
structure Log.Accounts (log : Log) (r : PipeRing) : Prop where
  committed : log.committed = log.removed ++ r.bytes.items
  position : r.readPos = log.removed.length
  delivered : ∀ delivery ∈ log.deliveries, delivery.stop ≤ log.removed.length ∧
    delivery.bytes = (log.removed.drop delivery.start).take delivery.bytes.length
  apart : log.deliveries.Pairwise fun a b => a.stop ≤ b.start
  covered : ∀ pos < log.removed.length, ∃ delivery ∈ log.deliveries, delivery.Covers pos

def Held.Matches (held : Held) (r : PipeRing) : Prop :=
  held.reservation.available ≤ r.occupiedLen ∧ held.bytes = r.bytes.items.take held.reservation.available

structure PipeState.Sound (p : PipeState) : Prop where
  ring : p.ring.Sound
  log : p.log.Accounts p.ring
  held : ∀ held ∈ p.held, held.Matches p.ring

section Accounting

variable {log : Log} {r r' : PipeRing} {offered xs : List UInt8} {k n : Nat} {held : Held}

theorem Log.Accounts.commit (h : log.Accounts r) (hpush : Pushes r (offered.take k) r') (hk : k ≤ offered.length) :
    (log.commit r r' offered).Accounts r' := by
  obtain ⟨hitems, hread, hwrite⟩ := hpush.items
  have hcount : r'.writePos - r.writePos = k := by
    rw [hwrite, List.length_take]
    omega
  rw [Log.commit, hcount]
  refine ⟨?_, hread.trans h.position, h.delivered, h.apart, h.covered⟩
  rw [hitems, h.committed, List.append_assoc]

theorem Log.Accounts.remove {packet : Option PipeBufferMark} (h : log.Accounts r) (hconsumes : Consumes r n r')
    (hk : k ≤ n)
    (hcut : Truncates packet r.readPos k n) : (log.remove r r' packet (r.bytes.items.take k)).Accounts r' := by
  obtain ⟨hn, hitems, hread, _⟩ := hconsumes.items
  have hcount : r'.readPos - r.readPos = n := by omega
  have hposition := h.position
  have hlen : (r.bytes.items.take k).length = k := by
    rw [List.length_take]
    omega
  have hstop : Delivery.stop ⟨r.readPos, r.bytes.items.take k, packet⟩ = r.readPos + k := by
    rw [Delivery.stop, hlen]
  rw [Log.remove, hcount]
  refine ⟨?_, ?_, ?_, ?_, ?_⟩
  · rw [hitems, List.append_assoc, List.take_append_drop]
    exact h.committed
  · rw [hread, hposition, List.length_append, List.length_take]
    omega
  · intro delivery hmem
    rw [List.mem_append, List.mem_singleton] at hmem
    simp only [List.length_append, List.length_take]
    rcases hmem with hold | rfl
    · obtain ⟨hle, hbytes⟩ := h.delivered delivery hold
      rw [Delivery.stop] at hle ⊢
      refine ⟨by omega, ?_⟩
      rw [List.drop_append_of_le_length (by omega), List.take_append_of_le_length (by rw [List.length_drop]; omega)]
      exact hbytes
    · refine ⟨by rw [hstop]; omega, ?_⟩
      simp only [hlen]
      rw [hposition, List.drop_left, List.take_take, Nat.min_eq_left hk]
  · rw [List.pairwise_append]
    refine ⟨h.apart, List.pairwise_singleton _ _, ?_⟩
    intro delivery hold last hlast
    rw [List.mem_singleton] at hlast
    subst hlast
    have := (h.delivered delivery hold).1
    simp only
    omega
  · intro pos hpos
    simp only [List.length_append, List.length_take] at hpos
    by_cases hold : pos < log.removed.length
    · obtain ⟨delivery, hmem, hcovers⟩ := h.covered pos hold
      exact ⟨delivery, List.mem_append_left _ hmem, hcovers⟩
    · refine ⟨_, List.mem_append_right _ (List.mem_singleton_self _), by simp only; omega, ?_⟩
      rw [hstop]
      rcases hcut with rfl | ⟨mark, hmark, hfirst, hrest⟩
      · left
        omega
      · exact .inr ⟨mark, hmark, hfirst, by omega⟩

theorem Log.Accounts.rehoused (h : log.Accounts r) (hsame : Rehoused r r') : log.Accounts r' :=
  ⟨hsame.items ▸ h.committed, hsame.readPos.trans h.position, h.delivered, h.apart, h.covered⟩

theorem Held.Matches.pushes (h : held.Matches r) (hpush : Pushes r xs r') : held.Matches r' := by
  obtain ⟨hle, hbytes⟩ := h
  rw [PipeRing.occupiedLen, Fifo.occupiedLen] at hle
  have hitems := hpush.items.1
  refine ⟨?_, ?_⟩
  · rw [PipeRing.occupiedLen, Fifo.occupiedLen, hitems, List.length_append]
    omega
  · rw [hitems, List.take_append_of_le_length hle]
    exact hbytes

theorem Held.Matches.rehoused (h : held.Matches r) (hsame : Rehoused r r') : held.Matches r' := by
  rw [Held.Matches, PipeRing.occupiedLen, Fifo.occupiedLen, hsame.items]
  exact h

end Accounting

namespace PipeState.Sound

variable {p q : PipeState} {n k : Nat}

/-- A write, however it ends: a first piece of the source has been pushed. -/
theorem pushed {ring : PipeRing} {offered : List UInt8} (h : p.Sound) (hpush : Pushes p.ring (offered.take k) ring)
    (hk : k ≤ offered.length) : PipeState.Sound { p with ring, log := p.log.commit p.ring ring offered } :=
  ⟨hpush.sound h.ring, h.log.commit hpush hk, fun held hheld => (h.held held hheld).pushes hpush⟩

theorem removed {ring : PipeRing} {packet : Option PipeBufferMark} {bytes : List UInt8} (h : p.Sound)
    (hconsumes : Consumes p.ring n ring) (hk : k ≤ n) (hcut : Truncates packet p.ring.readPos k n)
    (hbytes : bytes = p.ring.bytes.items.take k) :
    PipeState.Sound { ring, held := none, log := p.log.remove p.ring ring packet bytes } := by
  subst hbytes
  exact ⟨hconsumes.sound h.ring, h.log.remove hconsumes hk hcut, fun held hheld => by cases hheld⟩

theorem written {src : IoSrc} {x : Act (PipeRing × IoSrc) AxError PipeTransfer} (h : p.Sound)
    (hx : Ensures x (p.ring, src) (fun transfer t => Wrote p.ring src transfer.len t)
      (fun _ t => ∃ k u, Wrote p.ring src k u ∧ t.1 = u.1) False) : (p.written src (x (p.ring, src)).2.1).Sound := by
  obtain ⟨k, hk, hpush⟩ := Wrote.final hx
  exact h.pushed hpush hk

theorem consumed {packet : Option PipeBufferMark} {dst : IoDst} {x : Act (PipeRing × IoDst) AxError PipeTransfer}
    (h : p.Sound) (hfree : p.held = none)
    (hx : Ensures x (p.ring, dst)
      (fun _ t => ∃ n removed, Read p.ring dst n removed t ∧ Truncates packet p.ring.readPos n removed)
      (fun _ t => Read p.ring dst 0 0 t) False) : (p.consumed packet dst (x (p.ring, dst)).2).Sound := by
  obtain ⟨n, removed, ⟨hle, _, hconsumes, htaken⟩, hcut⟩ :=
    (hx.mono (fun _ _ => id) (fun _ t ht => ⟨0, 0, ht, .inl rfl⟩) id).final
  rw [PipeState.consumed, hfree]
  refine h.removed hconsumes hle hcut ?_
  rw [htaken, List.drop_left]

theorem finish {held : Held} (answer : Except AxError Nat) (h : p.Sound) (hheld : p.held = some held) :
    (p.finish held answer).Sound := by
  obtain ⟨hle, hbytes⟩ := h.held held hheld
  have hdrop : PipeState.Sound { p with held := none } := ⟨h.ring, h.log, fun held hnone => by cases hnone⟩
  cases answer with
  | error e => exact hdrop
  | ok accepted =>
      rw [PipeState.finish]
      split
      · exact hdrop
      · have hroom : ¬ p.ring.occupiedLen < accepted := by omega
        rw [commitPipePrefix, if_neg hroom]
        refine h.removed (Consumes.one (by omega)) le_rfl (.inl rfl) ?_
        rw [hbytes, List.take_take, Nat.min_eq_left (by omega)]

theorem call {c : Call} (h : p.Sound) (hcall : p.call c = some q) : q.Sound := by
  cases c with
  | write src atomicLen =>
      cases hcall
      exact h.written ((writePipeBuffer_spec atomicLen h.ring).mono (fun _ _ => id)
        (fun _ _ ht => ⟨0, _, Wrote.zero, ht⟩) id)
  | writePackets src =>
      cases hcall
      exact h.written (writePipePackets_spec h.ring)
  | read dst =>
      rw [PipeState.call] at hcall
      split at hcall
      · cases hcall
      · rename_i hfree
        cases hcall
        exact h.consumed (by simpa using hfree) ((readPipeBuffer_spec h.ring).mono
          (fun transfer t ht => ⟨transfer.len, ht.1⟩) (fun _ _ => id) id)
  | spliceRead dst =>
      rw [PipeState.call] at hcall
      split at hcall
      · cases hcall
      · rename_i hfree
        cases hcall
        exact h.consumed (by simpa using hfree) (spliceReadPipeBuffer_spec.mono
          (fun transfer t ht => ⟨transfer.len, transfer.len, ht.1, .inl rfl⟩) (fun _ _ => id) id)
  | reserve dstLen sourceClosed =>
      rw [PipeState.call] at hcall
      split at hcall
      · cases hcall
      split at hcall
      · rename_i reservation bytes hreserve
        obtain ⟨havailable, _, hbytes⟩ := reservePipePrefix_spec hreserve
        cases hcall
        refine ⟨h.ring, h.log, ?_⟩
        intro held hheld
        cases hheld
        exact ⟨by rw [havailable]; exact Nat.min_le_left _ _, hbytes⟩
      · cases hcall
        exact h
  | commit answer =>
      rw [PipeState.call, Option.map_eq_some_iff] at hcall
      obtain ⟨held, hheld, rfl⟩ := hcall
      exact h.finish answer hheld
  | resize requested limit memory =>
      cases hcall
      obtain ⟨hring, hsame⟩ := resize_kept requested limit memory h.ring
      exact ⟨hring, h.log.rehoused hsame, fun held hheld => (h.held held hheld).rehoused hsame⟩

theorem create {capacity : Nat} (h : pipeBufSize ∣ capacity) : (PipeState.create capacity).Sound := by
  refine ⟨PipeRing.Sound.new h, ⟨rfl, rfl, ?_, .nil, fun pos hpos => absurd hpos (Nat.not_lt_zero pos)⟩, ?_⟩
  · intro delivery hnone
    cases hnone
  · intro held hnone
    cases hnone

end PipeState.Sound

namespace System

variable {s t : System} {p q : PipeState} {i j : Nat}

theorem splice_sound (len : Nat) (hp : p.Sound) (hq : q.Sound) (hfree : p.held = none) :
    (splice p q len).1.Sound ∧ (splice p q len).2.Sound := by
  obtain ⟨hconsumes, hpush⟩ := movePipeBuffer_spec len hp.ring hq.ring
  rw [splice]
  constructor
  · rw [hfree]
    refine hp.removed hconsumes le_rfl (.inl rfl) ?_
    rw [hpush.items.1, List.drop_left]
  · exact hq.pushed hpush hconsumes.items.1

theorem tee_sound (len : Nat) (hq : q.Sound) : (tee p q len).Sound := by
  obtain ⟨hle, hpush⟩ := copyPipeBuffer_spec p.ring len hq.ring
  exact hq.pushed hpush hle

theorem ends_eq_some (h : s.ends i j = some (p, q)) : s[i]? = some p ∧ s[j]? = some q ∧ i ≠ j ∧ p.held = none := by
  rw [ends, Option.bind_eq_bind, Option.bind_eq_some_iff] at h
  obtain ⟨p', hp, h⟩ := h
  rw [Option.bind_eq_some_iff] at h
  obtain ⟨q', hq, h⟩ := h
  split at h
  · cases h
  · rename_i hfree
    cases h
    rw [not_or] at hfree
    exact ⟨hp, hq, hfree.1, by simpa using hfree.2⟩

def Sound (s : System) : Prop := ∀ p ∈ s, p.Sound

theorem Sound.set (h : s.Sound) (hp : p.Sound) (i : Nat) : Sound (s.set i p) := by
  intro q hq
  rcases List.mem_or_eq_of_mem_set hq with hold | rfl
  · exact h q hold
  · exact hp

theorem Sound.step {op : Op} (h : s.Sound) (hstep : s.step op = some t) : t.Sound := by
  cases op with
  | create capacity =>
      rw [System.step] at hstep
      split at hstep
      · rename_i hpages
        cases hstep
        intro p hp
        rw [List.mem_append, List.mem_singleton] at hp
        rcases hp with hold | rfl
        · exact h p hold
        · exact PipeState.Sound.create hpages
      · cases hstep
  | call i c =>
      rw [System.step, Option.map_eq_some_iff] at hstep
      obtain ⟨q, hcall, rfl⟩ := hstep
      rw [Option.bind_eq_some_iff] at hcall
      obtain ⟨p, hp, hcall⟩ := hcall
      exact h.set ((h p (List.mem_of_getElem? hp)).call hcall) i
  | splice i j len =>
      rw [System.step, Option.map_eq_some_iff] at hstep
      obtain ⟨⟨p, q⟩, hends, rfl⟩ := hstep
      obtain ⟨hp, hq, _, hfree⟩ := ends_eq_some hends
      have hsound := splice_sound len (h p (List.mem_of_getElem? hp)) (h q (List.mem_of_getElem? hq)) hfree
      exact (h.set hsound.1 i).set hsound.2 j
  | tee i j len =>
      rw [System.step, Option.map_eq_some_iff] at hstep
      obtain ⟨⟨p, q⟩, hends, rfl⟩ := hstep
      obtain ⟨_, hq, _, _⟩ := ends_eq_some hends
      exact h.set (tee_sound len (h q (List.mem_of_getElem? hq))) j

end System

theorem Reachable.sound {s : System} (h : Reachable s) : s.Sound := by
  induction h with
  | start => exact fun _ hnone => by cases hnone
  | step op _ hstep ih => exact ih.step hstep

/-- In every state that any run reaches, a ring is sound, what was removed and what
it stores are what was committed, and no byte was delivered twice. Whatever is
pushed next arrives in pieces whose marks are accepted, a change of the capacity
keeps the marks, and a read returns bytes of one packet at most. -/
theorem pipe_rings {s : System} {p : PipeState} (h : Reachable s) (hp : p ∈ s) :
    p.ring.Sound ∧ p.log.Accounts p.ring ∧
    (∀ src atomicLen, ∃ k ≤ src.remaining,
      Pushes p.ring (src.bytes.take k) (writePipeBuffer atomicLen (p.ring, src)).2.1) ∧
    (∀ src, ∃ k ≤ src.remaining, Pushes p.ring (src.bytes.take k) (writePipePackets (p.ring, src)).2.1) ∧
    (∀ q ∈ s, ∀ len,
      Pushes p.ring (q.ring.bytes.items.take (movePipeBuffer q.ring p.ring len).2.2.len)
        (movePipeBuffer q.ring p.ring len).2.1 ∧
      Pushes p.ring (q.ring.bytes.items.take (copyPipeBuffer q.ring p.ring len).2.len)
        (copyPipeBuffer q.ring p.ring len).1) ∧
    (∀ requested limit memory, (resize requested limit memory p.ring).2.marks.items = p.ring.marks.items) ∧
    ∀ dst transfer t, readPipeBuffer (p.ring, dst) = (.ok transfer, t) →
      t.2.taken = dst.taken ++ p.ring.bytes.items.take transfer.len ∧
      ∀ mark ∈ p.ring.marks.items, ∀ mark' ∈ p.ring.marks.items,
        mark.start < p.ring.readPos + transfer.len → mark'.start < p.ring.readPos + transfer.len → mark = mark' := by
  have hring := (h.sound p hp).ring
  refine ⟨hring, (h.sound p hp).log, ?_, ?_, ?_, ?_, ?_⟩
  · intro src atomicLen
    apply Wrote.final
    exact (writePipeBuffer_spec atomicLen hring).mono (fun _ _ => id) (fun _ _ ht => ⟨0, _, Wrote.zero, ht⟩) id
  · intro src
    exact Wrote.final (writePipePackets_spec hring)
  · intro q hq len
    exact ⟨(movePipeBuffer_spec len (h.sound q hq).ring hring).2, (copyPipeBuffer_spec q.ring len hring).2⟩
  · intro requested limit memory
    exact (resize_kept requested limit memory hring).2.marks
  · intro dst transfer t hread
    obtain ⟨⟨removed, hbytes, _⟩, hone, _⟩ := (readPipeBuffer_spec hring).ok_of hread
    refine ⟨hbytes.2.2.2, ?_⟩
    intro mark hmark mark' hmark' htouched htouched'
    exact hone.eq_of_touched hring hmark hmark' htouched htouched'

-- The read has room for two bytes of the packet, and the destination of the splice
-- accepts one of two bytes.
def packetRun : List Op :=
  [.create 8192, .call 0 (.writePackets ⟨[1, 2, 3], []⟩), .call 0 (.write ⟨[4, 5, 6], []⟩ none),
    .call 0 (.read ⟨2, [], []⟩), .call 0 (.spliceRead ⟨2, [], [⟨1, none⟩]⟩)]

theorem Reachable.run {s t : System} {ops : List Op} (h : Reachable s) (hrun : ops.foldlM System.step s = some t) :
    Reachable t := by
  induction ops generalizing s with
  | nil =>
      cases hrun
      exact h
  | cons op ops ih =>
      rw [List.foldlM_cons, Option.bind_eq_bind, Option.bind_eq_some_iff] at hrun
      obtain ⟨u, hstep, hrest⟩ := hrun
      exact ih (h.step op hstep) hrest

theorem pipe_rings_truncated : ∃ s p, Reachable s ∧ p ∈ s ∧ p.log.committed = [1, 2, 3, 4, 5, 6] ∧
    p.log.removed = [1, 2, 3, 4] ∧
    p.log.deliveries = [⟨0, [1, 2], some ⟨0, 3, pipeBufFlagPacket⟩⟩, ⟨3, [4], none⟩] ∧ p.ring.bytes.items = [5, 6] ∧
    p.ring.Sound ∧ (∀ pos < 4, ∃ delivery ∈ p.log.deliveries, delivery.Covers pos) ∧
    p.log.deliveries.Pairwise (fun a b => a.stop ≤ b.start) := by
  have hrun : ∃ p : PipeState, packetRun.foldlM System.step [] = some [p] ∧ p.log.committed = [1, 2, 3, 4, 5, 6] ∧
      p.log.removed = [1, 2, 3, 4] ∧ p.log.deliveries = [⟨0, [1, 2], some ⟨0, 3, pipeBufFlagPacket⟩⟩, ⟨3, [4], none⟩] ∧
      p.ring.bytes.items = [5, 6] := ⟨_, rfl, rfl, rfl, rfl, rfl⟩
  obtain ⟨p, hrun, hcommitted, hremoved, hdeliveries, hitems⟩ := hrun
  have hreach : Reachable [p] := Reachable.start.run hrun
  have hmem : p ∈ [p] := List.mem_singleton_self p
  obtain ⟨hsound, haccounts, -⟩ := pipe_rings hreach hmem
  have hcovered := haccounts.covered
  rw [hremoved] at hcovered
  exact ⟨[p], p, hreach, hmem, hcommitted, hremoved, hdeliveries, hitems, hsound, hcovered, haccounts.apart⟩

end TheKernel.Pipe
