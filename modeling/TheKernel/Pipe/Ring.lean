import Mathlib.Data.Nat.Log
import TheKernel.Lib.Action
import TheKernel.Lib.Fifo

namespace TheKernel.Pipe

inductive AxError
  | wouldBlock
  | badState
  | invalidInput
  | resourceBusy
  | noMemory
  | operationNotPermitted
  | noBufferSpace
  | badFileDescriptor
  | brokenPipe
  | badAddress
  | interrupted
  | io (errno : Nat)
  deriving DecidableEq

def pipeBufSize : Nat := 4096

def pipeMaxCapacityArg : Nat := 1 <<< 31

def pipeBufFlagPacket : UInt8 := 0x08

def pipeBufFlagWhole : UInt8 := 0x20

structure PipeBufferMark where
  start : Nat
  len : Nat
  flags : UInt8
  deriving DecidableEq

/-- The positions count the bytes of the pipe's whole life: they are `u64` in the
source, so that the model is of pipes through which fewer than `2 ^ 64` pass. -/
structure PipeRing where
  bytes : Fifo UInt8
  marks : Fifo PipeBufferMark
  writePos : Nat
  readPos : Nat

def divCeil (n d : Nat) : Nat := (n + d - 1) / d

namespace PipeRing

def maxUsage (capacity : Nat) : Nat := max (capacity / pipeBufSize) 1

def new (capacity : Nat) : PipeRing := ⟨Fifo.empty capacity, Fifo.empty (maxUsage capacity), 0, 0⟩

def capacity (r : PipeRing) : Nat := r.bytes.capacity

def occupiedLen (r : PipeRing) : Nat := r.bytes.occupiedLen

def vacantLen (r : PipeRing) : Nat := r.bytes.vacantLen

def isEmpty (r : PipeRing) : Bool := r.bytes.isEmpty

def tailStreamLen (r : PipeRing) : Nat :=
  match r.marks.items.getLast? with
  | some mark => r.writePos - mark.start - mark.len
  | none => r.occupiedLen

def occupiedBuffers (r : PipeRing) : Nat := r.marks.occupiedLen + divCeil r.tailStreamLen pipeBufSize

def vacantBuffers (r : PipeRing) : Nat := r.marks.capacity - r.occupiedBuffers

def headStreamLen (r : PipeRing) : Nat :=
  match r.marks.items.head? with
  | some mark => min (mark.start - r.readPos) r.occupiedLen
  | none => r.occupiedLen

def headPacket (r : PipeRing) : Option (Nat × UInt8) :=
  (r.marks.items.head?.filter fun mark => mark.start == r.readPos).map fun mark => (mark.len, mark.flags)

def trimMark (pos : Nat) (mark : PipeBufferMark) : PipeBufferMark :=
  if mark.start < pos then { mark with len := mark.len - (pos - mark.start), start := pos } else mark

def advanceRead (r : PipeRing) (count : Nat) : PipeRing :=
  let readPos := r.readPos + count
  { r with
    bytes := r.bytes.advanceRead count
    readPos
    marks := (r.marks.popWhile fun mark => mark.start + mark.len ≤ readPos).modifyFirst (trimMark readPos) }

def commitStream (r : PipeRing) (count : Nat) : PipeRing := { r with writePos := r.writePos + count }

def commitPacket (r : PipeRing) (count : Nat) (flags : UInt8) : PipeRing :=
  { r with marks := (r.marks.tryPush ⟨r.writePos, count, flags⟩).2, writePos := r.writePos + count }

end PipeRing

def pipeRingFull (ring : PipeRing) : Bool := ring.vacantBuffers == 0

def pipePollWritable (ring : PipeRing) : Bool := decide (pipeBufSize ≤ ring.vacantLen) && !pipeRingFull ring

structure PipeTransfer where
  len : Nat
  wakeReaders : Bool
  becameWritable : Bool
  deriving DecidableEq

def PipeTransfer.none : PipeTransfer := ⟨0, false, false⟩

/-- How one call on a source or a destination goes: how far it gets, and the
error it then reports, if it does. -/
structure Answer where
  count : Nat
  error : Option AxError

/-- A source of bytes. A call that no answer stands for fills the buffer it is given. -/
structure IoSrc where
  bytes : List UInt8
  answers : List Answer

namespace IoSrc

def remaining (s : IoSrc) : Nat := s.bytes.length

def read (n : Nat) : Act IoSrc AxError (List UInt8) := fun s =>
  match s.answers with
  | [] => (.ok (s.bytes.take n), ⟨s.bytes.drop n, []⟩)
  | ⟨count, none⟩ :: answers => (.ok (s.bytes.take (min count n)), ⟨s.bytes.drop (min count n), answers⟩)
  | ⟨count, some e⟩ :: answers => (.err e, ⟨s.bytes.drop (min count n), answers⟩)

end IoSrc

/-- A destination: the room it has left and the bytes it has accepted. -/
structure IoDst where
  room : Nat
  taken : List UInt8
  answers : List Answer

namespace IoDst

def remainingMut (d : IoDst) : Nat := d.room

def accept (d : IoDst) (xs : List UInt8) (answers : List Answer) : IoDst :=
  ⟨d.room - xs.length, d.taken ++ xs, answers⟩

def write (xs : List UInt8) : Act IoDst AxError Nat := fun d =>
  match d.answers with
  | [] => (.ok (min xs.length d.room), d.accept (xs.take d.room) [])
  | ⟨count, none⟩ :: answers =>
      (.ok (min (min count xs.length) d.room), d.accept (xs.take (min count d.room)) answers)
  | ⟨count, some e⟩ :: answers => (.err e, ⟨d.room - min count xs.length, d.taken, answers⟩)

end IoDst

/-- A call on the source, and a change of the ring, of a method that has both. -/
def onSrc {α : Type} (x : Act IoSrc AxError α) : Act (PipeRing × IoSrc) AxError α := x.zoom (·.2) fun t s => (s.1, t)

def onDst {α : Type} (x : Act IoDst AxError α) : Act (PipeRing × IoDst) AxError α := x.zoom (·.2) fun t s => (s.1, t)

def onRing {σ : Type} (f : PipeRing → PipeRing) : Act (PipeRing × σ) AxError Unit := Act.modify fun s => (f s.1, s.2)

def readRight (left right maxLen count : Nat) : Act (PipeRing × IoSrc) AxError (List UInt8) :=
  if count = left ∧ count < maxLen then onSrc (IoSrc.read (min right (maxLen - count))) else pure []

def pushSource (maxLen : Nat) : Act (PipeRing × IoSrc) AxError Nat := do
  let s ← Act.get
  let leftLen := min s.1.bytes.vacantSlices.1 maxLen
  let left ← onSrc (IoSrc.read leftLen)
  let right ← readRight leftLen s.1.bytes.vacantSlices.2 maxLen left.length
  onRing fun ring => { ring with bytes := ring.bytes.extend (left ++ right) }
  pure (left.length + right.length)

def tailUsed (tail : Nat) : Nat := if tail % pipeBufSize = 0 then pipeBufSize else tail % pipeBufSize

def mergeRoom (ring : PipeRing) (totalLen : Nat) : Nat :=
  if 0 < ring.tailStreamLen ∧ tailUsed ring.tailStreamLen + (totalLen &&& (pipeBufSize - 1)) ≤ pipeBufSize then
    totalLen &&& (pipeBufSize - 1)
  else 0

def streamWriteRoom (ring : PipeRing) (totalLen : Nat) : Nat :=
  mergeRoom ring totalLen + ring.vacantBuffers * pipeBufSize

def writePipeBuffer (atomicLen : Option Nat) : Act (PipeRing × IoSrc) AxError PipeTransfer := do
  let s ← Act.get
  let room := min s.1.vacantLen (streamWriteRoom s.1 s.2.remaining)
  if atomicLen.any fun len => decide (room < len) then pure PipeTransfer.none
  else do
    let count ← pushSource (min (atomicLen.getD room) room)
    onRing fun ring => ring.commitStream count
    pure ⟨count, decide (0 < count), false⟩

/-- The merge step of a packetized write: the bytes it puts into the tail of an
earlier stream write. -/
def mergePackets : Act (PipeRing × IoSrc) AxError Nat := do
  let s ← Act.get
  let mergeChars := s.2.remaining &&& (pipeBufSize - 1)
  let mergeLen := min mergeChars s.1.vacantLen
  if 0 < mergeChars ∧ s.1.isEmpty = false ∧ 0 < s.1.tailStreamLen ∧
      tailUsed s.1.tailStreamLen + mergeLen ≤ pipeBufSize then do
    let count ← pushSource mergeLen
    onRing fun ring => ring.commitStream count
    pure count
  else pure 0

/-- The `while` of a packetized write; a round that does not end it takes a byte
off the source, so `fuel` rounds are enough for as many bytes. -/
def packetLoop : Nat → Nat → Act (PipeRing × IoSrc) AxError Nat
  | 0, written => pure written
  | fuel + 1, written => do
      let s ← Act.get
      let chunk := min s.2.remaining pipeBufSize
      if s.2.remaining = 0 ∨ pipeRingFull s.1 = true ∨ s.1.vacantLen < chunk then pure written
      else do
        let count ← pushSource chunk
        if count = 0 then pure written
        else do
          onRing fun ring => ring.commitPacket count pipeBufFlagPacket
          if count < chunk then pure (written + count) else packetLoop fuel (written + count)

def writePipePackets : Act (PipeRing × IoSrc) AxError PipeTransfer := do
  let merged ← mergePackets
  let s ← Act.get
  let written ← packetLoop s.2.remaining merged
  pure ⟨written, decide (0 < written), false⟩

def writeAttempt (packetized : Bool) (size : Nat) : Act (PipeRing × IoSrc) AxError PipeTransfer :=
  if packetized then writePipePackets else writePipeBuffer (if size ≤ pipeBufSize then some size else none)

/-- The second slice: an error after the first slice went through is not reported. -/
def writeRight (xs : List UInt8) (count : Nat) : Act (PipeRing × IoDst) AxError Nat := fun s =>
  match onDst (IoDst.write xs) s with
  | (.err e, t) => if count = 0 then (.err e, t) else (.ok count, t)
  | (.ok written, t) => (.ok (count + written), t)
  | (.panic, t) => (.panic, t)

def copyRingPrefix (len : Nat) : Act (PipeRing × IoDst) AxError Nat := do
  let s ← Act.get
  let left := s.1.bytes.occupiedSlices.1
  let leftLen := min left.length len
  let count ← onDst (IoDst.write (left.take leftLen))
  if count = leftLen ∧ leftLen < len then writeRight (s.1.bytes.occupiedSlices.2.take (len - leftLen)) count
  else pure count

def readStream (totalLen : Nat) : Act (PipeRing × IoDst) AxError Nat := do
  let s ← Act.get
  if 0 < s.1.headStreamLen ∧ 0 < totalLen then do
    let written ← copyRingPrefix (min s.1.headStreamLen totalLen)
    onRing fun ring => ring.advanceRead written
    pure written
  else pure 0

/-- The packet is released whole once the destination has taken what was asked for. -/
def readPacketBytes (len totalLen read : Nat) : Act (PipeRing × IoDst) AxError Nat := fun s =>
  match copyRingPrefix (min len totalLen) s with
  | (.ok written, t) => (.ok written, (t.1.advanceRead (if written < min len totalLen then written else len), t.2))
  | (.err e, t) => if read = 0 then (.err e, t) else (.ok 0, t)
  | (.panic, t) => (.panic, t)

/-- The packet that a read has reached, after `read` bytes of the stream prefix. -/
def readPacket (totalLen read : Nat) : Act (PipeRing × IoDst) AxError Nat := fun s =>
  match s.1.headPacket with
  | none => (.ok 0, s)
  | some (len, flags) =>
      if totalLen = 0 then (.ok 0, s)
      else if totalLen < len ∧ flags &&& pipeBufFlagWhole ≠ 0 then
        if read = 0 then (.err .noBufferSpace, s) else (.ok 0, s)
      else readPacketBytes len totalLen read s

def readPipeBuffer : Act (PipeRing × IoDst) AxError PipeTransfer := do
  let s ← Act.get
  let read ← readStream s.2.remainingMut
  let packet ← readPacket (s.2.remainingMut - read) read
  let t ← Act.get
  pure ⟨read + packet, false, !pipePollWritable s.1 && pipePollWritable t.1⟩

def spliceReadPipeBuffer : Act (PipeRing × IoDst) AxError PipeTransfer := do
  let s ← Act.get
  let count ← copyRingPrefix (min s.1.occupiedLen s.2.remainingMut)
  onRing fun ring => ring.advanceRead count
  let t ← Act.get
  pure ⟨count, false, !pipePollWritable s.1 && pipePollWritable t.1⟩

structure PipeReadReservation where
  available : Nat
  wasWritable : Bool
  deriving DecidableEq

structure PipeRun where
  len : Nat
  flags : Option UInt8

def headRun (ring : PipeRing) : PipeRun :=
  match ring.headPacket with
  | some (len, flags) => ⟨len, some flags⟩
  | none => ⟨ring.headStreamLen, none⟩

def runIn (writePos pos : Nat) : List PipeBufferMark → PipeRun
  | [] => ⟨writePos - pos, none⟩
  | mark :: marks =>
      if pos < mark.start then ⟨mark.start - pos, none⟩
      else if pos < mark.start + mark.len then ⟨mark.start + mark.len - pos, some mark.flags⟩
      else runIn writePos pos marks

def runAt (ring : PipeRing) (pos : Nat) : PipeRun := runIn ring.writePos pos ring.marks.items

/-- The two loops of `copy_slices_to_ring`: the rests of the destination's slices
and of the source's slices, and the bytes still wanted. -/
def copySlices : List Nat → List (List UInt8) → Nat → List UInt8
  | [], _, _ => []
  | _ :: _, [], _ => []
  | d :: ds, x :: xs, wanted =>
      if d = 0 ∨ wanted = 0 then copySlices ds (x :: xs) wanted
      else if x.isEmpty then copySlices (d :: ds) xs wanted
      else
        let count := min (min d wanted) x.length
        x.take count ++ copySlices ((d - count) :: ds) (x.drop count :: xs) (wanted - count)
  termination_by ds xs wanted => ds.length + xs.length + wanted
  decreasing_by
    · simp only [List.length_cons]
      omega
    · simp only [List.length_cons]
      omega
    · rename_i hmore hbytes
      have hx : 0 < x.length := List.length_pos_iff.mpr (by simpa using hbytes)
      simp only [List.length_cons]
      omega

def copySlicesToRing (dst : Fifo UInt8) (src : List (List UInt8)) (maxLen : Nat) : Nat × Fifo UInt8 :=
  let copied := copySlices [dst.vacantSlices.1, dst.vacantSlices.2] src maxLen
  (copied.length, dst.extend copied)

def commitRun (dst : PipeRing) (run : PipeRun) (written : Nat) : PipeRing :=
  match run.flags with
  | some flags => dst.commitPacket written flags
  | none => dst.commitStream written

def copyPipeRun (src dst : PipeRing) (run : PipeRun) (maxLen srcOffset : Nat) : Nat × PipeRing :=
  let room := min dst.vacantLen (dst.vacantBuffers * pipeBufSize)
  let take := min (min run.len maxLen) room
  if take = 0 then (0, dst)
  else
    let left := src.bytes.occupiedSlices.1
    let right := src.bytes.occupiedSlices.2
    let leftSkip := min srcOffset left.length
    let copied := copySlicesToRing dst.bytes [left.drop leftSkip, right.drop (srcOffset - leftSkip)] take
    if copied.1 = 0 then (0, dst)
    else (copied.1, commitRun { dst with bytes := copied.2 } run copied.1)

def moveLoop (src dst : PipeRing) (maxLen total : Nat) : PipeRing × PipeRing × Nat :=
  if total < maxLen then
    let copied := copyPipeRun src dst (headRun src) (maxLen - total) 0
    if copied.1 = 0 then (src, dst, total)
    else moveLoop (src.advanceRead copied.1) copied.2 maxLen (total + copied.1)
  else (src, dst, total)
  termination_by maxLen - total
  decreasing_by
    rename_i hmore hcopied
    exact Nat.sub_lt_sub_left hmore (Nat.lt_add_of_pos_right (Nat.pos_of_ne_zero hcopied))

def movePipeBuffer (src dst : PipeRing) (maxLen : Nat) : PipeRing × PipeRing × PipeTransfer :=
  let moved := moveLoop src dst maxLen 0
  (moved.1, moved.2.1, ⟨moved.2.2, decide (0 < moved.2.2), false⟩)

def copyLoop (src dst : PipeRing) (available total : Nat) : PipeRing × Nat :=
  if total < available then
    let copied := copyPipeRun src dst (runAt src (src.readPos + total)) (available - total) total
    if copied.1 = 0 then (dst, total)
    else copyLoop src copied.2 available (total + copied.1)
  else (dst, total)
  termination_by available - total
  decreasing_by
    rename_i hmore hcopied
    exact Nat.sub_lt_sub_left hmore (Nat.lt_add_of_pos_right (Nat.pos_of_ne_zero hcopied))

def copyPipeBuffer (src dst : PipeRing) (maxLen : Nat) : PipeRing × PipeTransfer :=
  let copied := copyLoop src dst (min maxLen src.occupiedLen) 0
  (copied.1, ⟨copied.2, decide (0 < copied.2), false⟩)

def reservePipePrefix (source : PipeRing) (dstLen : Nat) (sourceClosed : Bool) :
    Outcome AxError (Option (PipeReadReservation × List UInt8)) :=
  let available := min source.occupiedLen dstLen
  if available = 0 then if sourceClosed then .ok none else .err .wouldBlock
  else
    let left := source.bytes.occupiedSlices.1
    let leftLen := min left.length available
    .ok (some (⟨available, pipePollWritable source⟩,
      left.take leftLen ++ source.bytes.occupiedSlices.2.take (available - leftLen)))

def commitPipePrefix (written : Nat) (reservation : PipeReadReservation) : Act PipeRing AxError PipeTransfer :=
  fun source =>
  if source.occupiedLen < written then (.err .badState, source)
  else
    (.ok ⟨written, false, !reservation.wasWritable && pipePollWritable (source.advanceRead written)⟩,
      source.advanceRead written)

def roundPipeSize (size : Nat) : Outcome AxError Nat :=
  if pipeMaxCapacityArg < size then .err .invalidInput
  else if size < pipeBufSize then .ok pipeBufSize
  else if 2 ^ Nat.clog 2 size ≤ pipeMaxCapacityArg then .ok (2 ^ Nat.clog 2 size)
  else .err .invalidInput

/-- The ring that takes the place of `buffer`: its payload and its marks pushed
into new storage. -/
def replacement (buffer : PipeRing) (newSize : Nat) : PipeRing :=
  { bytes := ((Fifo.empty newSize).extend buffer.bytes.occupiedSlices.1).extend buffer.bytes.occupiedSlices.2
    marks := buffer.marks.items.foldl (fun marks mark => (marks.tryPush mark).2)
      (Fifo.empty (PipeRing.maxUsage newSize))
    writePos := buffer.writePos
    readPos := buffer.readPos }

/-- `limit` is the capacity limit of a caller that it binds, `memory` whether the
new storage can be had. The result says whether the writers are woken. -/
def resize (requested : Nat) (limit : Option Nat) (memory : Bool) : Act PipeRing AxError Bool := do
  let newSize ← Act.lift (roundPipeSize requested)
  let buffer ← Act.get
  if limit.any fun most => decide (most < newSize) then Act.fail .operationNotPermitted
  else if newSize = buffer.capacity then pure false
  else if PipeRing.maxUsage newSize < buffer.occupiedBuffers ∨ newSize < buffer.occupiedLen then Act.fail .resourceBusy
  else if memory = false then Act.fail .noMemory
  else do
    Act.set (replacement buffer newSize)
    pure true

end TheKernel.Pipe
