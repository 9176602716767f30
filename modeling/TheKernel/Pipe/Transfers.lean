import TheKernel.Pipe.Changes

namespace TheKernel.Pipe

open Act

section

variable {r : PipeRing} {d : IoDst} {n len : Nat} {xs : List UInt8}

theorem IoDst.write_spec (xs : List UInt8) (d : IoDst) : Ensures (IoDst.write xs) d
    (fun n t => n ≤ xs.length ∧ t.taken = d.taken ++ xs.take n) (fun _ t => t.taken = d.taken) False := by
  rcases d with ⟨room, taken, answers⟩
  cases answers with
  | nil =>
      refine ⟨by simp, ?_⟩
      simp only [accept, List.append_cancel_left_eq]
      rw [List.take_eq_take_iff]
      omega
  | cons answer answers =>
      rcases answer with ⟨count, error⟩
      cases error with
      | none =>
          refine ⟨by simp, ?_⟩
          simp only [accept, List.append_cancel_left_eq]
          rw [List.take_eq_take_iff]
          omega
      | some e => rfl

theorem ensures_onDst {α : Type} {x : Act IoDst AxError α} {p : α → IoDst → Prop} {q : AxError → IoDst → Prop}
    (h : Ensures x d p q False) :
    Ensures (onDst x) (r, d) (fun a t => t.1 = r ∧ p a t.2) (fun e t => t.1 = r ∧ q e t.2) False := by
  rw [Ensures] at h ⊢
  rw [onDst, Act.zoom]
  rcases hres : x d with ⟨o, t⟩
  rw [hres] at h
  cases o with
  | ok a => exact ⟨rfl, h⟩
  | err e => exact ⟨rfl, h⟩
  | panic => exact h

theorem writeRight_spec (count : Nat) : Ensures (writeRight xs count) (r, d)
    (fun n t => ∃ k, n = count + k ∧ k ≤ xs.length ∧ t.1 = r ∧ t.2.taken = d.taken ++ xs.take k)
    (fun _ t => count = 0 ∧ t.1 = r ∧ t.2.taken = d.taken) False := by
  have hwrite := ensures_onDst (r := r) (IoDst.write_spec xs d)
  rw [Ensures] at hwrite ⊢
  rw [writeRight]
  rcases hres : onDst (IoDst.write xs) (r, d) with ⟨o, t⟩
  rw [hres] at hwrite
  cases o with
  | ok n => exact ⟨n, rfl, hwrite.2.1, hwrite.1, hwrite.2.2⟩
  | err e =>
      by_cases hcount : count = 0
      · simp only [hcount, if_pos]
        exact ⟨trivial, hwrite⟩
      · simp only [hcount, if_false]
        exact ⟨0, rfl, Nat.zero_le _, hwrite.1, by simpa using hwrite.2⟩
  | panic => exact hwrite

/-- The destination has taken the first `n` bytes of the ring, which stands as it was. -/
def Took (r : PipeRing) (d : IoDst) (n : Nat) (t : PipeRing × IoDst) : Prop :=
  t.1 = r ∧ t.2.taken = d.taken ++ r.bytes.items.take n

theorem copyRingPrefix_spec (hlen : len ≤ r.occupiedLen) : Ensures (copyRingPrefix len) (r, d)
    (fun n t => n ≤ len ∧ Took r d n t) (fun _ t => Took r d 0 t) False := by
  have happend := r.bytes.occupiedSlices_append
  rw [copyRingPrefix]
  apply ensures_get_bind
  simp only
  generalize r.bytes.occupiedSlices.1 = left at *
  generalize r.bytes.occupiedSlices.2 = right at *
  refine ((ensures_onDst (IoDst.write_spec _ _)).mono (fun _ _ => id) ?_ id).bind ?_
  · rintro e t ⟨ht, htaken⟩
    exact ⟨ht, by simpa using htaken⟩
  · rintro count ⟨ring, t⟩ ⟨hring, hcount, htaken⟩
    simp only at hring htaken
    subst hring
    rw [List.length_take] at hcount
    rw [List.take_take, Nat.min_eq_left (by omega)] at htaken
    have hleft : ring.bytes.items.take count = left.take count := by
      rw [← happend, List.take_append_of_le_length (by omega)]
    split
    · rename_i hmore
      have hfull : count = left.length := by omega
      refine (writeRight_spec count).mono ?_ ?_ id
      · rintro n u ⟨k, rfl, hk, hring, hu⟩
        rw [List.length_take] at hk
        refine ⟨by omega, hring, ?_⟩
        rw [hu, htaken, List.take_take, Nat.min_eq_left (by omega), List.append_assoc, ← happend, hfull,
          List.take_length, List.take_length_add_append]
      · rintro e u ⟨hzero, hring, hu⟩
        refine ⟨hring, ?_⟩
        rw [hu, htaken, hzero]
        simp
    · exact ensures_pure ⟨by omega, rfl, by rw [hleft]; exact htaken⟩

theorem headStreamLen_le : r.headStreamLen ≤ r.occupiedLen := by
  rw [PipeRing.headStreamLen]
  split
  · exact Nat.min_le_right _ _
  · exact le_rfl

/-- The bytes up to `readPos + n` reach no further than the end of the first packet. -/
def OnePacket (r : PipeRing) (n : Nat) : Prop := ∀ mark ∈ r.marks.items.head?, r.readPos + n ≤ mark.start + mark.len

theorem PipeRing.Sound.head (h : r.Sound) {mark : PipeBufferMark} (hmark : r.marks.items.head? = some mark) :
    r.readPos ≤ mark.start ∧ 0 < mark.len ∧ mark.start + mark.len ≤ r.writePos := by
  obtain ⟨rest, hmarks⟩ := List.head?_eq_some_iff.mp hmark
  have hin := h.marks
  rw [hmarks] at hin
  exact ⟨hin.1, hin.2.1, hin.2.2.le⟩

theorem headStreamLen_of_head (h : r.Sound) {mark : PipeBufferMark} (hmark : r.marks.items.head? = some mark) :
    r.readPos + r.headStreamLen = mark.start := by
  obtain ⟨hle, hlen, hstop⟩ := h.head hmark
  have hpos := h.positions
  rw [PipeRing.headStreamLen, hmark]
  simp only [PipeRing.occupiedLen, Fifo.occupiedLen]
  omega

theorem marks_advanceRead_stream (h : r.Sound) (hn : n ≤ r.headStreamLen) :
    (r.advanceRead n).marks.items = r.marks.items := by
  rw [PipeRing.marks_advanceRead]
  cases hmarks : r.marks.items with
  | nil => rfl
  | cons mark marks =>
      have hmark : r.marks.items.head? = some mark := by rw [hmarks]; rfl
      have hhead := headStreamLen_of_head h hmark
      have hlen := (h.head hmark).2.1
      rw [trim_cons_left (by omega), PipeRing.trimMark, if_neg (by omega)]

theorem headPacket_eq_some {flags : UInt8} (h : r.headPacket = some (len, flags)) :
    ∃ mark, r.marks.items.head? = some mark ∧ mark.start = r.readPos ∧ mark.len = len ∧ mark.flags = flags := by
  rw [PipeRing.headPacket] at h
  cases hhead : r.marks.items.head? with
  | none => simp [hhead] at h
  | some mark =>
      rw [hhead, Option.map_eq_some_iff] at h
      obtain ⟨found, hfilter, hpair⟩ := h
      obtain ⟨hstart, rfl⟩ : found.start = r.readPos ∧ mark = found := by
        simpa [Option.filter_eq_some_iff, and_comm] using hfilter
      cases hpair
      exact ⟨mark, rfl, hstart, rfl, rfl⟩

/-- The destination has taken the first `n` of the `removed` bytes that left the ring. -/
def Read (r : PipeRing) (d : IoDst) (n removed : Nat) (t : PipeRing × IoDst) : Prop :=
  n ≤ removed ∧ (n = 0 → removed = 0) ∧ Consumes r removed t.1 ∧ t.2.taken = d.taken ++ r.bytes.items.take n

theorem Read.zero : Read r d 0 0 (r, d) := ⟨le_rfl, fun _ => rfl, .done r, by simp⟩

theorem Read.of_unchanged {t : PipeRing × IoDst} (hring : t.1 = r) (htaken : t.2.taken = d.taken) : Read r d 0 0 t :=
  ⟨le_rfl, fun _ => rfl, hring ▸ .done r, by simpa using htaken⟩

theorem Read.trans {m k : Nat} {t u : PipeRing × IoDst} (h : Read r d n n t) (h' : Read t.1 t.2 m k u) :
    Read r d (n + m) (n + k) u := by
  obtain ⟨_, _, hconsumes, htaken⟩ := h
  obtain ⟨hle, hzero, hconsumes', htaken'⟩ := h'
  refine ⟨by omega, ?_, hconsumes.trans hconsumes', ?_⟩
  · intro hnone
    have := hzero (by omega)
    omega
  · rw [htaken', htaken, List.append_assoc, hconsumes.items.2.1, ← List.take_add]

theorem readStream_spec (totalLen : Nat) (h : r.Sound) : Ensures (readStream totalLen) (r, d)
    (fun n t => n ≤ totalLen ∧ n ≤ r.headStreamLen ∧ Read r d n n t ∧ t.1.marks.items = r.marks.items)
    (fun _ t => t.1 = r ∧ t.2.taken = d.taken) False := by
  have hoccupied := headStreamLen_le (r := r)
  rw [readStream]
  apply ensures_get_bind
  simp only
  split
  · refine ((copyRingPrefix_spec (by omega)).mono (fun _ _ => id) ?_ id).bind ?_
    · rintro e t ⟨hring, htaken⟩
      exact ⟨hring, by simpa using htaken⟩
    · rintro n ⟨ring, t⟩ ⟨hn, hring, htaken⟩
      simp only at hring htaken
      subst hring
      have hstream : n ≤ ring.headStreamLen := by omega
      apply ensures_modify_bind
      refine ensures_pure ⟨by omega, hstream, ?_, marks_advanceRead_stream h hstream⟩
      exact ⟨le_rfl, id, Consumes.one (by omega), htaken⟩
  · exact ensures_pure ⟨Nat.zero_le _, Nat.zero_le _, Read.zero, rfl⟩

theorem readPacketBytes_spec (totalLen read : Nat) (htotal : 0 < totalLen) (hlen : 0 < len)
    (hle : len ≤ r.occupiedLen) : Ensures (readPacketBytes len totalLen read) (r, d)
      (fun n t => n ≤ len ∧ n ≤ totalLen ∧ ∃ removed, removed ≤ len ∧ Read r d n removed t)
      (fun _ t => read = 0 ∧ t.1 = r ∧ t.2.taken = d.taken) False := by
  have hmin : min len totalLen ≤ r.occupiedLen := by omega
  have hcopy := copyRingPrefix_spec (d := d) hmin
  rw [Ensures] at hcopy ⊢
  rw [readPacketBytes]
  rcases hres : copyRingPrefix (min len totalLen) (r, d) with ⟨o, t⟩
  rw [hres] at hcopy
  cases o with
  | ok n =>
      obtain ⟨hn, hring, htaken⟩ := hcopy
      refine ⟨by omega, by omega, ?_⟩
      rw [← hring] at hle ⊢
      by_cases hshort : n < min len totalLen
      · rw [if_pos hshort]
        exact ⟨n, by omega, le_rfl, id, Consumes.one (by omega), by rw [hring]; exact htaken⟩
      · rw [if_neg hshort]
        exact ⟨len, le_rfl, by omega, by omega, Consumes.one hle, by rw [hring]; exact htaken⟩
  | err e =>
      obtain ⟨hring, htaken⟩ := hcopy
      rw [List.take_zero, List.append_nil] at htaken
      by_cases hread : read = 0
      · simp only [hread, if_pos]
        exact ⟨trivial, hring, htaken⟩
      · simp only [hread, if_false]
        refine ⟨Nat.zero_le _, Nat.zero_le _, 0, Nat.zero_le _, le_rfl, id, ?_, by simpa using htaken⟩
        rw [hring]
        exact .done r
  | panic => exact hcopy

theorem readPacket_spec (totalLen read : Nat) (h : r.Sound) : Ensures (readPacket totalLen read) (r, d)
    (fun n t => n ≤ totalLen ∧ ∃ removed, Read r d n removed t ∧
      (n = 0 ∨ ∃ mark, r.marks.items.head? = some mark ∧ mark.start = r.readPos ∧ n ≤ mark.len ∧ removed ≤ mark.len))
    (fun _ t => read = 0 ∧ t.1 = r ∧ t.2.taken = d.taken) False := by
  rw [Ensures, readPacket]
  simp only
  cases hpacket : r.headPacket with
  | none => exact ⟨Nat.zero_le _, 0, Read.zero, .inl rfl⟩
  | some packet =>
      rcases packet with ⟨len, flags⟩
      obtain ⟨mark, hhead, hstart, rfl, -⟩ := headPacket_eq_some hpacket
      obtain ⟨_, hlen, hstop⟩ := h.head hhead
      have hpos := h.positions
      by_cases htotal : totalLen = 0
      · simp only [htotal, if_pos]
        exact ⟨le_rfl, 0, Read.zero, .inl trivial⟩
      · simp only [htotal, if_false]
        by_cases hwhole : totalLen < mark.len ∧ flags &&& pipeBufFlagWhole ≠ 0
        · simp only [hwhole, ne_eq, not_false_eq_true, and_self, if_true]
          by_cases hread : read = 0
          · simp only [hread, if_true]
            exact ⟨trivial, trivial, trivial⟩
          · simp only [hread, if_false]
            exact ⟨Nat.zero_le _, 0, Read.zero, .inl trivial⟩
        · rw [if_neg hwhole]
          have hbytes := readPacketBytes_spec (r := r) (d := d) totalLen read (Nat.pos_of_ne_zero htotal) hlen (by
            rw [PipeRing.occupiedLen, Fifo.occupiedLen]
            omega)
          refine hbytes.mono ?_ (fun _ _ => id) id
          rintro n t ⟨hn, hmax, removed, hremoved, hread⟩
          exact ⟨hmax, removed, hread, .inr ⟨mark, hhead, hstart, hn, hremoved⟩⟩

/-- Of the `removed` bytes the destination has taken the first `n`, and the others
are the rest of the packet that it took the first part of. -/
def Truncates (packet : Option PipeBufferMark) (pos n removed : Nat) : Prop :=
  removed = n ∨ ∃ mark ∈ packet, mark.start < pos + n ∧ pos + removed ≤ mark.start + mark.len

/-- The writers' wake-up is the edge of the ring becoming writable. -/
theorem readPipeBuffer_spec (h : r.Sound) : Ensures readPipeBuffer (r, d)
    (fun transfer t => (∃ removed, Read r d transfer.len removed t ∧
        Truncates r.marks.items.head? r.readPos transfer.len removed) ∧ OnePacket r transfer.len ∧
      transfer.becameWritable = (!pipePollWritable r && pipePollWritable t.1))
    (fun _ t => Read r d 0 0 t) False := by
  rw [readPipeBuffer]
  apply ensures_get_bind
  refine ((readStream_spec _ h).mono (fun _ _ => id) (fun _ _ ht => Read.of_unchanged ht.1 ht.2) id).bind ?_
  rintro read t ⟨hread, hstream, hfirst, hmarks⟩
  refine ((readPacket_spec _ read (hfirst.2.2.1.sound h)).mono (fun _ _ => id) ?_ id).bind ?_
  · rintro e u ⟨rfl, hring, htaken⟩
    exact hfirst.trans (Read.of_unchanged hring htaken)
  · rintro packet u ⟨hpacket, removed, hsecond, hone⟩
    apply ensures_get_bind
    refine ensures_pure ⟨⟨_, hfirst.trans hsecond, ?_⟩, ?_, rfl⟩
    · by_cases hnone : packet = 0
      · left
        simp only [hsecond.2.1 hnone, hnone]
      · rcases hone with hzero | ⟨mark, hmark, hstart, -, hle⟩
        · exact absurd hzero hnone
        · rw [hmarks] at hmark
          rw [hfirst.2.2.1.items.2.2.1] at hstart
          exact .inr ⟨mark, hmark, by simp only; omega, by omega⟩
    · intro mark hmark
      have hmark : r.marks.items.head? = some mark := hmark
      have hhead := headStreamLen_of_head h hmark
      rcases hone with rfl | ⟨found, hfound, hstart, hle, -⟩
      · simp only
        omega
      · rw [hmarks, hmark] at hfound
        cases hfound
        rw [hfirst.2.2.1.items.2.2.1] at hstart
        simp only
        omega

theorem OnePacket.eq_of_touched {mark mark' : PipeBufferMark} (h : OnePacket r n) (hr : r.Sound)
    (hmark : mark ∈ r.marks.items) (hmark' : mark' ∈ r.marks.items) (htouched : mark.start < r.readPos + n)
    (htouched' : mark'.start < r.readPos + n) : mark = mark' := by
  have hin := hr.marks
  rw [OnePacket] at h
  cases hmarks : r.marks.items with
  | nil =>
      rw [hmarks] at hmark
      cases hmark
  | cons first marks =>
      rw [hmarks] at hin hmark hmark' h
      have hfirst := h first rfl
      have honly : ∀ other ∈ first :: marks, other.start < r.readPos + n → other = first := by
        intro other hmem hlt
        cases hmem with
        | head => rfl
        | tail _ hrest =>
            have := hin.2.2.le_start hrest
            omega
      rw [honly mark hmark htouched, honly mark' hmark' htouched']

end

section

variable {r : PipeRing} {s : IoSrc} {t u : PipeRing × IoSrc} {n k maxLen : Nat}

/-- `xs` is what a call that gets as far as `xs` does takes off the source. -/
def IoSrc.Gives (s : IoSrc) (xs : List UInt8) (t : IoSrc) : Prop :=
  xs = s.bytes.take xs.length ∧ xs.length ≤ s.remaining ∧ t.bytes = s.bytes.drop xs.length

theorem IoSrc.gives_take (answers : List Answer) : s.Gives (s.bytes.take n) ⟨s.bytes.drop n, answers⟩ := by
  rw [Gives, List.length_take, remaining]
  refine ⟨?_, by omega, ?_⟩
  · rw [List.take_eq_take_iff]
    omega
  · rw [List.drop_eq_drop_iff]
    omega

theorem IoSrc.Gives.trans {s t u : IoSrc} {xs ys : List UInt8} (h : s.Gives xs t) (h' : t.Gives ys u) :
    s.Gives (xs ++ ys) u := by
  obtain ⟨hxs, hlen, ht⟩ := h
  obtain ⟨hys, hlen', hu⟩ := h'
  rw [remaining] at hlen hlen'
  rw [ht, List.length_drop] at hlen'
  rw [Gives, List.length_append, remaining]
  refine ⟨?_, by omega, ?_⟩
  · rw [List.take_add, ← hxs, ← ht, ← hys]
  · rw [hu, ht, List.drop_drop]

theorem IoSrc.read_spec : Ensures (IoSrc.read n) s (fun xs t => s.Gives xs t ∧ xs.length ≤ n)
    (fun _ _ => True) False := by
  rcases s with ⟨bytes, answers⟩
  cases answers with
  | nil => exact ⟨gives_take _, by simp⟩
  | cons answer answers =>
      rcases answer with ⟨count, error⟩
      cases error with
      | none => exact ⟨gives_take _, by simp⟩
      | some e => trivial

theorem ensures_onSrc {α : Type} {x : Act IoSrc AxError α} {p : α → IoSrc → Prop} {q : AxError → IoSrc → Prop}
    (h : Ensures x s p q False) :
    Ensures (onSrc x) (r, s) (fun a t => t.1 = r ∧ p a t.2) (fun e t => t.1 = r ∧ q e t.2) False := by
  rw [Ensures] at h ⊢
  rw [onSrc, Act.zoom]
  rcases hres : x s with ⟨o, t⟩
  rw [hres] at h
  cases o with
  | ok a => exact ⟨rfl, h⟩
  | err e => exact ⟨rfl, h⟩
  | panic => exact h

theorem readRight_spec (left right maxLen count : Nat) (hcount : count ≤ maxLen) :
    Ensures (readRight left right maxLen count) (r, s)
      (fun ys t => t.1 = r ∧ s.Gives ys t.2 ∧ ys.length ≤ right ∧ count + ys.length ≤ maxLen)
      (fun _ t => t.1 = r) False := by
  rw [readRight]
  split
  · refine (ensures_onSrc IoSrc.read_spec).mono ?_ ?_ id
    · rintro ys t ⟨ht, hys, hlen⟩
      exact ⟨ht, hys, by omega, by omega⟩
    · rintro e t ⟨ht, _⟩
      exact ht
  · exact ensures_pure ⟨rfl, by simp [IoSrc.Gives], by simp, by simpa using hcount⟩

def PipeRing.filled (r : PipeRing) (xs : List UInt8) : PipeRing := { r with bytes := r.bytes.extend xs }

theorem pushSource_spec : Ensures (pushSource maxLen) (r, s)
    (fun n t => ∃ xs : List UInt8, n = xs.length ∧ n ≤ maxLen ∧ n ≤ r.vacantLen ∧ s.Gives xs t.2 ∧ t.1 = r.filled xs)
    (fun _ t => t.1 = r) False := by
  rw [pushSource]
  apply ensures_get_bind
  refine Ensures.bind ((ensures_onSrc IoSrc.read_spec).mono (fun _ _ => id) (fun _ _ h => h.1) id) ?_
  rintro left ⟨ring, t⟩ ⟨hring, hleft, hlen⟩
  simp only at hring hleft
  subst hring
  have hsum := ring.bytes.vacantSlices_sum
  refine (readRight_spec _ _ maxLen left.length (by omega)).bind ?_
  rintro right ⟨ring', u⟩ ⟨hring, hright, hfits, hmax⟩
  simp only at hring hright hfits hlen
  subst hring
  apply ensures_modify_bind
  refine ensures_pure ⟨left ++ right, by simp, hmax, ?_, hleft.trans hright, rfl⟩
  rw [PipeRing.vacantLen]
  omega

/-- The write has moved the first `k` bytes of the source into the ring. -/
def Wrote (r : PipeRing) (s : IoSrc) (k : Nat) (t : PipeRing × IoSrc) : Prop :=
  k ≤ s.remaining ∧ Pushes r (s.bytes.take k) t.1 ∧ t.2.bytes = s.bytes.drop k

theorem Wrote.zero : Wrote r s 0 (r, s) := ⟨Nat.zero_le _, by simpa using Pushes.done r, by simp⟩

theorem Wrote.trans {k' : Nat} (h : Wrote r s k t) (h' : Wrote t.1 t.2 k' u) : Wrote r s (k + k') u := by
  obtain ⟨hk, hpush, hrest⟩ := h
  obtain ⟨hk', hpush', hrest'⟩ := h'
  rw [IoSrc.remaining] at hk hk'
  rw [hrest, List.length_drop] at hk'
  refine ⟨by rw [IoSrc.remaining]; omega, ?_, ?_⟩
  · rw [List.take_add, ← hrest]
    exact hpush.trans hpush'
  · rw [hrest', hrest, List.drop_drop]

theorem Wrote.stream {xs : List UInt8} (hfits : r.StreamFits xs) (hxs : s.Gives xs t.2) (ht : t.1 = r.pushStream xs) :
    Wrote r s xs.length t := by
  obtain ⟨htake, hlen, hrest⟩ := hxs
  refine ⟨hlen, ?_, hrest⟩
  rw [← htake, ht]
  simpa using Pushes.stream hfits (.done _)

theorem Wrote.packet {xs : List UInt8} {flags : UInt8} (hfits : r.PacketFits xs flags) (hxs : s.Gives xs t.2)
    (ht : t.1 = r.pushPacket xs flags) : Wrote r s xs.length t := by
  obtain ⟨htake, hlen, hrest⟩ := hxs
  refine ⟨hlen, ?_, hrest⟩
  rw [← htake, ht]
  simpa using Pushes.packet hfits (.done _)

theorem divCeil_le_iff {a b : Nat} : divCeil a pipeBufSize ≤ b ↔ a ≤ pipeBufSize * b := by
  rw [divCeil, pipeBufSize]
  omega

/-- What the last page of the tail has left is inside the pages counted for it. -/
theorem tail_page {tail chars : Nat} (htail : 0 < tail) (h : tailUsed tail + chars ≤ pipeBufSize) :
    tail + chars ≤ pipeBufSize * divCeil tail pipeBufSize := by
  rw [divCeil]
  rw [tailUsed] at h
  rw [pipeBufSize] at *
  split at h <;> omega

theorem streamFits_of_room {xs : List UInt8} (total : Nat) (h : r.Sound) (hbytes : xs.length ≤ r.vacantLen)
    (hroom : xs.length ≤ streamWriteRoom r total) : r.StreamFits xs := by
  have hslots := PipeRing.slots_eq h
  have hpages : r.tailStreamLen + mergeRoom r total ≤ pipeBufSize * divCeil r.tailStreamLen pipeBufSize := by
    rw [mergeRoom]
    split
    · rename_i hmerge
      exact tail_page hmerge.1 hmerge.2
    · exact divCeil_le_iff.mp le_rfl
  refine ⟨hbytes, ?_⟩
  have hceil : divCeil (r.tailStreamLen + xs.length) pipeBufSize ≤ divCeil r.tailStreamLen pipeBufSize +
      r.vacantBuffers := by
    rw [divCeil_le_iff, Nat.mul_add]
    rw [streamWriteRoom, Nat.mul_comm r.vacantBuffers] at hroom
    omega
  omega

theorem streamFits_of_merge {xs : List UInt8} (h : r.Sound) (hbytes : xs.length ≤ r.vacantLen)
    (htail : 0 < r.tailStreamLen) (hmerge : tailUsed r.tailStreamLen + xs.length ≤ pipeBufSize) : r.StreamFits xs := by
  have hslots := PipeRing.slots_eq h
  have hceil := divCeil_le_iff.mpr (tail_page htail hmerge)
  exact ⟨hbytes, by omega⟩

theorem packetFits_of_slot {xs : List UInt8} (flags : UInt8) (h : r.Sound) (hpos : 0 < xs.length)
    (hbytes : xs.length ≤ r.vacantLen) (hslot : pipeRingFull r = false) : r.PacketFits xs flags := by
  have hslots := PipeRing.slots_eq h
  have hvacant : r.vacantBuffers ≠ 0 := by simpa [pipeRingFull] using hslot
  exact ⟨hpos, hbytes, hslot, (Fifo.tryPush_accepted (by omega)).1⟩

theorem writePipeBuffer_spec (atomicLen : Option Nat) (h : r.Sound) : Ensures (writePipeBuffer atomicLen) (r, s)
    (fun transfer t => Wrote r s transfer.len t) (fun _ t => t.1 = r) False := by
  rw [writePipeBuffer]
  apply ensures_get_bind
  simp only
  split
  · exact ensures_pure Wrote.zero
  · refine pushSource_spec.bind ?_
    rintro n ⟨ring, t⟩ ⟨xs, rfl, hmax, hvacant, hgives, hring⟩
    simp only at hring hgives
    subst hring
    apply ensures_modify_bind
    have hroom : xs.length ≤ streamWriteRoom r s.remaining := by omega
    exact ensures_pure (Wrote.stream (streamFits_of_room _ h hvacant hroom) hgives rfl)

theorem mergePackets_spec (h : r.Sound) : Ensures mergePackets (r, s)
    (fun n t => Wrote r s n t) (fun _ t => t.1 = r) False := by
  rw [mergePackets]
  apply ensures_get_bind
  simp only
  split
  · rename_i hmerge
    obtain ⟨_, _, htail, hused⟩ := hmerge
    refine pushSource_spec.bind ?_
    rintro n ⟨ring, t⟩ ⟨xs, rfl, hmax, hvacant, hgives, hring⟩
    simp only at hring hgives
    subst hring
    apply ensures_modify_bind
    exact ensures_pure (Wrote.stream (streamFits_of_merge h hvacant htail (by omega)) hgives rfl)
  · exact ensures_pure Wrote.zero

theorem packetLoop_spec (fuel written : Nat) (h : r.Sound) : Ensures (packetLoop fuel written) (r, s)
    (fun n t => ∃ k, n = written + k ∧ Wrote r s k t) (fun _ t => ∃ k u, Wrote r s k u ∧ t.1 = u.1) False := by
  induction fuel generalizing r s written with
  | zero => exact ensures_pure ⟨0, rfl, Wrote.zero⟩
  | succ fuel ih =>
      rw [packetLoop]
      apply ensures_get_bind
      simp only
      split
      · exact ensures_pure ⟨0, rfl, Wrote.zero⟩
      · rename_i hmore
        simp only [not_or, Bool.not_eq_true] at hmore
        refine (pushSource_spec.mono (fun _ _ => id) (fun _ t ht => ⟨0, _, Wrote.zero, ht⟩) id).bind ?_
        rintro n ⟨ring, t⟩ ⟨xs, rfl, hmax, hvacant, hgives, hring⟩
        simp only at hring hgives
        subst hring
        split
        · rename_i hnone
          obtain rfl := List.eq_nil_of_length_eq_zero hnone
          refine ensures_pure ⟨0, rfl, Nat.zero_le _, ?_, hgives.2.2⟩
          simpa [PipeRing.filled] using Pushes.done r
        · rename_i hsome
          have hfits := packetFits_of_slot pipeBufFlagPacket h (Nat.pos_of_ne_zero hsome) hvacant hmore.2.1
          have hwrote := Wrote.packet (t := (r.pushPacket xs pipeBufFlagPacket, t)) hfits hgives rfl
          apply ensures_modify_bind
          split
          · exact ensures_pure ⟨_, rfl, hwrote⟩
          · refine (ih (written + xs.length) (h.pushPacket hfits)).mono ?_ ?_ id
            · rintro n u ⟨k, rfl, hk⟩
              exact ⟨xs.length + k, by omega, hwrote.trans hk⟩
            · rintro e u ⟨k, v, hk, hv⟩
              exact ⟨xs.length + k, v, hwrote.trans hk, hv⟩

theorem writePipePackets_spec (h : r.Sound) : Ensures writePipePackets (r, s)
    (fun transfer t => Wrote r s transfer.len t) (fun _ t => ∃ k u, Wrote r s k u ∧ t.1 = u.1) False := by
  rw [writePipePackets]
  refine ((mergePackets_spec h).mono (fun _ _ => id) (fun _ t ht => ⟨0, _, Wrote.zero, ht⟩) id).bind ?_
  rintro merged ⟨ring, t⟩ hmerged
  apply ensures_get_bind
  refine ((packetLoop_spec _ merged (hmerged.2.1.sound h)).mono (fun _ _ => id) ?_ id).bind ?_
  · rintro e u ⟨k, v, hk, hv⟩
    exact ⟨merged + k, v, hmerged.trans hk, hv⟩
  · rintro written u ⟨k, rfl, hk⟩
    exact ensures_pure (hmerged.trans hk)

theorem Wrote.final {r : PipeRing} {src : IoSrc} {x : Act (PipeRing × IoSrc) AxError PipeTransfer}
    (hx : Ensures x (r, src) (fun transfer t => Wrote r src transfer.len t) (fun _ t => ∃ k u, Wrote r src k u ∧
    t.1 = u.1)
      False) : ∃ k ≤ src.remaining, Pushes r (src.bytes.take k) (x (r, src)).2.1 := by
  apply Ensures.final (p := fun t : PipeRing × IoSrc => ∃ k ≤ src.remaining, Pushes r (src.bytes.take k) t.1)
  refine hx.mono (fun transfer t ht => ⟨transfer.len, ht.1, ht.2.1⟩) ?_ id
  rintro e t ⟨k, u, hu, heq⟩
  exact ⟨k, hu.1, heq ▸ hu.2.1⟩

end

variable {r src dst : PipeRing} {d : IoDst} {n maxLen total : Nat} {run : PipeRun}

theorem spliceReadPipeBuffer_spec : Ensures spliceReadPipeBuffer (r, d)
    (fun transfer t => Read r d transfer.len transfer.len t ∧
      transfer.becameWritable = (!pipePollWritable r && pipePollWritable t.1))
    (fun _ t => Read r d 0 0 t) False := by
  rw [spliceReadPipeBuffer]
  apply ensures_get_bind
  refine ((copyRingPrefix_spec (Nat.min_le_left _ _)).mono (fun _ _ => id) ?_ id).bind ?_
  · rintro e t ⟨hring, htaken⟩
    exact Read.of_unchanged hring (by simpa using htaken)
  · rintro n ⟨ring, t⟩ ⟨hn, hring, htaken⟩
    simp only at hring htaken
    subst hring
    apply ensures_modify_bind
    apply ensures_get_bind
    exact ensures_pure ⟨⟨le_rfl, id, Consumes.one (hn.trans (Nat.min_le_left _ _)), htaken⟩, rfl⟩

theorem reservePipePrefix_spec {closed : Bool} {reservation : PipeReadReservation} {bytes : List UInt8}
    (h : reservePipePrefix src n closed = .ok (some (reservation, bytes))) :
    reservation.available = min src.occupiedLen n ∧ reservation.wasWritable = pipePollWritable src ∧
      bytes = src.bytes.items.take reservation.available := by
  have happend := src.bytes.occupiedSlices_append
  rw [reservePipePrefix] at h
  generalize src.bytes.occupiedSlices.1 = left at *
  generalize src.bytes.occupiedSlices.2 = right at *
  simp only at h
  split at h
  · split at h <;> cases h
  · cases h
    refine ⟨rfl, rfl, ?_⟩
    simp only
    rw [← happend, List.take_append]
    congr 1
    · rw [List.take_eq_take_iff]
      omega
    · rw [List.take_eq_take_iff]
      omega

theorem copySlices_eq (ds : List Nat) (xs : List (List UInt8)) (wanted : Nat) :
    copySlices ds xs wanted = xs.flatten.take (min wanted ds.sum) := by
  induction ds, xs, wanted using copySlices.induct with
  | case1 xs wanted => simp [copySlices]
  | case2 wanted d ds => simp [copySlices]
  | case3 d ds x xs wanted hnone ih =>
      rw [copySlices, if_pos hnone, ih]
      rcases hnone with rfl | rfl <;> simp
  | case4 d ds x xs wanted hmore hempty ih =>
      rw [copySlices, if_neg hmore, if_pos hempty, ih, List.isEmpty_iff.mp hempty]
      simp
  | case5 d ds x xs wanted hmore hbytes count ih =>
      rw [copySlices, if_neg hmore, if_neg hbytes]
      simp only [count] at ih ⊢
      rw [ih]
      have hsplit : min wanted (d :: ds).sum = min (min d wanted) x.length +
          min (wanted - min (min d wanted) x.length) ((d - min (min d wanted) x.length) :: ds).sum := by
        simp only [List.sum_cons]
        omega
      have hcount : min (min d wanted) x.length ≤ x.length := Nat.min_le_right _ _
      rw [hsplit, List.take_add, List.flatten_cons, List.flatten_cons, List.take_append_of_le_length hcount,
        List.drop_append_of_le_length hcount]

theorem drop_slices {α : Type} (left right : List α) (n : Nat) :
    left.drop (min n left.length) ++ right.drop (n - min n left.length) = (left ++ right).drop n := by
  rw [List.drop_append]
  congr 1
  · rw [List.drop_eq_drop_iff]
    omega
  · rw [List.drop_eq_drop_iff]
    omega

theorem copyPipeRun_spec (src : PipeRing) (run : PipeRun) (maxLen offset : Nat) (hdst : dst.Sound) :
    (copyPipeRun src dst run maxLen offset).1 ≤ min run.len maxLen ∧
      (copyPipeRun src dst run maxLen offset).1 ≤ (src.bytes.items.drop offset).length ∧
      Pushes dst ((src.bytes.items.drop offset).take (copyPipeRun src dst run maxLen offset).1)
        (copyPipeRun src dst run maxLen offset).2 := by
  have happend := src.bytes.occupiedSlices_append
  have hsum := dst.bytes.vacantSlices_sum
  have hslots := PipeRing.slots_eq hdst
  rw [copyPipeRun]
  simp only [copySlicesToRing, copySlices_eq, List.flatten_cons, List.flatten_nil, List.append_nil, drop_slices,
    happend, List.sum_cons, List.sum_nil, Nat.add_zero, hsum]
  generalize hbytes : src.bytes.items.drop offset = bytes
  generalize htake : min (min run.len maxLen) (min dst.vacantLen (dst.vacantBuffers * pipeBufSize)) = want
  split
  · exact ⟨Nat.zero_le _, Nat.zero_le _, by simpa using Pushes.done dst⟩
  · have hwant : min want dst.bytes.vacantLen = want := by
      rw [PipeRing.vacantLen] at htake
      omega
    rw [hwant]
    split
    · exact ⟨Nat.zero_le _, Nat.zero_le _, by simpa using Pushes.done dst⟩
    · rename_i hpos hsome
      rw [List.length_take] at hsome ⊢
      have hfit : (bytes.take want).length ≤ dst.vacantLen := by
        rw [List.length_take]
        omega
      have hinitial : bytes.take (min want bytes.length) = bytes.take want := by
        rw [List.take_eq_take_iff]
        omega
      refine ⟨by omega, by omega, ?_⟩
      rw [hinitial]
      cases hflags : run.flags with
      | none =>
          have hstream : dst.StreamFits (bytes.take want) := by
            refine streamFits_of_room 0 hdst hfit ?_
            rw [streamWriteRoom, List.length_take]
            omega
          simpa [commitRun, hflags, PipeRing.pushStream] using Pushes.stream hstream (.done _)
      | some flags =>
          have hslot : pipeRingFull dst = false := by
            rw [pipeRingFull, beq_eq_false_iff_ne]
            intro hfull
            rw [hfull] at htake
            omega
          have hlen : 0 < (bytes.take want).length := by
            rw [List.length_take]
            omega
          have hpacket := packetFits_of_slot flags hdst hlen hfit hslot
          simpa [commitRun, hflags, PipeRing.pushPacket] using Pushes.packet hpacket (.done _)

/-- What leaves the source is what arrives in the destination. -/
theorem moveLoop_spec (maxLen total : Nat) (hsrc : src.Sound) (hdst : dst.Sound) :
    ∃ k, (moveLoop src dst maxLen total).2.2 = total + k ∧ Consumes src k (moveLoop src dst maxLen total).1 ∧
    Pushes dst (src.bytes.items.take k) (moveLoop src dst maxLen total).2.1 := by
  induction src, dst, total using moveLoop.induct maxLen with
  | case1 src dst total hmore copied hnone =>
      rw [moveLoop, if_pos hmore, if_pos hnone]
      exact ⟨0, rfl, .done src, by simpa using Pushes.done dst⟩
  | case2 src dst total hmore copied hsome ih =>
      rw [moveLoop, if_pos hmore, if_neg hsome]
      obtain ⟨_, hle, hpush⟩ := copyPipeRun_spec src (headRun src) (maxLen - total) 0 hdst
      rw [List.drop_zero] at hle hpush
      obtain ⟨k, htotal, hconsumes, hpushes⟩ := ih (hsrc.advanceRead hle) (hpush.sound hdst)
      refine ⟨copied.1 + k, by rw [htotal]; omega, .step hle hconsumes, ?_⟩
      rw [List.take_add]
      exact hpush.trans hpushes
  | case3 src dst total hdone =>
      rw [moveLoop, if_neg hdone]
      exact ⟨0, rfl, .done src, by simpa using Pushes.done dst⟩

theorem copyLoop_spec (src : PipeRing) (available total : Nat) (hdst : dst.Sound) :
    ∃ k, (copyLoop src dst available total).2 = total + k ∧ k ≤ (src.bytes.items.drop total).length ∧
      Pushes dst ((src.bytes.items.drop total).take k) (copyLoop src dst available total).1 := by
  induction dst, total using copyLoop.induct src available with
  | case1 dst total hmore copied hnone =>
      rw [copyLoop, if_pos hmore, if_pos hnone]
      exact ⟨0, rfl, Nat.zero_le _, by simpa using Pushes.done dst⟩
  | case2 dst total hmore copied hsome ih =>
      rw [copyLoop, if_pos hmore, if_neg hsome]
      obtain ⟨_, hle, hpush⟩ := copyPipeRun_spec src (runAt src (src.readPos + total)) (available - total) total hdst
      obtain ⟨k, htotal, hk, hpushes⟩ := ih (hpush.sound hdst)
      refine ⟨copied.1 + k, by rw [htotal]; omega, ?_, ?_⟩
      · have hle : copied.1 ≤ (src.bytes.items.drop total).length := hle
        rw [List.length_drop] at hle hk ⊢
        omega
      · rw [List.take_add, List.drop_drop]
        exact hpush.trans hpushes
  | case3 dst total hdone =>
      rw [copyLoop, if_neg hdone]
      exact ⟨0, rfl, Nat.zero_le _, by simpa using Pushes.done dst⟩

theorem movePipeBuffer_spec (maxLen : Nat) (hsrc : src.Sound) (hdst : dst.Sound) :
    Consumes src (movePipeBuffer src dst maxLen).2.2.len (movePipeBuffer src dst maxLen).1 ∧
      Pushes dst (src.bytes.items.take (movePipeBuffer src dst maxLen).2.2.len)
        (movePipeBuffer src dst maxLen).2.1 := by
  obtain ⟨k, htotal, hconsumes, hpushes⟩ := moveLoop_spec maxLen 0 hsrc hdst
  rw [Nat.zero_add] at htotal
  rw [movePipeBuffer]
  simp only [htotal]
  exact ⟨hconsumes, hpushes⟩

theorem copyPipeBuffer_spec (src : PipeRing) (maxLen : Nat) (hdst : dst.Sound) :
    (copyPipeBuffer src dst maxLen).2.len ≤ src.bytes.items.length ∧
      Pushes dst (src.bytes.items.take (copyPipeBuffer src dst maxLen).2.len) (copyPipeBuffer src dst maxLen).1 := by
  obtain ⟨k, htotal, hk, hpushes⟩ := copyLoop_spec src (min maxLen src.occupiedLen) 0 hdst
  rw [Nat.zero_add] at htotal
  rw [copyPipeBuffer]
  simp only [htotal]
  exact ⟨hk, hpushes⟩

theorem roundPipeSize_pages {size rounded : Nat} (h : roundPipeSize size = .ok rounded) : pipeBufSize ∣ rounded := by
  rw [roundPipeSize] at h
  split at h
  · cases h
  split at h
  · cases h
    exact dvd_rfl
  split at h
  · rename_i hpage _
    cases h
    have hlog : 12 ≤ Nat.clog 2 size := by
      by_contra hsmall
      have hpow := Nat.le_pow_clog (by decide : 1 < 2) size
      have hle : 2 ^ Nat.clog 2 size ≤ 2 ^ 11 := Nat.pow_le_pow_right (by decide) (by omega)
      rw [pipeBufSize] at hpage
      omega
    exact (show pipeBufSize = 2 ^ 12 from rfl) ▸ pow_dvd_pow 2 hlog
  · cases h

structure Rehoused (r r' : PipeRing) : Prop where
  items : r'.bytes.items = r.bytes.items
  marks : r'.marks.items = r.marks.items
  readPos : r'.readPos = r.readPos
  writePos : r'.writePos = r.writePos

theorem resize_spec (requested : Nat) (limit : Option Nat) (memory : Bool) (h : r.Sound) :
    Ensures (resize requested limit memory) r
      (fun wake t => t.Sound ∧ Rehoused r t ∧ (wake = false → t = r)) (fun _ t => t = r) False := by
  rw [resize]
  apply ensures_lift_bind
  · intro size hsize
    apply ensures_get_bind
    split
    · exact ensures_fail rfl
    split
    · exact ensures_pure ⟨h, ⟨rfl, rfl, rfl, rfl⟩, fun _ => rfl⟩
    split
    · exact ensures_fail rfl
    split
    · exact ensures_fail rfl
    · rename_i hroom _
      rw [not_or, Nat.not_lt, Nat.not_lt] at hroom
      have hmarks := PipeRing.marks_replacement ((Nat.le_add_right _ _).trans hroom.1)
      apply ensures_set_bind
      refine ensures_pure ⟨h.replacement hroom.1 hroom.2 (roundPipeSize_pages hsize), ?_, fun hwake => by cases hwake⟩
      exact ⟨PipeRing.items_replacement hroom.2, hmarks.1, rfl, rfl⟩
  · exact fun _ _ => rfl
  · intro hpanic
    rw [roundPipeSize] at hpanic
    split at hpanic
    · cases hpanic
    split at hpanic
    · cases hpanic
    split at hpanic <;> cases hpanic

theorem resize_kept (requested : Nat) (limit : Option Nat) (memory : Bool) (h : r.Sound) :
    (resize requested limit memory r).2.Sound ∧ Rehoused r (resize requested limit memory r).2 := by
  have hsame : r.Sound ∧ Rehoused r r := ⟨h, rfl, rfl, rfl, rfl⟩
  apply Ensures.final (p := fun t => t.Sound ∧ Rehoused r t)
  refine (resize_spec requested limit memory h).mono (fun _ _ ht => ⟨ht.1, ht.2.1⟩) ?_ id
  rintro e t rfl
  exact hsame

end TheKernel.Pipe
