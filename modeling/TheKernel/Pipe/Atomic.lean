import TheKernel.Pipe.History
import TheKernel.Pipe.Pages

namespace TheKernel.Pipe

open Act

variable {r : PipeRing} {s : IoSrc} {n : Nat}

/-- A source that does not fault fills the vacant region as far as it is asked to. -/
theorem pushSource_full (hsrc : s.answers = []) (hle : n ≤ s.remaining) (hroom : n ≤ r.vacantLen) :
    pushSource n (r, s) = (.ok n, (r.filled (s.bytes.take n), ⟨s.bytes.drop n, []⟩)) :=
  (pushSource_given hroom hle).2 n [] (by rw [hsrc, given_all, PipeRing.sum_reads])

/-- The ring has taken all bytes of the source, or none. -/
def AllOrNone (r : PipeRing) (src : IoSrc) (r' : PipeRing) : Prop :=
  r'.bytes.items = r.bytes.items ++ src.bytes ∨ r'.bytes.items = r.bytes.items

/-- A write of `n` bytes for which the ring has room for some and not for all, where
what there is room for fits into the last page of the stream tail. -/
def Splits (r : PipeRing) (n : Nat) : Prop :=
  n < pipeBufSize ∧ 0 < r.tailStreamLen ∧ 0 < r.vacantLen ∧ r.vacantLen < n ∧
    tailUsed r.tailStreamLen + r.vacantLen ≤ pipeBufSize

theorem writePipeBuffer_atomic (hsrc : s.answers = []) :
    AllOrNone r s (writePipeBuffer (some s.remaining) (r, s)).2.1 := by
  rw [writePipeBuffer, get_bind]
  simp only [Option.any_some, Option.getD_some, decide_eq_true_eq]
  split
  · exact .inr rfl
  · rename_i hroom
    rw [Nat.min_eq_left (by omega), bind_apply, pushSource_full hsrc le_rfl (by omega)]
    left
    simp only [onRing, modify_bind, pure_apply, PipeRing.commitStream]
    rw [IoSrc.remaining, List.take_length, items_filled (by rw [← IoSrc.remaining]; omega)]

theorem packetLoop_drained (fuel written : Nat) (hdone : s.remaining = 0) :
    packetLoop fuel written (r, s) = (.ok written, (r, s)) := by
  cases fuel with
  | zero => rfl
  | succ fuel =>
      rw [packetLoop, get_bind, if_pos (.inl hdone)]
      rfl

theorem packetLoop_blocked (fuel written : Nat)
    (h : pipeRingFull r = true ∨ r.vacantLen < min s.remaining pipeBufSize) :
    packetLoop fuel written (r, s) = (.ok written, (r, s)) := by
  cases fuel with
  | zero => rfl
  | succ fuel =>
      rw [packetLoop, get_bind, if_pos (.inr h)]
      rfl

theorem packetLoop_page (written : Nat) (hsrc : s.answers = []) (hpos : 0 < s.remaining)
    (hpage : s.remaining ≤ pipeBufSize) (hslot : pipeRingFull r = false) (hroom : s.remaining ≤ r.vacantLen) :
    (packetLoop s.remaining written (r, s)).2.1 = r.pushPacket s.bytes pipeBufFlagPacket := by
  obtain ⟨fuel, hfuel⟩ : ∃ fuel, s.remaining = fuel + 1 := ⟨s.remaining - 1, by omega⟩
  have hchunk : min s.remaining pipeBufSize = s.remaining := by omega
  have hgo : ¬ (s.remaining = 0 ∨ pipeRingFull r = true ∨ r.vacantLen < s.remaining) := by
    simp only [hslot, Bool.false_eq_true, false_or]
    omega
  rw [hfuel, packetLoop, get_bind]
  simp only [hchunk]
  rw [if_neg hgo, bind_apply, pushSource_full hsrc le_rfl hroom]
  simp only [onRing]
  rw [if_neg (by omega), modify_bind, if_neg (by omega), packetLoop_drained]
  · rw [IoSrc.remaining, List.take_length]
    rfl
  · simp [IoSrc.remaining]

theorem packetLoop_whole (written : Nat) (hsrc : s.answers = []) (hpos : 0 < s.remaining)
    (hpage : s.remaining ≤ pipeBufSize) (hslot : pipeRingFull r = false) (hroom : s.remaining ≤ r.vacantLen) :
    (packetLoop s.remaining written (r, s)).2.1.bytes.items = r.bytes.items ++ s.bytes := by
  rw [packetLoop_page written hsrc hpos hpage hslot hroom, PipeRing.items_pushPacket _ hroom]

theorem mergeChars_eq : s.remaining &&& (pipeBufSize - 1) = s.remaining % pipeBufSize :=
  Nat.and_two_pow_sub_one_eq_mod s.remaining 12

theorem mergePackets_full (hsrc : s.answers = []) (hlt : s.remaining < pipeBufSize) (hpos : 0 < s.remaining)
    (hempty : r.isEmpty = false) (htail : 0 < r.tailStreamLen)
    (hfit : tailUsed r.tailStreamLen + min s.remaining r.vacantLen ≤ pipeBufSize) :
    mergePackets (r, s) = (.ok (min s.remaining r.vacantLen),
      (r.pushStream (s.bytes.take (min s.remaining r.vacantLen)), ⟨s.bytes.drop (min s.remaining r.vacantLen),
        []⟩)) := by
  have hchars : s.remaining &&& (pipeBufSize - 1) = s.remaining := by
    rw [mergeChars_eq, Nat.mod_eq_of_lt hlt]
  rw [mergePackets, get_bind]
  simp only [hchars]
  rw [if_pos ⟨hpos, hempty, htail, hfit⟩, bind_apply, pushSource_full hsrc (Nat.min_le_left _ _) (Nat.min_le_right _ _)]
  simp only [onRing, modify_bind, pure_apply]
  have hlen : (s.bytes.take (min s.remaining r.vacantLen)).length = min s.remaining r.vacantLen := by
    rw [List.length_take, IoSrc.remaining]
    omega
  rw [PipeRing.pushStream, hlen]
  rfl

theorem mergePackets_skipped (h : ¬ (s.remaining < pipeBufSize ∧ 0 < s.remaining ∧ r.isEmpty = false ∧
    0 < r.tailStreamLen ∧ tailUsed r.tailStreamLen + min s.remaining r.vacantLen ≤ pipeBufSize))
    (hpage : s.remaining ≤ pipeBufSize) : mergePackets (r, s) = (.ok 0, (r, s)) := by
  rw [mergePackets, get_bind]
  simp only [mergeChars_eq]
  rw [if_neg]
  · rfl
  · rintro ⟨hpos, hempty, htail, hfit⟩
    have hlt : s.remaining < pipeBufSize := by
      rcases Nat.lt_or_eq_of_le hpage with hlt | heq
      · exact hlt
      · rw [heq, Nat.mod_self] at hpos
        omega
    rw [Nat.mod_eq_of_lt hlt] at hpos hfit
    exact h ⟨hlt, hpos, hempty, htail, hfit⟩

theorem writePipePackets_items (r : PipeRing) (s : IoSrc) {merged : Nat} {t : PipeRing × IoSrc}
    (hmerged : mergePackets (r, s) = (.ok merged, t)) :
    (writePipePackets (r, s)).2.1 = (packetLoop t.2.remaining merged t).2.1 := by
  rw [writePipePackets, bind_apply, hmerged]
  simp only [get_bind, bind_pure_snd]

theorem not_allOrNone_of_part {r' : PipeRing} {k : Nat} (hpos : 0 < k) (hlt : k < s.remaining)
    (hitems : r'.bytes.items = r.bytes.items ++ s.bytes.take k) : ¬ AllOrNone r s r' := by
  rw [IoSrc.remaining] at hlt
  rintro (hall | hnone)
  · have hlen := congrArg List.length (hitems.symm.trans hall)
    simp only [List.length_append, List.length_take] at hlen
    omega
  · have hlen := congrArg List.length (hitems.symm.trans hnone)
    simp only [List.length_append, List.length_take] at hlen
    omega

theorem writePipePackets_atomic (h : r.Sound) (hsrc : s.answers = []) (hpage : s.remaining ≤ pipeBufSize) :
    AllOrNone r s (writePipePackets (r, s)).2.1 ↔ ¬ Splits r s.remaining := by
  by_cases hmerge : s.remaining < pipeBufSize ∧ 0 < s.remaining ∧ r.isEmpty = false ∧
      0 < r.tailStreamLen ∧ tailUsed r.tailStreamLen + min s.remaining r.vacantLen ≤ pipeBufSize
  · obtain ⟨hlt, hpos, hempty, htail, hfit⟩ := hmerge
    rw [writePipePackets_items r s (mergePackets_full hsrc hlt hpos hempty htail hfit)]
    have hlen : (s.bytes.take (min s.remaining r.vacantLen)).length ≤ r.vacantLen := by
      rw [List.length_take]
      omega
    have hitems := PipeRing.items_pushStream hlen
    rcases Nat.lt_or_ge r.vacantLen s.remaining with hshort | hroom
    · -- Nothing is vacant after the merge, so no packet follows it.
      rw [Nat.min_eq_right hshort.le] at *
      have hblocked : (r.pushStream (s.bytes.take r.vacantLen)).vacantLen <
          min (IoSrc.remaining ⟨s.bytes.drop r.vacantLen, []⟩) pipeBufSize := by
        rw [vacantLen_pushStream hlen]
        simp only [IoSrc.remaining, List.length_drop, List.length_take, pipeBufSize] at *
        omega
      rw [packetLoop_blocked _ _ (.inr hblocked)]
      constructor
      · rintro hwhole ⟨_, _, hvacant, _, _⟩
        exact not_allOrNone_of_part hvacant hshort hitems hwhole
      · intro hsplits
        have hfull : r.vacantLen = 0 := by
          by_contra hvacant
          exact hsplits ⟨hlt, htail, Nat.pos_of_ne_zero hvacant, hshort, hfit⟩
        right
        rw [hitems, hfull, List.take_zero, List.append_nil]
    · rw [Nat.min_eq_left hroom] at *
      rw [packetLoop_drained _ _ (by simp [IoSrc.remaining])]
      constructor
      · rintro - ⟨_, _, _, hless, _⟩
        omega
      · intro _
        left
        rw [hitems, IoSrc.remaining, List.take_length]
  · rw [writePipePackets_items r s (mergePackets_skipped hmerge hpage)]
    have hwhole : ¬ Splits r s.remaining := by
      rintro ⟨hlt, htail, hvacant, hless, hfit⟩
      have hoccupied := PipeRing.tailStreamLen_le h
      refine hmerge ⟨hlt, by omega, ?_, htail, by rw [Nat.min_eq_right hless.le]; exact hfit⟩
      rw [PipeRing.isEmpty, Fifo.isEmpty, List.isEmpty_eq_false_iff, ← List.length_pos_iff]
      exact htail.trans_le hoccupied
    refine ⟨fun _ => hwhole, fun _ => ?_⟩
    by_cases hblocked : pipeRingFull r = true ∨ r.vacantLen < min s.remaining pipeBufSize
    · rw [packetLoop_blocked _ _ hblocked]
      exact .inr rfl
    · rw [not_or, Bool.not_eq_true] at hblocked
      rcases Nat.eq_zero_or_pos s.remaining with hnone | hpos
      · rw [packetLoop_drained _ _ hnone]
        exact .inr rfl
      · have hroom : s.remaining ≤ r.vacantLen := by omega
        exact .inl (packetLoop_whole 0 hsrc hpos hpage hblocked.1 hroom)

theorem writeAttempt_atomic (packetized : Bool) (h : r.Sound) (hsrc : s.answers = [])
    (hpage : s.remaining ≤ pipeBufSize) :
    AllOrNone r s (writeAttempt packetized s.remaining (r, s)).2.1 ↔ ¬ (packetized = true ∧ Splits r s.remaining) := by
  cases packetized with
  | false => simpa [writeAttempt, hpage] using writePipeBuffer_atomic hsrc
  | true => simpa [writeAttempt] using writePipePackets_atomic h hsrc hpage

/-- In every ring that any run reaches, an attempt to write a page at most is
split exactly where the merge step of a packetized write takes less than it was
given. -/
theorem pipe_buf_atomic {pipes : System} {p : PipeState} (packetized : Bool) (h : Reachable pipes) (hp : p ∈ pipes)
    (hsrc : s.answers = []) (hpage : s.remaining ≤ pipeBufSize) :
    AllOrNone p.ring s (writeAttempt packetized s.remaining (p.ring, s)).2.1 ↔ ¬ (packetized = true ∧
      Splits p.ring s.remaining) :=
  writeAttempt_atomic packetized (h.sound p hp).ring hsrc hpage

def twoBytesRun : List Op := [.create 4096, .call 0 (.write ⟨[1, 2], []⟩ (some 2))]

theorem twoBytesRun_reaches : ∃ p : PipeState, Reachable [p] ∧ p.ring.tailStreamLen = 2 ∧ p.ring.vacantLen = 4094 := by
  have hrun : ∃ p : PipeState, twoBytesRun.foldlM System.step [] = some [p] ∧ p.ring.tailStreamLen = 2 ∧
      p.ring.vacantLen = 4094 := ⟨_, rfl, rfl, rfl⟩
  obtain ⟨p, hrun, htail, hvacant⟩ := hrun
  exact ⟨p, Reachable.start.run hrun, htail, hvacant⟩

theorem pipe_buf_atomic_small : ∃ p : PipeState, Reachable [p] ∧
    AllOrNone p.ring ⟨[7, 8, 9], []⟩ (writeAttempt true 3 (p.ring, ⟨[7, 8, 9], []⟩)).2.1 := by
  obtain ⟨p, hreach, _, hvacant⟩ := twoBytesRun_reaches
  refine ⟨p, hreach, (pipe_buf_atomic true hreach (List.mem_singleton_self p) rfl (by decide)).mpr ?_⟩
  rintro ⟨-, _, _, _, hless, _⟩
  rw [hvacant] at hless
  exact absurd hless (by decide)

/-- A packetized write of 4095 bytes into that pipe leaves one byte behind. -/
theorem packet_write_split : ∃ p : PipeState, Reachable [p] ∧ ∃ src : IoSrc, src.answers = [] ∧
    src.remaining = 4095 ∧ ¬ AllOrNone p.ring src (writeAttempt true src.remaining (p.ring, src)).2.1 := by
  obtain ⟨p, hreach, htail, hvacant⟩ := twoBytesRun_reaches
  have hlen : IoSrc.remaining ⟨List.replicate 4095 0, []⟩ = 4095 := List.length_replicate
  refine ⟨p, hreach, ⟨List.replicate 4095 0, []⟩, rfl, hlen, ?_⟩
  rw [writeAttempt_atomic true (hreach.sound p (List.mem_singleton_self p)).ring rfl (hlen.trans_le (by decide)),
    not_not]
  rw [Splits, htail, hvacant, hlen]
  exact ⟨rfl, by decide, by decide, by decide, by decide, by decide⟩

end TheKernel.Pipe
