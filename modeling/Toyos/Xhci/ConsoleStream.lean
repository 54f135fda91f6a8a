import Toyos.Xhci.DebugDevice

/-!
# The byte stream of the console

An item announces at most `2 ^ 16 - 1` bytes. Chunks of a string stay below that,
but a full buffer holds `2 ^ 16` bytes and is announced as empty. The bytes that
arrive are therefore those passed in exactly as long as the buffer never fills.
-/

namespace Toyos.Xhci

open Toyos.Core

/-- The item describes its own slot, and copied and announced bytes fit into it. -/
structure QueuedWrite.InSlot (outDataDma : ℕ) (w : QueuedWrite) : Prop where
  slot_lt : w.slot < outRingSize
  buffer_eq : w.item.buffer = BitVec.ofNat 64 (outDataDma + w.slot * outBufSize)
  copied_le : w.copied.length ≤ outBufSize
  payload_le : w.payload.length ≤ outBufSize

namespace DebugDevice

/-- The bytes announced so far. -/
def sent (d : DebugDevice) : List UInt8 := (d.queued.map QueuedWrite.payload).flatten

theorem stream_eq (d : DebugDevice) : d.stream = d.sent ++ d.outputBuffer := rfl

/-- At most one item is outstanding and every queued item fits. -/
structure Valid (base : ℕ) (d : DebugDevice) : Prop where
  counts : ∃ first count, count ≤ 1 ∧ Flow.Counts base ⟨d.outRing, d.outstanding⟩ first count
  inSlot : ∀ w ∈ d.queued, w.InSlot d.outDataDma

variable {base : ℕ} {d : DebugDevice} {str : List UInt8}

/-- The oldest outstanding item can be reported. -/
theorem Valid.report_ok (h : d.Valid base) (hne : d.outstanding ≠ []) :
    ∃ first r, d.report = .ok { d with outRing := r, outstanding := [] } ∧
      Flow.Counts base ⟨r, []⟩ first 0 := by
  obtain ⟨first, count, hle, hcounts⟩ := h.counts
  have hone : count = 1 := by
    by_contra hzero
    obtain rfl : count = 0 := by omega
    exact hne (by simpa using hcounts.outstanding_eq)
  subst hone
  have hout : d.outstanding = [first % 3] := by simpa [window] using hcounts.outstanding_eq
  have hcall := hcounts.linkRing.updateDequeuePtr_eq (Nat.mod_lt first (by decide : 0 < 3))
  rw [hout] at hcounts
  obtain ⟨rest, hrest, hnext⟩ := hcounts.complete_ok (by decide) hcall
  obtain rfl : rest = 0 := by omega
  refine ⟨first + 1, _, ?_, hnext⟩
  simp only [report, hout, hcall, mapError_ok, ok_bind, pure_eq_ok]

/-- The wait for the current transfer ends with an empty ring. -/
theorem Valid.waitIdle_ok (h : d.Valid base) :
    ∃ first r, d.waitIdle = .ok { d with outRing := r, outstanding := [] } ∧
      Flow.Counts base ⟨r, []⟩ first 0 := by
  obtain ⟨first, count, hle, hcounts⟩ := h.counts
  have hempty : d.outRing.empty = true ↔ count = 0 := by
    rw [hcounts.empty_iff, Unlapped.restPos_eq_iff (.inl (by omega))]
  by_cases hout : d.outstanding = []
  · have hzero : count = 0 := window_eq_nil_iff.mp (hcounts.outstanding_eq.symm.trans hout)
    subst hzero
    have hdone : d.waitRound = .ok (.inr d) := by simp [waitRound, hempty.mpr rfl]
    rw [hout] at hcounts
    have hsame : { d with outstanding := [] } = d := by rw [← hout]
    refine ⟨first, d.outRing, ?_, hcounts⟩
    rw [hsame, waitIdle, hout]
    simp only [List.length_nil, loop, hdone, ok_bind, pure_eq_ok]
  · have hcount : count ≠ 0 := by
      rintro rfl
      exact hout hcounts.outstanding_eq
    have hbusy : d.outRing.empty = false := Bool.eq_false_iff.mpr (mt hempty.mp hcount)
    obtain ⟨next, r, hreport, hnext⟩ := h.report_ok hout
    refine ⟨next, r, ?_, hnext⟩
    have hwindow : d.outstanding = window 3 first count := hcounts.outstanding_eq
    have hlength : d.outstanding.length = count := by simp [hwindow, window]
    have hround : d.waitRound = .ok (.inl { d with outRing := r, outstanding := [] }) := by
      simp [waitRound, hbusy, hreport]
    have hdone : waitRound { d with outRing := r, outstanding := [] } =
        .ok (.inr { d with outRing := r, outstanding := [] }) := by
      simp [waitRound, hnext.empty_iff.mpr rfl]
    rw [waitIdle, hlength, show count + 1 = 2 by omega]
    simp only [loop, hround, ok_bind, hdone, pure_eq_ok]

theorem fillTransfer_type {buffer : BitVec 64} {len : BitVec 16} {t : Trb} :
    (fillTransfer buffer len t).type ≠ Trb.linkType := by
  have htype : ({ t.setType Trb.normalType with buffer := buffer } : Trb).type =
      (t.setType Trb.normalType).type := rfl
  simp only [fillTransfer, Trb.type_commit, Trb.type_setIsp, Trb.type_setIoc, Trb.type_setLength,
    htype, Trb.type_setType]
  decide

theorem fillTransfer_length {buffer : BitVec 64} {len : BitVec 16} {t : Trb} :
    (fillTransfer buffer len t).length = len := by
  have hlength : ∀ u : Trb, (u.setLength len).setIoc.setIsp.commit.length =
      (u.setLength len).length := fun _ => rfl
  rw [fillTransfer, hlength, Trb.length_setLength]

/-- The controller finds the data of a slot at the offset of the slot. -/
theorem wsub_slot {dma slot : ℕ} (hslot : slot < outRingSize) :
    wsub (BitVec.ofNat 64 (dma + slot * outBufSize)).toNat dma = slot * outBufSize := by
  rw [BitVec.toNat_ofNat]
  unfold wsub outBufSize
  unfold outRingSize at hslot
  omega

/-- A transfer announces the length of the string modulo `2 ^ 16`. -/
theorem Valid.queueWriteTransfer_ok (h : d.Valid base) (hlength : str.length ≤ outBufSize) :
    ∃ d', d.queueWriteTransfer str = .ok d' ∧ d'.Valid base ∧
      d'.outputBuffer = d.outputBuffer ∧ d'.sent = d.sent ++ str.take (str.length % 2 ^ 16) := by
  obtain ⟨first, r, hwait, hcounts⟩ := h.waitIdle_ok
  have hroom : r.full = .ok false := by
    rw [hcounts.full_eq_false_iff (by decide), Nat.add_zero, lookAhead]
    split
    · omega
    · omega
  obtain ⟨r', henqueue, hnext⟩ := hcounts.enqueue_ok (by decide) hroom
  simp only [Nat.add_zero, List.nil_append] at henqueue hnext
  have hslot : first % 3 < outRingSize := (Nat.mod_lt first (by decide)).trans (by decide)
  let buffer := BitVec.ofNat 64 (d.outDataDma + first % 3 * outBufSize)
  let item := fillTransfer buffer (BitVec.ofNat 16 str.length) r'.ring[first % 3]
  let filled : TrbRing outRingSize true := { r' with ring := r'.ring.set (first % 3) item }
  have hstore : r'.modifyItem (first % 3) (fillTransfer buffer (BitVec.ofNat 16 str.length)) =
      .ok filled := TrbRing.modifyItem_of_lt hslot _
  have hfilled : Flow.Counts base ⟨filled, [first % 3]⟩ first 1 :=
    hnext.fill_ok (u := item) (by decide) (List.mem_singleton_self _) fillTransfer_type
      (TrbRing.modifyItem_of_lt hslot _)
  have hitem : filled.item (first % 3) = .ok item := by
    rw [TrbRing.item_of_lt hslot, Vector.getElem_set_self]
  have hpayload : (d.outData.store (first % 3 * outBufSize) str).load
      (wsub item.buffer.toNat d.outDataDma) item.length.toNat =
      str.take (str.length % 2 ^ 16) := by
    have hbuffer : item.buffer = buffer := rfl
    rw [hbuffer, wsub_slot hslot, fillTransfer_length, BitVec.toNat_ofNat,
      Memory.load_store (Nat.mod_le _ _)]
  refine ⟨{ d with
    outRing := filled
    outData := d.outData.store (first % 3 * outBufSize) str
    outstanding := [first % 3]
    queued := d.queued ++ [⟨first % 3, item, str, str.take (str.length % 2 ^ 16)⟩] },
    ?_, ⟨⟨first, 1, le_rfl, hfilled⟩, ?_⟩, rfl, ?_⟩
  · simp only [queueWriteTransfer, hwait, ok_bind, henqueue, mapError_ok]
    simp only [buffer] at hstore
    rw [hstore]
    simp only [mapError_ok, ok_bind, hitem, hpayload]
    rfl
  · intro w hw
    rcases List.mem_append.mp hw with hold | hnew
    · exact h.inSlot w hold
    · rw [List.mem_singleton.mp hnew]
      exact ⟨hslot, rfl, hlength, (List.length_take_le' _ _).trans hlength⟩
  · simp [sent]

/-- Strings shorter than a slot are announced in full. -/
theorem take_of_short (h : str.length < outBufSize) : str.take (str.length % 2 ^ 16) = str := by
  rw [Nat.mod_eq_of_lt (show str.length < 2 ^ 16 from h), List.take_length]

/-- A string that fills its slot is announced as empty. -/
theorem take_of_full (h : str.length = outBufSize) : str.take (str.length % 2 ^ 16) = [] := by
  rw [h]
  rfl

theorem Valid.queueWriteTransfer_short (h : d.Valid base) (hlength : str.length < outBufSize) :
    ∃ d', d.queueWriteTransfer str = .ok d' ∧ d'.Valid base ∧
      d'.outputBuffer = d.outputBuffer ∧ d'.sent = d.sent ++ str := by
  obtain ⟨d', hcall, hvalid, hbuffer, hsent⟩ := h.queueWriteTransfer_ok hlength.le
  rw [take_of_short hlength] at hsent
  exact ⟨d', hcall, hvalid, hbuffer, hsent⟩

/-- Flushing empties the buffer; a full one is announced as empty. -/
theorem Valid.flush_ok (h : d.Valid base) (hlength : d.outputBuffer.length ≤ outBufSize) :
    ∃ d', d.flush = .ok d' ∧ d'.Valid base ∧ d'.outputBuffer = [] ∧
      d'.sent = d.sent ++ d.outputBuffer.take (d.outputBuffer.length % 2 ^ 16) := by
  by_cases hempty : d.outputBuffer = []
  · refine ⟨d, ?_, h, hempty, ?_⟩
    · simp [flush, hempty]
    · simp [hempty]
  · obtain ⟨d', hcall, hvalid, -, hsent⟩ := h.queueWriteTransfer_ok hlength
    have hpos : d.outputBuffer.length > 0 := List.length_pos_iff.mpr hempty
    refine ⟨{ d' with outputBuffer := [] }, ?_, ⟨hvalid.counts, hvalid.inSlot⟩, rfl, hsent⟩
    simp [flush, hempty, hcall]

/-- Flushing a buffer that is not full sends its bytes. -/
theorem Valid.flush_short (h : d.Valid base) (hlength : d.outputBuffer.length < outBufSize) :
    ∃ d', d.flush = .ok d' ∧ d'.Valid base ∧ d'.outputBuffer = [] ∧ d'.sent = d.stream := by
  obtain ⟨d', hcall, hvalid, hbuffer, hsent⟩ := h.flush_ok hlength.le
  rw [take_of_short hlength] at hsent
  exact ⟨d', hcall, hvalid, hbuffer, hsent⟩

theorem length_substring_lt (str : List UInt8) (chunk : ℕ) :
    (substring str chunk).length < outBufSize := by
  have hle : (substring str chunk).length ≤ chunkSize := List.length_take_le _ _
  exact hle.trans_lt (by decide)

/-- The first chunks make up the beginning of the string. -/
theorem take_succ_chunk (k : ℕ) :
    str.take ((k + 1) * chunkSize) = str.take (k * chunkSize) ++ substring str k := by
  rw [Nat.succ_mul, List.take_add, substring]

/-- Queueing the chunks of a string sends its beginning. -/
theorem Valid.chunks_ok (h : d.Valid base) (str : List UInt8) (k : ℕ) :
    ∃ d', (List.range k).foldlM (fun d chunk => queueWriteTransfer d (substring str chunk)) d =
        .ok d' ∧
      d'.Valid base ∧ d'.outputBuffer = d.outputBuffer ∧
      d'.sent = d.sent ++ str.take (k * chunkSize) := by
  induction k with
  | zero => exact ⟨d, rfl, h, rfl, by simp⟩
  | succ k ih =>
    obtain ⟨d₁, hcall, hvalid, hbuffer, hsent⟩ := ih
    obtain ⟨d₂, hlast, hvalid₂, hbuffer₂, hsent₂⟩ :=
      hvalid.queueWriteTransfer_short (length_substring_lt str k)
    refine ⟨d₂, ?_, hvalid₂, hbuffer₂.trans hbuffer, ?_⟩
    · rw [List.range_succ, List.foldlM_append, hcall]
      simp [hlast]
    · rw [hsent₂, hsent, List.append_assoc, take_succ_chunk]

/-- `write_line` sends the buffer and the whole string. -/
theorem Valid.writeLine_ok (h : d.Valid base) (hlength : d.outputBuffer.length < outBufSize)
    (str : List UInt8) :
    ∃ d', d.writeLine str = .ok d' ∧ d'.Valid base ∧ d'.outputBuffer = [] ∧
      d'.stream = d.stream ++ str := by
  obtain ⟨d₁, hflush, hvalid, hbuffer, hsent⟩ := h.flush_short hlength
  obtain ⟨d₂, hchunks, hvalid₂, hbuffer₂, hsent₂⟩ :=
    hvalid.chunks_ok str (str.length / chunkSize + 1)
  have hall : str.take ((str.length / chunkSize + 1) * chunkSize) = str := by
    apply List.take_of_length_le
    rw [Nat.succ_mul]
    exact (Nat.lt_div_mul_add (by decide)).le
  refine ⟨d₂, ?_, hvalid₂, hbuffer₂.trans hbuffer, ?_⟩
  · simp only [writeLine, hflush, ok_bind, hchunks]
  · rw [stream_eq, hbuffer₂, hbuffer, hsent₂, hsent, hall, List.append_nil]

/-- `write_byte` appends to the stream, unless the byte fills the buffer: then all its bytes are
lost. -/
theorem Valid.writeByte_ok (h : d.Valid base) (hlength : d.outputBuffer.length < outBufSize)
    (c : UInt8) :
    ∃ d', d.writeByte c = .ok d' ∧ d'.Valid base ∧
      ((d.outputBuffer.length + 1 ≠ outBufSize ∧ d'.outputBuffer = d.outputBuffer ++ [c] ∧
          d'.stream = d.stream ++ [c]) ∨
        (d.outputBuffer.length + 1 = outBufSize ∧ d'.outputBuffer = [] ∧ d'.stream = d.sent)) := by
  let next := { d with outputBuffer := d.outputBuffer ++ [c] }
  have hnext : next.outputBuffer.length = d.outputBuffer.length + 1 := by simp [next]
  have hvalid : next.Valid base := ⟨h.counts, h.inSlot⟩
  by_cases hfull : d.outputBuffer.length + 1 = outBufSize
  · obtain ⟨d', hflush, hvalid', hbuffer, hsent⟩ :=
      hvalid.flush_ok (by rw [hnext, hfull])
    rw [take_of_full (by rw [hnext, hfull]), List.append_nil] at hsent
    refine ⟨d', ?_, hvalid', .inr ⟨hfull, hbuffer, ?_⟩⟩
    · simp only [writeByte, ensure_of _ hlength, ok_bind, List.length_append,
        List.length_singleton, if_pos hfull]
      exact hflush
    · rw [stream_eq, hbuffer, hsent, List.append_nil]
      rfl
  · refine ⟨next, ?_, hvalid, .inl ⟨hfull, rfl, ?_⟩⟩
    · simp only [writeByte, ensure_of _ hlength, ok_bind, List.length_append,
        List.length_singleton, if_neg hfull]
      rfl
    · rw [stream_eq, stream_eq, List.append_assoc]
      rfl

end DebugDevice

namespace ConsoleCall

open DebugDevice

variable {base : ℕ} {d : DebugDevice}

theorem buffered_lt {n : ℕ} (h : n < outBufSize) (call : ConsoleCall) :
    call.buffered n < outBufSize := by
  cases call with
  | putc c =>
    rw [buffered]
    split
    · decide
    · omega
  | puts str =>
    rw [buffered]
    decide
  | poll => exact h

/-- A call appends its bytes to the stream, unless it fills the buffer: then the stream gets
shorter than it should be. -/
theorem run_ok (h : d.Valid base) (hlength : d.outputBuffer.length < outBufSize)
    (call : ConsoleCall) :
    ∃ d', call.run d = .ok d' ∧ d'.Valid base ∧
      d'.outputBuffer.length = call.buffered d.outputBuffer.length ∧
      (¬call.Fills d.outputBuffer.length → d'.stream = d.stream ++ call.bytes) ∧
      (call.Fills d.outputBuffer.length →
        d'.stream.length < d.stream.length + call.bytes.length) := by
  cases call with
  | putc c =>
    obtain ⟨d₁, hbyte, hvalid, ⟨hfull, hbuffer, hstream⟩ | ⟨hfull, hbuffer, hstream⟩⟩ :=
      h.writeByte_ok hlength c
    · have hshort : d₁.outputBuffer.length < outBufSize := by
        rw [hbuffer, List.length_append, List.length_singleton]
        omega
      by_cases hline : isLineEnding c = true
      · obtain ⟨d₂, hflush, hvalid₂, hbuffer₂, hsent⟩ := hvalid.flush_short hshort
        refine ⟨d₂, ?_, hvalid₂, ?_, fun _ => ?_, fun hfills => absurd hfills hfull⟩
        · simp only [run, DebugDevice.putc, hbyte, ok_bind, if_pos hline, hflush]
        · rw [hbuffer₂, buffered, if_pos (.inr hline), List.length_nil]
        · rw [stream_eq, hbuffer₂, hsent, hstream, List.append_nil]
          rfl
      · refine ⟨d₁, ?_, hvalid, ?_, fun _ => hstream, fun hfills => absurd hfills hfull⟩
        · simp only [run, DebugDevice.putc, hbyte, ok_bind, if_neg hline, pure_eq_ok]
        · rw [hbuffer, buffered, if_neg (by simp [hfull, hline]), List.length_append,
            List.length_singleton]
    · have hflush : d₁.flush = .ok d₁ := by simp [flush, hbuffer]
      refine ⟨d₁, ?_, hvalid, ?_, fun hfills => absurd hfull hfills, fun _ => ?_⟩
      · simp only [run, DebugDevice.putc, hbyte, ok_bind, hflush, pure_eq_ok, ite_self]
      · rw [hbuffer, buffered, if_pos (.inl hfull), List.length_nil]
      · rw [hstream, stream_eq, List.length_append, bytes, List.length_singleton]
        omega
  | puts str =>
    obtain ⟨d', hcall, hvalid, hbuffer, hstream⟩ := h.writeLine_ok hlength str
    exact ⟨d', hcall, hvalid, by rw [hbuffer]; rfl, fun _ => hstream, fun hfills => hfills.elim⟩
  | poll =>
    by_cases hout : d.outstanding = []
    · refine ⟨d, ?_, h, rfl, fun _ => ?_, fun hfills => hfills.elim⟩
      · simp only [run, DebugDevice.poll, if_pos hout]
      · rw [bytes, List.append_nil]
    · obtain ⟨first, r, hreport, hcounts⟩ := h.report_ok hout
      refine ⟨{ d with outRing := r, outstanding := [] }, ?_,
        ⟨⟨first, 0, Nat.zero_le 1, hcounts⟩, h.inSlot⟩, rfl, fun _ => ?_,
        fun hfills => hfills.elim⟩
      · simp only [run, DebugDevice.poll, if_neg hout, hreport]
      · rw [bytes, List.append_nil]
        rfl

/-- No call fills the buffer. -/
def NeverFills (calls : List ConsoleCall) : Prop :=
  ∀ before call after, calls = before ++ call :: after → ¬call.Fills (before.foldl buffered 0)

theorem neverFills_nil : NeverFills [] := by
  intro before call after h
  simp at h

theorem neverFills_concat {calls : List ConsoleCall} {call : ConsoleCall} :
    NeverFills (calls ++ [call]) ↔ NeverFills calls ∧ ¬call.Fills (calls.foldl buffered 0) := by
  constructor
  · intro h
    refine ⟨fun before c after heq => ?_, h calls call [] rfl⟩
    exact h before c (after ++ [call]) (by simp [heq])
  · rintro ⟨hcalls, hlast⟩ before c after heq
    rcases List.eq_nil_or_concat after with rfl | ⟨rest, last, rfl⟩
    · obtain ⟨rfl, hc⟩ := List.append_inj' heq rfl
      obtain rfl := List.singleton_inj.mp hc
      exact hlast
    · have hsplit : calls ++ [call] = (before ++ c :: rest) ++ [last] := by simpa using heq
      obtain ⟨rfl, -⟩ := List.append_inj' hsplit rfl
      exact hcalls before c rest rfl

/-- Every sequence of calls returns. The stream is what was passed in, or it is shorter because
a call filled the buffer. -/
theorem runs_ok (h : d.Valid base) (hstart : d.stream = []) (calls : List ConsoleCall) :
    ∃ d', calls.foldlM run d = .ok d' ∧ d'.Valid base ∧
      d'.outputBuffer.length = calls.foldl buffered 0 ∧ d'.outputBuffer.length < outBufSize ∧
      (NeverFills calls → d'.stream = (calls.map bytes).flatten) ∧
      (¬NeverFills calls → d'.stream.length < (calls.map bytes).flatten.length) := by
  induction calls using List.reverseRecOn with
  | nil =>
    have hbuffer : d.outputBuffer = [] := (List.append_eq_nil_iff.mp hstart).2
    refine ⟨d, rfl, h, ?_, ?_, fun _ => hstart, fun hfills => ?_⟩
    · rw [hbuffer]
      rfl
    · rw [hbuffer]
      decide
    · exact absurd neverFills_nil hfills
  | append_singleton calls call ih =>
    obtain ⟨d₁, hcalls, hvalid, hbuffer, hlength, hgood, hbad⟩ := ih
    obtain ⟨d₂, hcall, hvalid₂, hbuffer₂, hgood₂, hbad₂⟩ := run_ok hvalid hlength call
    have hle : d₁.stream.length ≤ (calls.map bytes).flatten.length := by
      by_cases hfits : NeverFills calls
      · rw [hgood hfits]
      · exact (hbad hfits).le
    rw [hbuffer] at hbuffer₂ hgood₂ hbad₂
    refine ⟨d₂, ?_, hvalid₂, ?_, ?_, ?_, ?_⟩
    · rw [List.foldlM_append, hcalls]
      simp [hcall]
    · rw [hbuffer₂, List.foldl_concat]
    · rw [hbuffer₂, ← hbuffer]
      exact buffered_lt hlength call
    · intro hfits
      obtain ⟨hbefore, hlast⟩ := neverFills_concat.mp hfits
      rw [hgood₂ hlast, hgood hbefore]
      simp
    · intro hfits
      simp only [List.map_append, List.flatten_append, List.length_append, List.map_singleton,
        List.flatten_singleton]
      by_cases hlast : call.Fills (calls.foldl buffered 0)
      · have := hbad₂ hlast
        omega
      · have := hbad fun hbefore => hfits (neverFills_concat.mpr ⟨hbefore, hlast⟩)
        rw [hgood₂ hlast, List.length_append]
        omega

/-- Bytes that end no line gather in the buffer. -/
theorem buffered_replicate {c : UInt8} (hc : isLineEnding c = false) {k : ℕ}
    (hk : k < outBufSize) : (List.replicate k (putc c)).foldl buffered 0 = k := by
  induction k with
  | zero => rfl
  | succ k ih =>
    have hroom : ¬(k + 1 = outBufSize ∨ isLineEnding c = true) := by
      simp [hc, hk.ne]
    rw [List.replicate_succ', List.foldl_concat, ih (by omega), buffered, if_neg hroom]

end ConsoleCall

namespace DebugDevice

/-- A device with a new ring is valid. -/
theorem start_valid {base dmaAddr : ℕ} {buffer : Vector Trb outRingSize}
    {r : TrbRing outRingSize true} (hfits : base + Trb.size * outRingSize ≤ 2 ^ 64)
    (hnew : TrbRing.new buffer base dmaAddr = .ok r) (outDataDma : ℕ) (outData : Memory) :
    (start r outDataDma outData).Valid base := by
  obtain ⟨hring, hbase, henq, hdeq⟩ := TrbRing.new_ok (n := 3) hfits hnew
  exact ⟨⟨0, 0, Nat.zero_le 1, hring, hbase, henq, hdeq, rfl⟩, by simp [start]⟩

/-- Every sequence of calls returns, every payload fits into its slot, and the payloads followed
by the buffer are the bytes passed in exactly if no call fills the buffer. -/
theorem console_stream_iff {base dmaAddr : ℕ} {buffer : Vector Trb outRingSize}
    {r : TrbRing outRingSize true} (hfits : base + Trb.size * outRingSize ≤ 2 ^ 64)
    (hnew : TrbRing.new buffer base dmaAddr = .ok r) (outDataDma : ℕ) (outData : Memory)
    (calls : List ConsoleCall) :
    ∃ d, calls.foldlM ConsoleCall.run (start r outDataDma outData) = .ok d ∧
      (∀ w ∈ d.queued, w.InSlot d.outDataDma) ∧
      (d.stream = (calls.map ConsoleCall.bytes).flatten ↔ ConsoleCall.NeverFills calls) := by
  obtain ⟨d, hcalls, hvalid, -, -, hgood, hbad⟩ :=
    ConsoleCall.runs_ok (start_valid hfits hnew outDataDma outData) (by rfl) calls
  refine ⟨d, hcalls, hvalid.inSlot, ?_, hgood⟩
  intro hstream
  by_contra hfills
  exact absurd (congrArg List.length hstream) (hbad hfills).ne

/-- A byte, a string and a line ending arrive. -/
theorem console_stream_iff_line :
    ∃ (r : TrbRing outRingSize true) (d : DebugDevice),
      TrbRing.new (Vector.replicate outRingSize Trb.zero) 4096 0 = .ok r ∧
      [ConsoleCall.putc 65, .puts [66, 67], .putc 10].foldlM ConsoleCall.run
        (start r 8192 fun _ => 0) = .ok d ∧ d.stream = [65, 66, 67, 10] := by
  obtain ⟨dma, hnew⟩ := TrbRing.new_eq (Vector.replicate outRingSize Trb.zero) 4096 0
  obtain ⟨d, hcalls, -, hiff⟩ := console_stream_iff (by decide) hnew 8192 (fun _ => 0)
    [.putc 65, .puts [66, 67], .putc 10]
  refine ⟨_, d, hnew, hcalls, hiff.mpr ?_⟩
  have hfirst : ConsoleCall.NeverFills [.putc 65] :=
    ConsoleCall.neverFills_concat.mpr
      ⟨ConsoleCall.neverFills_nil, by simp [ConsoleCall.Fills, outBufSize]⟩
  have hsecond : ConsoleCall.NeverFills [.putc 65, .puts [66, 67]] :=
    ConsoleCall.neverFills_concat.mpr ⟨hfirst, id⟩
  refine ConsoleCall.neverFills_concat.mpr ⟨hsecond, ?_⟩
  simp [ConsoleCall.Fills, ConsoleCall.buffered, outBufSize]

/-- A buffer filled byte by byte is announced as an empty transfer. -/
theorem full_buffer_lost :
    ¬∀ (base dmaAddr outDataDma : ℕ) (buffer : Vector Trb outRingSize)
      (r : TrbRing outRingSize true) (outData : Memory) (calls : List ConsoleCall)
      (d : DebugDevice), base + Trb.size * outRingSize ≤ 2 ^ 64 →
      TrbRing.new buffer base dmaAddr = .ok r →
      calls.foldlM ConsoleCall.run (start r outDataDma outData) = .ok d →
      d.stream = (calls.map ConsoleCall.bytes).flatten := by
  intro h
  let calls := List.replicate (outBufSize - 1) (ConsoleCall.putc 65) ++ [.putc 65]
  obtain ⟨dma, hnew⟩ := TrbRing.new_eq (Vector.replicate outRingSize Trb.zero) 4096 0
  have hfits : 4096 + Trb.size * outRingSize ≤ 2 ^ 64 := by decide
  obtain ⟨d, hcalls, -, -, -, -, hbad⟩ :=
    ConsoleCall.runs_ok (start_valid hfits hnew 8192 fun _ => 0) (by rfl) calls
  have hfills : ¬ConsoleCall.NeverFills calls := by
    rw [ConsoleCall.neverFills_concat]
    rintro ⟨-, hlast⟩
    apply hlast
    rw [ConsoleCall.Fills, ConsoleCall.buffered_replicate rfl (by decide)]
    rfl
  have hstream := h _ _ _ _ _ _ calls d hfits hnew hcalls
  exact absurd (congrArg List.length hstream) (hbad hfills).ne

end DebugDevice

end Toyos.Xhci
