import Toyos.Core.Memory
import Toyos.Xhci.RingFlow

/-!
# Output of the debug device

The console sends bytes through a buffer that is flushed when it is full, at line
endings and before every string. Each flush and each chunk of a string becomes
one item of the out ring: the bytes are copied to the slot of the item, and the
item announces their number in a field of sixteen bits.
-/

namespace Toyos.Xhci

open Toyos.Core

/-- `OUT_BUF_SIZE`. -/
def outBufSize : ℕ := 64 * 1024

/-- `TRANSFER_MAX`. -/
def transferMax : ℕ := 64 * 1024 - 1

/-- `OUT_RING_SIZE`. -/
abbrev outRingSize : ℕ := 4

/-- `CHUNK_SIZE`. -/
def chunkSize : ℕ := min outBufSize transferMax

/-- What may stop the device. -/
inductive DeviceFault
  /-- A check of the ring. -/
  | ring (fault : RingFault)
  /-- The assertion of `write_byte`. -/
  | bufferFull
  /-- The controller does not report the items it was given. -/
  | noAnswer
  deriving DecidableEq, Repr

/-- A queued item of the out ring. -/
structure QueuedWrite where
  slot : ℕ
  /-- The committed item. -/
  item : Trb
  /-- The bytes copied to the slot. -/
  copied : List UInt8
  /-- The bytes the item announces. -/
  payload : List UInt8
  deriving DecidableEq, Repr

/-- The output side of the device, with the items the controller has not reported and all items
queued so far. -/
structure DebugDevice where
  outRing : TrbRing outRingSize true
  /-- Address of the data buffer as the controller sees it. -/
  outDataDma : ℕ
  /-- The data buffer, by offset. -/
  outData : Memory
  outputBuffer : List UInt8
  outstanding : List ℕ
  queued : List QueuedWrite

namespace DebugDevice

/-- `handle_events` with the event of the oldest outstanding item. -/
def report (d : DebugDevice) : Except DeviceFault DebugDevice := do
  match d.outstanding with
  | [] => .error .noAnswer
  | slot :: rest =>
    let r ← (d.outRing.updateDequeuePtr
      (wrap (d.outRing.dmaAddr + Trb.size * slot))).mapError .ring
    return { d with outRing := r, outstanding := rest }

/-- One round of the wait for the current transfer. -/
def waitRound (d : DebugDevice) : Except DeviceFault (DebugDevice ⊕ DebugDevice) := do
  if d.outRing.empty then
    return .inr d
  let d ← d.report
  return .inl d

/-- Block until the current transfer is done. Every outstanding item is reported once. -/
def waitIdle (d : DebugDevice) : Except DeviceFault DebugDevice :=
  loop waitRound .noAnswer (d.outstanding.length + 1) d

/-- The stores to the item of a transfer. -/
def fillTransfer (buffer : BitVec 64) (len : BitVec 16) (t : Trb) : Trb :=
  ({ t.setType Trb.normalType with buffer := buffer }.setLength len).setIoc.setIsp.commit

/-- `queue_write_transfer`. -/
def queueWriteTransfer (d : DebugDevice) (str : List UInt8) :
    Except DeviceFault DebugDevice := do
  let d ← d.waitIdle
  let (index, r) ← d.outRing.enqueue.mapError .ring
  let buffer := BitVec.ofNat 64 (d.outDataDma + index * outBufSize)
  let r ← (r.modifyItem index (fillTransfer buffer (BitVec.ofNat 16 str.length))).mapError .ring
  let item ← (r.item index).mapError .ring
  let data := d.outData.store (index * outBufSize) str
  let payload := data.load (wsub item.buffer.toNat d.outDataDma) item.length.toNat
  return { d with
    outRing := r
    outData := data
    outstanding := d.outstanding ++ [index]
    queued := d.queued ++ [⟨index, item, str, payload⟩] }

/-- `flush`. -/
def flush (d : DebugDevice) : Except DeviceFault DebugDevice := do
  if d.outputBuffer.length > 0 then
    let d ← d.queueWriteTransfer d.outputBuffer
    return { d with outputBuffer := [] }
  return d

/-- `write_byte`. -/
def writeByte (d : DebugDevice) (c : UInt8) : Except DeviceFault DebugDevice := do
  ensure (d.outputBuffer.length < outBufSize) .bufferFull
  let d := { d with outputBuffer := d.outputBuffer ++ [c] }
  if d.outputBuffer.length = outBufSize then
    d.flush
  else
    return d

/-- The chunk of a string. -/
def substring (str : List UInt8) (chunk : ℕ) : List UInt8 :=
  (str.drop (chunk * chunkSize)).take chunkSize

/-- `write_line`. -/
def writeLine (d : DebugDevice) (str : List UInt8) : Except DeviceFault DebugDevice := do
  let d ← d.flush
  (List.range (str.length / chunkSize + 1)).foldlM
    (fun d chunk => d.queueWriteTransfer (substring str chunk)) d

/-- `is_line_ending`. -/
def isLineEnding (c : UInt8) : Bool := c == 10 || c == 13

/-- `puts`. -/
def puts (d : DebugDevice) (str : List UInt8) : Except DeviceFault DebugDevice := d.writeLine str

/-- `putc`. -/
def putc (d : DebugDevice) (c : UInt8) : Except DeviceFault DebugDevice := do
  let d ← d.writeByte c
  if isLineEnding c then
    d.flush
  else
    return d

/-- `poll`, with the event of an outstanding item if there is one. -/
def poll (d : DebugDevice) : Except DeviceFault DebugDevice :=
  if d.outstanding = [] then .ok d else d.report

/-- The bytes of all payloads and of the buffer. -/
def stream (d : DebugDevice) : List UInt8 :=
  (d.queued.map QueuedWrite.payload).flatten ++ d.outputBuffer

end DebugDevice

/-- A call of the console. -/
inductive ConsoleCall
  | putc (c : UInt8)
  | puts (str : List UInt8)
  | poll
  deriving DecidableEq, Repr

namespace ConsoleCall

/-- The bytes passed in. -/
def bytes : ConsoleCall → List UInt8
  | .putc c => [c]
  | .puts str => str
  | .poll => []

/-- The effect of a call. -/
def run (d : DebugDevice) : ConsoleCall → Except DeviceFault DebugDevice
  | .putc c => d.putc c
  | .puts str => d.puts str
  | .poll => d.poll

/-- The number of buffered bytes after a call, from the number before it. -/
def buffered (n : ℕ) : ConsoleCall → ℕ
  | .putc c => if n + 1 = outBufSize ∨ DebugDevice.isLineEnding c then 0 else n + 1
  | .puts _ => 0
  | .poll => n

/-- The call fills the buffer. -/
def Fills (n : ℕ) : ConsoleCall → Prop
  | .putc _ => n + 1 = outBufSize
  | _ => False

end ConsoleCall

/-- A device with a new out ring. -/
def DebugDevice.start (r : TrbRing outRingSize true) (outDataDma : ℕ) (outData : Memory) :
    DebugDevice := ⟨r, outDataDma, outData, [], [], []⟩

end Toyos.Xhci
