import CharmRuntime.Lib.Run
import CharmRuntime.Lib.Stripes
import CharmRuntime.Lib.Words
import Mathlib.Data.List.AList

/-!
# Write sessions of `CkIO`

The model of a write session (`ckio.C`): `Director::prepareWriteSession_helper` creates the
`WriteSession` elements, `Manager::write` cuts the data of a call at the PE stripes and sends a
piece to each element, and `WriteSession::forwardData` cuts it again at the write stripes, gathers
the stripes in buffers and writes the full ones to the file.

The range of a session is in a file, whose offsets are signed 64-bit numbers, so that no sum of
`size_t` wraps. The two counters of type `int` do: `numStripes`, and `bytes_filled_so_far` of a
buffer. `pwrite` writes all it is given. Failed assertions, messages for elements that do not exist,
and writes beyond the end of a buffer give no result.
-/

set_option autoImplicit false

namespace CharmRuntime.CkIO

open Lib Words

/-- The stripe sizes of `Options`. -/
structure Options where
  peStripe : Nat
  writeStripe : Nat
  pos : 1 ≤ writeStripe
  le : writeStripe ≤ peStripe

/-- A session on a file with the given options. -/
structure Session where
  opts : Options
  offset : Nat
  bytes : Nat
  pos : 1 ≤ bytes
  inFile : offset + bytes < 2 ^ 63

/-- A write to the file, as `pwrite` gets it. -/
abbrev Write := Nat × List UInt8

/-! ## `WriteSession` -/

/-- `buffer`. -/
structure Buffer where
  array : List UInt8
  bytesFilledSoFar : Int
  deriving DecidableEq

namespace Buffer

def empty : Buffer := ⟨[], 0⟩

def expect (buf : Buffer) (bytes : Nat) : Buffer :=
  { buf with array := buf.array.take bytes ++ List.replicate (bytes - buf.array.length) 0 }

def insertData (buf : Buffer) (data : List UInt8) (offset : Nat) : Option Buffer :=
  if offset + data.length ≤ buf.array.length then
    some ⟨Stripes.splice buf.array offset data, toInt32 (buf.bytesFilledSoFar + data.length)⟩
  else none

/-- The counter is converted to `size_t` for the comparison. -/
def isFull (buf : Buffer) : Bool := buf.bytesFilledSoFar % 2 ^ 64 = buf.array.length

end Buffer

structure WriteSession where
  myOffset : Nat
  myBytes : Nat
  myBytesWritten : Nat
  bufferMap : AList fun _ : Nat => Buffer

/-- What a call leaves: the element, and what has been written to the file. -/
structure Outcome where
  element : WriteSession
  written : List Write

namespace WriteSession

variable (e : WriteSession)

/-- `flushBuffer`. -/
def flushBuffer (buf : Buffer) (bufferOffset : Nat) : Outcome :=
  let l := buf.bytesFilledSoFar.toNat
  ⟨{ e with myBytesWritten := e.myBytesWritten + l }, [(bufferOffset, buf.array.take l)]⟩

/-- The offset of the buffer for an offset in the file. -/
def stripeOffset (writeStripe offset : Nat) : Nat :=
  max (offset / writeStripe * writeStripe) e.myOffset

/-- The size of that buffer. -/
def expectedBufferSize (writeStripe offset : Nat) : Nat :=
  min (offset / writeStripe * writeStripe + writeStripe) (e.myOffset + e.myBytes) -
    e.stripeOffset writeStripe offset

/-- That buffer, with the size it is to have. A map creates an entry that it does not have. -/
def currentBuffer (writeStripe offset : Nat) : Buffer :=
  ((e.bufferMap.lookup (e.stripeOffset writeStripe offset)).getD .empty).expect
    (e.expectedBufferSize writeStripe offset)

/-- The loop body of `forwardData`, for the bytes in the current stripe. -/
def forwardStripe (writeStripe offset : Nat) (data : List UInt8) : Option Outcome :=
  let stripeOffset := e.stripeOffset writeStripe offset
  ((e.currentBuffer writeStripe offset).insertData data (offset - stripeOffset)).map fun buf =>
    if buf.isFull then
      let o := e.flushBuffer buf stripeOffset
      { o with element := { o.element with bufferMap := o.element.bufferMap.erase stripeOffset } }
    else ⟨{ e with bufferMap := e.bufferMap.insert stripeOffset buf }, []⟩

end WriteSession

/-- The loop of `forwardData`. The first argument bounds the number of stripes. -/
def forwardLoop (writeStripe : Nat) : Nat → Nat → List UInt8 → WriteSession → Option Outcome
  | 0, _, _, e => some ⟨e, []⟩
  | fuel + 1, offset, data, e =>
    if data = [] then some ⟨e, []⟩
    else
      let nextStripe := offset / writeStripe * writeStripe + writeStripe
      let bytesInCurrentStripe := min (nextStripe - offset) data.length
      (e.forwardStripe writeStripe offset (data.take bytesInCurrentStripe)).bind fun o =>
        (forwardLoop writeStripe fuel (offset + bytesInCurrentStripe)
          (data.drop bytesInCurrentStripe)
          o.element).map fun o' => ⟨o'.element, o.written ++ o'.written⟩

/-- `forwardData`. -/
def WriteSession.forwardData (e : WriteSession) (writeStripe : Nat) (data : List UInt8)
    (offset : Nat) : Option Outcome :=
  if e.myOffset ≤ offset ∧ offset + data.length ≤ e.myOffset + e.myBytes then
    forwardLoop writeStripe data.length offset data e
  else none

/-! ## `Director` and `Manager` -/

/-- A message for `forwardData` of an element. -/
structure Forward where
  index : Nat
  offset : Nat
  data : List UInt8
  deriving DecidableEq

namespace Session

variable (s : Session)

/-- `numStripes` in `prepareWriteSession_helper`. -/
def numStripes : Int :=
  let delta := s.opts.peStripe - s.offset % s.opts.peStripe
  let first := s.offset % s.opts.peStripe ≠ 0 ∧ delta < s.bytes
  let bytesLeft := if first then s.bytes - delta else s.bytes
  let numStripes := toInt32 ((if first then 1 else 0) + (bytesLeft / s.opts.peStripe : Nat))
  if bytesLeft % s.opts.peStripe ≠ 0 then toInt32 (numStripes + 1) else numStripes

/-- The constructor of `WriteSession`. -/
def element (thisIndex : Nat) : Option WriteSession :=
  let myOffset := (s.offset / s.opts.peStripe + thisIndex) * s.opts.peStripe
  let myBytes := min s.opts.peStripe (s.offset + s.bytes - myOffset)
  if s.offset ≤ myOffset ∧ myOffset + myBytes ≤
    s.offset + s.bytes then some ⟨myOffset, myBytes, 0, ∅⟩ else none

/-- The loop of `Manager::write`. The first argument bounds the number of messages. -/
def writeLoop : Nat → Nat → List UInt8 → List Forward
  | 0, _, _ => []
  | fuel + 1, offset, data =>
    if data = [] then []
    else
      let sessionStripeBase := s.offset / s.opts.peStripe * s.opts.peStripe
      let stripeIndex := (offset - sessionStripeBase) / s.opts.peStripe
      let bytesToSend := min data.length (s.opts.peStripe - offset % s.opts.peStripe)
      ⟨stripeIndex, offset, data.take bytesToSend⟩ ::
        writeLoop fuel (offset + bytesToSend) (data.drop bytesToSend)

/-- `Manager::write`. -/
def write (call : Write) : Option (List Forward) :=
  if s.offset ≤ call.1 ∧ call.1 + call.2.length ≤ s.offset + s.bytes then
    some (s.writeLoop call.2.length call.1 call.2)
  else none

end Session

/-! ## A session at work -/

/-- The calls of `Ck::IO::write` that are still to come, the messages under way, the elements, and
what has been written to the file. `contributed` are the indices of the elements that have
contributed to `syncData`, each as often as it has. -/
structure System where
  calls : List Write
  messages : List Forward
  elements : List WriteSession
  file : List Write
  contributed : List Nat

inductive Event
  | write (call : Write)
  | forwardData (msg : Forward)

namespace System

/-- The elements exist before the first call. -/
def start (session : Session) (calls : List Write) : Option System :=
  ((List.range session.numStripes.toNat).mapM session.element).map fun elements =>
    ⟨calls, [], elements, [], []⟩

/-- Whether an event can happen. -/
def Enabled (s : System) : Event → Prop
  | .write call => call ∈ s.calls
  | .forwardData msg => msg ∈ s.messages

/-- What an event does. -/
def exec (session : Session) (s : System) : Event → Option System
  | .write call =>
    if call ∈ s.calls then
      (session.write call).map fun messages =>
        { s with calls := s.calls.erase call, messages := s.messages ++ messages }
    else none
  | .forwardData msg =>
    if msg ∈ s.messages then
      s.elements[msg.index]?.bind fun e =>
        (e.forwardData session.opts.writeStripe msg.data msg.offset).map fun o =>
          { s with
            messages := s.messages.erase msg
            elements := s.elements.set msg.index o.element
            file := s.file ++ o.written
            contributed := s.contributed ++
              if o.element.myBytesWritten = o.element.myBytes then [msg.index] else [] }
    else none

/-- How often the reduction over all elements has triggered `syncData`. -/
def synced (s : System) : Nat :=
  ((List.range s.elements.length).map s.contributed.count).min?.getD 0

end System

end CharmRuntime.CkIO
