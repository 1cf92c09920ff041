import CharmRuntime.Lib.Run
import CharmRuntime.Lib.Stripes

/-!
# Split section multicasts

The model of `CkMulticastMgr` (`ckmulticast.C`, built with `SPLIT_MULTICAST`) as far as packets go:
`sendToSection` splits a multicast, `recvPacket` sends the packets down the spanning tree of the
section and puts them together at each vertex, and `childrenReady` releases the packets that have
come before. The messages that build the tree are left out: a vertex becomes ready at some time
after its children. Packets in flight are received in any order.

There is no result where an assertion fails, and where a packet is copied outside the buffer.
-/

set_option autoImplicit false

namespace CharmRuntime.Multicast

open Lib

/-! ## Packets and entries -/

/-- A byte of memory, or one that has not been written. -/
abbrev Byte := Option UInt8

/-- A packet. The number of its multicast is not in the code. -/
structure Packet where
  mcast : Nat
  offset : Nat
  data : List Byte
  seqno : Nat
  count : Nat
  totalsize : Nat
  deriving DecidableEq

/-- A call of `recvPacket` in flight. -/
structure Call where
  entry : Nat
  packet : Packet
  fromBuffer : Bool
  deriving DecidableEq

/-- `mCastEntry`, at a vertex of the tree. The last two fields are not in the code: the packets that
are in `asm_msg`, and all packets that have been handled. -/
structure MCastEntry where
  ready : Bool
  packetBuf : List Packet
  asmMsg : Option (List Byte)
  asmFill : Nat
  pieces : List Packet
  handled : List Packet

/-- A spanning tree, and how multicasts are split. -/
structure Config where
  root : Nat
  children : Nat → List Nat
  nodup : ∀ v, (children v).Nodup
  parent : ∀ v w c, c ∈ children v → c ∈ children w → v = w
  root_notMem : ∀ v, root ∉ children v
  splitSize : Nat
  splitThreshold : Nat
  splitSize_pos : 0 < splitSize

/-- The number of packets of a multicast. -/
def Config.totalcount (cfg : Config) (data : List Byte) : Nat :=
  if data.length < cfg.splitThreshold then 1
  else data.length / cfg.splitSize + if data.length % cfg.splitSize ≠ 0 then 1 else 0

/-- The packets of a multicast: `split_size` bytes each, but for the last one. -/
def Config.packets (cfg : Config) (mcast : Nat) (data : List Byte) : List Packet :=
  (Stripes.cut cfg.splitSize data.length 0 data).zipIdx.map fun piece =>
    ⟨mcast, piece.1.1, piece.1.2, piece.2, cfg.totalcount data, data.length⟩

/-- All vertices, the packets in flight, the multicasts that have been sent, and the messages that
the vertices have put together. -/
structure System where
  entries : Nat → MCastEntry
  network : List Call
  sent : List (List Byte)
  assembled : List (List Byte)

/-- No multicast has been sent, and no vertex is ready. -/
def System.init : System := ⟨fun _ => ⟨false, [], none, 0, [], []⟩, [], [], []⟩

/-! ## The calls -/

/-- `memcpy` to `asm_msg`, which is allocated for the first packet. -/
def MCastEntry.assemble (e : MCastEntry) (packet : Packet) : Option MCastEntry :=
  let asmMsg := e.asmMsg.getD (List.replicate packet.totalsize none)
  if (e.asmMsg = none → e.asmFill = 0) ∧ packet.offset + packet.data.length ≤ asmMsg.length then
    some { e with
      asmMsg := some (Stripes.splice asmMsg packet.offset packet.data)
      asmFill := e.asmFill + packet.data.length
      pieces := e.pieces ++ [packet]
      handled := e.handled ++ [packet] }
  else none

/-- `asm_msg` is passed on. -/
def MCastEntry.release (e : MCastEntry) : MCastEntry :=
  { e with asmMsg := none, asmFill := 0, pieces := [] }

namespace System

variable (s : System)

/-- An entry changes. -/
def put (v : Nat) (e : MCastEntry) : System := { s with entries := Function.update s.entries v e }

/-- Packets are sent. -/
def post (calls : List Call) : System := { s with network := s.network ++ calls }

/-- `sendToSection`. A multicast of one packet is sent as a whole. -/
def sendToSection (cfg : Config) (data : List Byte) : System :=
  { s with sent := s.sent ++ [data] }.post (if cfg.totalcount data = 1 then []
    else (cfg.packets s.sent.length data).map fun packet => ⟨cfg.root, packet, false⟩)

/-- `childrenReady`. -/
def childrenReady (v : Nat) : System :=
  (s.put v { s.entries v with ready := true, packetBuf := [] }).post
    ((s.entries v).packetBuf.map fun packet => ⟨v, packet, true⟩)

/-- Whether `recvPacket` only keeps the packet. -/
abbrev Keeps (call : Call) : Prop :=
  call.fromBuffer = false ∧ ((s.entries call.entry).ready = false ∨
    (s.entries call.entry).packetBuf ≠ [])

/-- `recvPacket`. -/
def recvPacket (cfg : Config) (call : Call) : Option System :=
  let e := s.entries call.entry
  if s.Keeps call then some (s.put call.entry { e with packetBuf := e.packetBuf ++ [call.packet] })
  else
    let s := s.post ((cfg.children call.entry).map fun child => ⟨child, call.packet, false⟩)
    (e.assemble call.packet).map fun e =>
      if e.asmFill = call.packet.totalsize then
        { s.put call.entry e.release with assembled := s.assembled ++ e.asmMsg.toList }
      else s.put call.entry e

end System

/-- What happens: a PE sends a multicast, the cookies of the children of a vertex have arrived, or a
packet arrives. -/
inductive Event
  | send (data : List Byte)
  | childrenReady (v : Nat)
  | recvPacket (call : Call)

/-- What an event does, if it can happen. -/
def System.exec (cfg : Config) (s : System) : Event → Option System
  | .send data => some (s.sendToSection cfg data)
  | .childrenReady v =>
    if (s.entries v).ready = false ∧ ∀ c ∈ cfg.children v,
      (s.entries c).ready = true then some (s.childrenReady v) else none
  | .recvPacket call =>
    if call ∈ s.network then { s with network := s.network.erase call }.recvPacket cfg call
    else none

end CharmRuntime.Multicast
