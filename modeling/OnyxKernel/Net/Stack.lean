import OnyxKernel.Core.Errno
import OnyxKernel.Foundation.RingBuffer

/-!
# The network stack

`kernel/src/net`: Ethernet frames and the ARP cache of `eth.rs`, IPv4 with checksums and the answer to a ping of
`ip.rs`, and the connections of `tcp.rs`.  A received frame is a list of bytes.  The answer `none` stands for a
panic.

`send_packet` polls the device while it waits for an ARP reply.  Here `reply` says which address answers such a
request, and the other frames that come in meanwhile are received afterwards.
-/

namespace OnyxKernel

open List Nat Function

/-! ### Words in network order -/

def be16 (w : BitVec 16) : List UInt8 := [.ofNat (w.toNat / 256), .ofNat w.toNat]

def be32 (w : BitVec 32) : List UInt8 := be16 (w.extractLsb' 16 16) ++ be16 (w.extractLsb' 0 16)

/-- `u16::from_be_bytes` of the bytes at `i`. -/
def word16 (frame : List UInt8) (i : ℕ) : Option (BitVec 16) := do
  return .ofNat 16 ((← frame[i]?).toNat * 256 + (← frame[i + 1]?).toNat)

/-- `u32::from_be_bytes` of the bytes at `i`. -/
def word32 (frame : List UInt8) (i : ℕ) : Option (BitVec 32) := do
  return (← word16 frame i) ++ (← word16 frame (i + 2))

/-- `n` bytes at `i` as an array. -/
def bytesAt (n : ℕ) (frame : List UInt8) (i : ℕ) : Option (Fin n → UInt8) :=
  if i + n ≤ frame.length then some fun k => frame.getD (i + k) 0 else none

abbrev Ipv4 := Fin 4 → UInt8
abbrev Mac := Fin 6 → UInt8

/-! ### Checksums -/

/-- The sum of the 16-bit words, with a zero byte behind an odd one. -/
def wordSum : List UInt8 → ℕ
  | [] => 0
  | [a] => a.toNat * 256
  | a :: b :: l => a.toNat * 256 + b.toNat + wordSum l

/-- `while sum >> 16 != 0 { sum = (sum & 0xFFFF) + (sum >> 16); }` -/
def foldSum (sum : ℕ) : ℕ := if sum < 2 ^ 16 then sum else foldSum (sum % 2 ^ 16 + sum / 2 ^ 16)

def checksum (data : List UInt8) : BitVec 16 := ~~~.ofNat 16 (foldSum (wordSum data % 2 ^ 32))

def tcpChecksum (srcIp dstIp : Ipv4) (segment : List UInt8) : BitVec 16 :=
  ~~~.ofNat 16 (foldSum ((wordSum (ofFn srcIp) + wordSum (ofFn dstIp) + 6 + segment.length + wordSum segment) %
    2 ^ 32))

/-! ### Connections -/

abbrev maxConns : ℕ := 8
abbrev tcpBufSize : ℕ := 2048
abbrev tcpHlen : ℕ := 20

instance : NeZero maxConns := ⟨by decide⟩

/-- The values 1 to 4 of `state`. -/
inductive TcpState where
  | synSent | established | finWait | closed
  deriving DecidableEq, Repr

/-- `TcpConn`.  Of `send_buf` only the first `send_len` bytes are kept. -/
structure TcpConn where
  state : TcpState
  srcPort : BitVec 16
  dstIp : Ipv4
  dstPort : BitVec 16
  sndNxt : BitVec 32
  rcvNxt : BitVec 32
  sendBuf : List UInt8
  recvBuf : Fin tcpBufSize → UInt8
  recvLen : ℕ
  recvHead : ℕ
  send_le : sendBuf.length ≤ tcpBufSize
  recv_le : recvLen ≤ tcpBufSize

/-- A segment as `handle_tcp` reads it. -/
structure Segment where
  dport : BitVec 16
  seq : BitVec 32
  ack : BitVec 32
  flags : UInt8
  payload : List UInt8

/-- The first part of `handle_tcp`. -/
def readSegment (frame : List UInt8) (ipStart ihl totalLen : ℕ) : Option Segment := do
  let tcpOff := ipStart + ihl
  let dport ← word16 frame tcpOff
  let _sport ← word16 frame (tcpOff + 2)
  let seq ← word32 frame (tcpOff + 4)
  let ack ← word32 frame (tcpOff + 8)
  let flags ← frame[tcpOff + 13]?
  let payloadStart := tcpOff + (← frame[tcpOff + 12]?).toNat / 16 * 4
  let payloadLen := min (ipStart + totalLen) frame.length - payloadStart
  return ⟨dport, seq, ack, flags, (frame.drop payloadStart).take payloadLen⟩

namespace TcpConn

/-- The connection of `tcp_connect`. -/
def syn (sport : BitVec 16) (dstIp : Ipv4) (port : BitVec 16) : TcpConn :=
  ⟨.synSent, sport, dstIp, port, sport.setWidth 32 + 1, 0, [], fun _ => 0, 0, 0, zero_le _, zero_le _⟩

variable (c : TcpConn) (g : Segment)

/-- The number of bytes of a segment that there is room for. -/
def room : ℕ := min g.payload.length (tcpBufSize - c.recvLen)

/-- A connection takes the next bytes. -/
def acceptData : TcpConn :=
  { c with
    recvBuf := RingBuffer.write c.recvBuf (c.recvHead + c.recvLen) (g.payload.take (c.room g))
    recvLen := c.recvLen + c.room g
    rcvNxt := c.rcvNxt + .ofNat 32 (c.room g)
    recv_le := by
      have := c.recv_le
      unfold room
      omega }

/-- What a connection does with a segment, and the segments that it sends: the connection at that time, and the
flags. -/
def receive : TcpConn × List (TcpConn × UInt8) :=
  match c.state with
  | .synSent =>
    if g.flags &&& 0x12 = 0x12 then
      let c := { c with state := .established, sndNxt := g.ack, rcvNxt := g.seq + 1 }
      (c, [(c, 0x10)])
    else (c, [])
  | .established =>
    let r := if g.seq = c.rcvNxt ∧ g.payload ≠ [] then (c.acceptData g, [(c.acceptData g, 0x10)]) else (c, [])
    if g.flags &&& 0x01 ≠ 0 then
      let c := { r.1 with state := .closed, rcvNxt := g.seq + 1 }
      (c, r.2 ++ [(c, 0x11)])
    else r
  | .finWait => if g.flags &&& 0x10 ≠ 0 then ({ c with state := .closed }, []) else (c, [])
  | .closed => (c, [])

/-- The bytes that `tcp_send` takes. -/
def accepted (data : List UInt8) : List UInt8 := data.take (min data.length (tcpBufSize - c.sendBuf.length))

/-- The bytes are in `send_buf`. -/
def buffer (data : List UInt8) : TcpConn :=
  { c with
    sendBuf := c.sendBuf ++ c.accepted data
    send_le := by
      have := c.send_le
      simp only [accepted, length_append, length_take]
      omega }

/-- And they have been sent. -/
def advance (data : List UInt8) : TcpConn :=
  { c.buffer data with sndNxt := c.sndNxt + .ofNat 32 (c.accepted data).length }

/-- The bytes that `tcp_recv` copies into a buffer of `len` bytes. -/
def taken (len : ℕ) : List UInt8 := RingBuffer.read c.recvBuf c.recvHead (min len c.recvLen)

/-- The connection then. -/
def take (len : ℕ) : TcpConn :=
  { c with
    recvHead := (c.recvHead + min len c.recvLen) % tcpBufSize
    recvLen := c.recvLen - min len c.recvLen
    recv_le := (sub_le ..).trans c.recv_le }

/-- The bytes of `send_tcp_seg` with the checksum `ck`. -/
def segment (flags : UInt8) (data : List UInt8) (ck : BitVec 16) : List UInt8 :=
  be16 c.srcPort ++ be16 c.dstPort ++ be32 c.sndNxt ++ be32 c.rcvNxt ++
    be16 (.ofNat 16 (tcpHlen / 4 <<< 12 ||| flags.toNat)) ++ [0xFF, 0xFF] ++ be16 ck ++ [0, 0] ++ data

/-- The segment that `send_tcp_seg` gives to `send_packet`. -/
def tcpSeg (ip : Ipv4) (flags : UInt8) (data : List UInt8) : List UInt8 :=
  c.segment flags data (tcpChecksum ip c.dstIp (c.segment flags data 0))

end TcpConn

/-! ### Frames -/

/-- The globals of the stack, and the frames that have been given to the device. -/
structure Net where
  ip : Ipv4
  mac : Mac
  arp : List (Ipv4 × Mac)
  ipId : BitVec 16
  conns : Fin maxConns → Option TcpConn
  nextPort : BitVec 16
  sent : List (List UInt8)

namespace Net

variable (reply : Ipv4 → Option Mac) (s : Net)

def arpLookup (ip : Ipv4) : Option Mac := (s.arp.find? (·.1 = ip)).map (·.2)

def arpInsert (ip : Ipv4) (mac : Mac) : Net :=
  if (s.arpLookup ip).isSome then { s with arp := s.arp.replaceF fun e => if e.1 = ip then some (ip, mac) else none }
  else if s.arp.length < 8 then { s with arp := s.arp ++ [(ip, mac)] } else s

def sendFrame (dst : Mac) (ethertype : BitVec 16) (payload : List UInt8) : Net :=
  { s with sent := s.sent ++ [ofFn dst ++ ofFn s.mac ++ be16 ethertype ++ payload] }

/-- The payload of an ARP packet. -/
def arpPacket (oper : BitVec 16) (tha : Mac) (tpa : Ipv4) : List UInt8 :=
  be16 1 ++ be16 0x0800 ++ [6, 4] ++ be16 oper ++ ofFn s.mac ++ ofFn s.ip ++ ofFn tha ++ ofFn tpa

/-- The header of an IPv4 packet with the checksum `ck`. -/
def ipHeader (len : ℕ) (id : BitVec 16) (protocol : UInt8) (src dst : Ipv4) (ck : BitVec 16) : List UInt8 :=
  [0x45, 0] ++ be16 (.ofNat 16 (20 + len)) ++ be16 id ++ be16 0 ++ [64, protocol] ++ be16 ck ++ ofFn src ++ ofFn dst

/-- The header with its own checksum. -/
def ipHeaderSum (len : ℕ) (id : BitVec 16) (protocol : UInt8) (src dst : Ipv4) : List UInt8 :=
  ipHeader len id protocol src dst (checksum (ipHeader len id protocol src dst 0))

def sendPacket (dst : Ipv4) (protocol : UInt8) (payload : List UInt8) : Net :=
  let send (s : Net) (mac : Mac) : Net :=
    { s with ipId := s.ipId + 1 }.sendFrame mac 0x0800
      (ipHeaderSum payload.length s.ipId protocol s.ip dst ++ payload)
  match s.arpLookup dst with
  | some mac => send s mac
  | none =>
    let s := s.sendFrame (fun _ => 0xFF) 0x0806 (s.arpPacket 1 (fun _ => 0) dst)
    match reply dst with
    | some mac =>
      -- the reply is not learned where the cache is full
      let s := s.arpInsert dst mac
      match s.arpLookup dst with
      | some mac => send s mac
      | none => s
    | none => s

def sendTcpSeg (c : TcpConn) (flags : UInt8) (data : List UInt8) : Net :=
  s.sendPacket reply c.dstIp 6 (c.tcpSeg s.ip flags data)

/-- What `handle_tcp` does with the connection `i`. -/
def receiveAt (g : Segment) (s : Net) (i : Fin maxConns) : Net :=
  match s.conns i with
  | some c =>
    if c.srcPort = g.dport then
      (c.receive g).2.foldl (fun s r => s.sendTcpSeg reply r.1 r.2 [])
        { s with conns := update s.conns i (some (c.receive g).1) }
    else s
  | none => s

def handleTcp (frame : List UInt8) (ipStart ihl totalLen : ℕ) : Option Net :=
  if frame.length < ipStart + ihl + tcpHlen then some s
  else (readSegment frame ipStart ihl totalLen).map fun g => (finRange maxConns).foldl (receiveAt reply g) s

/-- `copy_from_slice` into `n` bytes. -/
def copyFromSlice (n : ℕ) (src : List UInt8) : Option (List UInt8) := if src.length = n then some src else none

def handleIcmp (frame : List UInt8) (ipStart : ℕ) : Option Net := do
  let icmpStart := ipStart + 20
  if frame.length < icmpStart + 8 then return s
  else if (← frame[icmpStart]?) ≠ 8 then return s
  else
    let len := frame.length - ipStart
    let rest ← copyFromSlice (len - 4) (frame.drop (icmpStart + 4))
    let icmp := [0, 0] ++ be16 (checksum ([0, 0, 0, 0] ++ rest)) ++ rest
    let src ← bytesAt 4 frame (ipStart + 16)
    let srcMac ← bytesAt 6 frame 6
    return s.sendFrame srcMac 0x0800 (ipHeaderSum len 0 1 src s.ip ++ icmp)

def handleIp (frame : List UInt8) : Option Net := do
  if frame.length < 34 then return s
  else
    let ihl := (← frame[14]?).toNat % 16 * 4
    let totalLen := (← word16 frame 16).toNat
    let protocol ← frame[23]?
    if protocol = 1 then s.handleIcmp frame 14
    else if protocol = 6 then s.handleTcp reply frame 14 ihl totalLen
    else return s

def handleArp (frame : List UInt8) : Option Net := do
  if frame.length < 42 then return s
  else
    let oper ← word16 frame 20
    let spa ← bytesAt 4 frame 28
    let sha ← bytesAt 6 frame 22
    let tpa ← bytesAt 4 frame 38
    let s := s.arpInsert spa sha
    return if oper = 1 ∧ tpa = s.ip then s.sendFrame sha 0x0806 (s.arpPacket 2 sha spa) else s

def dispatch (frame : List UInt8) : Option Net := do
  if frame.length < 14 then return s
  else
    let ethertype ← word16 frame 12
    if ethertype = 0x0806 then s.handleArp frame
    else if ethertype = 0x0800 then s.handleIp reply frame
    else return s

/-! ### Calls -/

def allocConn : Option (Fin maxConns) := (finRange maxConns).find? fun i => (s.conns i).isNone

def setConn (cid : Fin maxConns) (c : Option TcpConn) : Net := { s with conns := update s.conns cid c }

/-- `poll`, with the frames that it receives. -/
def poll (frames : List (List UInt8)) : Option Net := frames.foldlM (dispatch reply) s

/-- The loop of `tcp_connect`, with the frames that each `poll` receives. -/
def awaitSynAck (cid : Fin maxConns) : List (List (List UInt8)) → Net → Option (Except Errno (Fin maxConns) × Net)
  | [], s => some (.error .io, s.setConn cid none)
  | frames :: rest, s => do
    let s ← s.poll reply frames
    if (s.conns cid).map (·.state) = some .established then return (.ok cid, s) else awaitSynAck cid rest s

def tcpConnect (polls : List (List (List UInt8))) (dstIp : Ipv4) (port : BitVec 16) :
    Option (Except Errno (Fin maxConns) × Net) :=
  match s.allocConn with
  | none => some (.error .busy, s)
  | some cid =>
    let c := TcpConn.syn s.nextPort dstIp port
    let s := { s with nextPort := s.nextPort + 1 }.setConn cid (some c)
    awaitSynAck reply cid polls (s.sendTcpSeg reply c 0x02 [])

def tcpSend (cid : Fin maxConns) (data : List UInt8) : Except Errno ℕ × Net :=
  match s.conns cid with
  | none => (.error .inval, s)
  | some c =>
    if c.state ≠ .established then (.error .io, s)
    else
      let s := s.sendTcpSeg reply (c.buffer data) 0x18 (c.accepted data)
      (.ok (c.accepted data).length, s.setConn cid (some (c.advance data)))

/-- `tcp_recv`, with the bytes that it returns. -/
def tcpRecv (cid : Fin maxConns) (len : ℕ) : Except Errno (List UInt8) × Net :=
  match s.conns cid with
  | none => (.error .inval, s)
  | some c => if c.recvLen = 0 then (.error .noEnt, s) else (.ok (c.taken len), s.setConn cid (some (c.take len)))

def tcpClose (cid : Fin maxConns) : Net :=
  match s.conns cid with
  | some c => (if c.state = .established then s.sendTcpSeg reply c 0x11 [] else s).setConn cid none
  | none => s.setConn cid none

end Net

end OnyxKernel
