import OnyxKernel.Net.Packets

/-!
# Connections

`handle_tcp` looks for a connection by the port that stands first in a segment, which is the port of the sender.  So
a segment reaches its connection only if both ports are equal (`reaches_iff`).  A connection takes no more than 2048
bytes for sending (`progresses_iff`).  What is received is the beginning of the stream of the peer as long as the end
comes at its place (`inOrder_run`), and strangers are kept out only as far as they miss the port (`isolated`).
-/

namespace OnyxKernel

open List TcpConn

open Function (update update_eq_self update_self update_of_ne)

namespace TcpConn

/-- What `handle_tcp` does to a connection. -/
def handle (g : Segment) (c : TcpConn) : TcpConn := if c.srcPort = g.dport then (c.receive g).1 else c

variable {c : TcpConn} {g : Segment}

lemma receive_keeps : (c.receive g).1.srcPort = c.srcPort ∧ (c.receive g).1.sendBuf = c.sendBuf := by
  unfold receive
  split
  · split_ifs <;> exact ⟨rfl, rfl⟩
  · dsimp only
    split_ifs <;> exact ⟨rfl, rfl⟩
  · split_ifs <;> exact ⟨rfl, rfl⟩
  · exact ⟨rfl, rfl⟩

lemma srcPort_handle : (c.handle g).srcPort = c.srcPort := by
  unfold handle
  split_ifs
  · exact receive_keeps.1
  · rfl

end TcpConn

namespace Net

variable {reply : Ipv4 → Option Mac} {s s' : Net} {i j : Fin maxConns} {c : TcpConn} {g : Segment} {frame : List UInt8}

/-! ### Segments -/

@[simp] lemma conns_arpInsert (ip : Ipv4) (mac : Mac) : (s.arpInsert ip mac).conns = s.conns := by
  unfold arpInsert
  split_ifs <;> rfl

@[simp] lemma conns_sendTcpSeg (c : TcpConn) (flags : UInt8) (data : List UInt8) :
    (s.sendTcpSeg reply c flags data).conns = s.conns := by
  unfold sendTcpSeg sendPacket
  split
  · rfl
  · split
    · dsimp only
      split <;> exact conns_arpInsert ..
    · rfl

lemma conns_receiveAt (g : Segment) (s : Net) (i : Fin maxConns) :
    (receiveAt reply g s i).conns = update s.conns i ((s.conns i).map (handle g)) := by
  have hsent (l : List (TcpConn × UInt8)) (s : Net) :
      (l.foldl (fun s r => s.sendTcpSeg reply r.1 r.2 []) s).conns = s.conns := by
    induction l generalizing s with
    | nil => rfl
    | cons r l ih => rw [foldl_cons, ih, conns_sendTcpSeg]
  have hself := update_eq_self i s.conns
  unfold receiveAt
  cases hc : s.conns i with
  | none =>
    rw [hc] at hself
    exact hself.symm
  | some c =>
    rw [hc] at hself
    dsimp only
    rw [Option.map_some, handle]
    split_ifs with hport
    · exact hsent ..
    · exact hself.symm

lemma conns_handle (g : Segment) (s : Net) (j : Fin maxConns) :
    ((finRange maxConns).foldl (receiveAt reply g) s).conns j = (s.conns j).map (handle g) := by
  have hlist (l : List (Fin maxConns)) (hl : l.Nodup) (s : Net) : (l.foldl (receiveAt reply g) s).conns j =
      if j ∈ l then (s.conns j).map (handle g) else s.conns j := by
    induction l generalizing s with
    | nil => rfl
    | cons i l ih =>
      obtain ⟨hi, hl⟩ := nodup_cons.mp hl
      rw [foldl_cons, ih hl, conns_receiveAt]
      by_cases hji : j = i
      · simp [hji, hi]
      · simp [hji]
  rw [hlist _ (nodup_finRange _), if_pos (mem_finRange j)]

lemma handleTcp_of_readSegment {ipStart ihl totalLen : ℕ} (hlen : ipStart + ihl + 20 ≤ frame.length)
    (hg : readSegment frame ipStart ihl totalLen = some g) :
    s.handleTcp reply frame ipStart ihl totalLen = some ((finRange maxConns).foldl (receiveAt reply g) s) := by
  rw [handleTcp, tcpHlen, if_neg (Nat.not_lt.mpr hlen), hg, Option.map_some]

lemma dport_of_readSegment {ipStart ihl totalLen : ℕ} (hg : readSegment frame ipStart ihl totalLen = some g) :
    word16 frame (ipStart + ihl) = some g.dport := by
  simp only [readSegment, Option.bind_eq_bind, Option.bind_eq_some_iff, Option.pure_def, Option.some.injEq] at hg
  obtain ⟨dport, hdport, -, -, -, -, -, -, -, -, -, -, rfl⟩ := hg
  exact hdport

/-- `handle_tcp` takes the segment for one of connection `i`. -/
def Matches (s : Net) (g : Segment) (i : Fin maxConns) : Prop := ∃ c, s.conns i = some c ∧ c.srcPort = g.dport

/-- A frame with a segment for connection `i` reaches this connection and no other one, and an answer to the SYN
opens it. -/
def Reaches (reply : Ipv4 → Option Mac) (s : Net) (frame : List UInt8) (ipStart ihl totalLen : ℕ) (i : Fin maxConns) :
    Prop :=
  ∃ g s', readSegment frame ipStart ihl totalLen = some g ∧ s.handleTcp reply frame ipStart ihl totalLen = some s' ∧
    (∀ j, s.Matches g j ↔ j = i) ∧
    ∀ c, s.conns i = some c → c.state = .synSent → g.flags &&& 0x12 = 0x12 →
      ∃ c', s'.conns i = some c' ∧ c'.state = .established

/-- A segment of the peer reaches its connection exactly when the two ports are equal and no other connection has the
local port. -/
theorem reaches_iff (reply : Ipv4 → Option Mac) {s : Net} {i : Fin maxConns} {c : TcpConn} (hc : s.conns i = some c)
    {header rest : List UInt8} {ipStart ihl : ℕ} (hheader : header.length = ipStart + ihl) (hrest : 16 ≤ rest.length)
    (totalLen : ℕ) :
    s.Reaches reply (header ++ (be16 c.dstPort ++ (be16 c.srcPort ++ rest))) ipStart ihl totalLen i ↔
      c.dstPort = c.srcPort ∧ ∀ j c', s.conns j = some c' → c'.srcPort = c.srcPort → j = i := by
  have hlen : ipStart + ihl + 20 ≤ (header ++ (be16 c.dstPort ++ (be16 c.srcPort ++ rest))).length := by
    simp only [length_append, length_be16]
    omega
  obtain ⟨g, hg⟩ := exists_readSegment totalLen hlen
  have hport : g.dport = c.dstPort := by
    have hword := dport_of_readSegment hg
    rw [← hheader, word16_be16] at hword
    exact (Option.some.inj hword).symm
  constructor
  · rintro ⟨g', s', hg', -, hmatch, -⟩
    obtain rfl : g = g' := Option.some.inj (hg.symm.trans hg')
    obtain ⟨c', hc', heq⟩ := (hmatch i).mpr rfl
    obtain rfl : c = c' := Option.some.inj (hc.symm.trans hc')
    have hports : c.dstPort = c.srcPort := hport.symm.trans heq.symm
    exact ⟨hports, fun j c' hj hp => (hmatch j).mp ⟨c', hj, hp.trans heq⟩⟩
  · rintro ⟨hports, huniq⟩
    have hself : c.srcPort = g.dport := hports.symm.trans hport.symm
    refine ⟨g, _, hg, handleTcp_of_readSegment hlen hg, fun j => ⟨?_, ?_⟩, fun c' hc' hsyn hflags => ?_⟩
    · rintro ⟨c', hj, hp⟩
      exact huniq j c' hj (hp.trans hself.symm)
    · rintro rfl
      exact ⟨c, hc, hself⟩
    · obtain rfl : c = c' := Option.some.inj (hc.symm.trans hc')
      refine ⟨c.handle g, by rw [conns_handle, hc, Option.map_some], ?_⟩
      simp [handle, hself, receive, hsyn, hflags]

/-- A connection that waits for the answer of port `port`. -/
def dialing (port : BitVec 16) : Net := idle.setConn 0 (some (.syn 40000 (fun _ => 1) port))

lemma conns_dialing {port : BitVec 16} (hj : (dialing port).conns j = some c) :
    j = 0 ∧ c = .syn 40000 (fun _ => 1) port := by
  have hupdate : update idle.conns 0 (some (.syn 40000 (fun _ => 1) port)) j = some c := hj
  by_cases hzero : j = 0
  · rw [hzero, update_self] at hupdate
    exact ⟨hzero, (Option.some.inj hupdate).symm⟩
  · rw [update_of_ne hzero] at hupdate
    cases hupdate

theorem reaches_iff_dialing : (dialing 40000).Reaches (fun _ => none)
    (replicate 34 0 ++ (be16 40000 ++ (be16 40000 ++ replicate 16 0x12))) 14 20 40 0 :=
  (reaches_iff _ (c := .syn 40000 (fun _ => 1) 40000) rfl rfl (by decide) 40).mpr
    ⟨rfl, fun _ _ hj _ => (conns_dialing hj).1⟩

/-- The answer of a server at port 80 is lost. -/
theorem not_reaches_dialing : ¬(dialing 80).Reaches (fun _ => none)
    (replicate 34 0 ++ (be16 80 ++ (be16 40000 ++ replicate 16 0x12))) 14 20 40 0 := by
  rintro ⟨g, s', hg, -, hmatch, -⟩
  obtain ⟨c, hc, hport⟩ := (hmatch 0).mpr rfl
  have hword := dport_of_readSegment hg
  rw [← hport, (conns_dialing hc).2] at hword
  exact absurd hword (by decide)

end Net

/-! ### Sending -/

/-- A connection, the last acknowledgement of its peer, and the number of bytes that `tcp_send` has taken. -/
structure Sender where
  conn : TcpConn
  acked : BitVec 32
  total : ℕ

namespace Sender

/-- A call of `tcp_send`, or a segment that reaches the connection. -/
inductive Event where
  | send (data : List UInt8)
  | segment (g : Segment)

def step (h : Sender) : Event → Sender
  | .send data =>
    if h.conn.state = .established then
      { h with conn := h.conn.advance data, total := h.total + (h.conn.accepted data).length }
    else h
  | .segment g =>
    { h with conn := (h.conn.receive g).1, acked := if g.flags &&& 0x10 ≠ 0 then g.ack else h.acked }

/-- When everything that was sent has been acknowledged, the next call takes at least one byte. -/
def Progresses (h : Sender) : Prop :=
  h.conn.state = .established → h.acked = h.conn.sndNxt → ∀ data ≠ [], 0 < (h.conn.accepted data).length

lemma length_sendBuf (es : List Event) {h : Sender} (hlen : h.conn.sendBuf.length = h.total) :
    (es.foldl step h).conn.sendBuf.length = (es.foldl step h).total := by
  induction es generalizing h with
  | nil => exact hlen
  | cons e es ih =>
    refine ih ?_
    cases e with
    | send data =>
      unfold step
      split_ifs
      · simp [advance, buffer, hlen]
      · exact hlen
    | segment g => rw [step, receive_keeps.2, hlen]

/-- A connection that has just been established. -/
def opened : TcpConn := { syn 40000 (fun _ => 1) 80 with state := .established }

end Sender

/-! ### Receiving -/

lemma TcpConn.read_acceptData (c : TcpConn) (g : Segment) :
    RingBuffer.read (c.acceptData g).recvBuf c.recvHead (c.acceptData g).recvLen =
      RingBuffer.read c.recvBuf c.recvHead c.recvLen ++ g.payload.take (c.room g) := by
  have hlen : (g.payload.take (c.room g)).length = c.room g := length_take_of_le (Nat.min_le_left ..)
  have hroom : c.recvLen + c.room g ≤ tcpBufSize := (c.acceptData g).recv_le
  rw [← hlen] at hroom
  have hread := RingBuffer.read_write c.recvBuf c.recvHead _ hroom
  rwa [hlen] at hread

/-- A connection, the bytes that `tcp_recv` has returned, the number of bytes that have come into `recv_buf`, and
whether the end of the stream has come at its place. -/
structure Receiver where
  conn : TcpConn
  got : List UInt8
  count : ℕ
  fin : Bool

namespace Receiver

/-- A segment reaches the connection. -/
def segment (isn : BitVec 32) (h : Receiver) (g : Segment) : Receiver :=
  let conn := (h.conn.receive g).1
  let count := h.count + (conn.recvLen - h.conn.recvLen)
  { h with conn, count
           fin := h.fin || g.flags &&& 0x01 ≠ 0 ∧ g.seq + .ofNat 32 g.payload.length = isn + 1 + .ofNat 32 count }

/-- A call of `tcp_recv`. -/
def recv (h : Receiver) (len : ℕ) : Receiver :=
  if h.conn.recvLen = 0 then h else { h with conn := h.conn.take len, got := h.got ++ h.conn.taken len }

/-- A segment with the bytes of the stream from `off` on. -/
def Conforms (isn : BitVec 32) (stream : ℕ → UInt8) (g : Segment) (off : ℕ) : Prop :=
  g.seq = isn + 1 + .ofNat 32 off ∧ g.payload = (range g.payload.length).map fun k => stream (off + k)

/-- The end of the stream comes alone and at its place, and no segment is older than a turn of the sequence numbers. -/
def Orderly (h : Receiver) (g : Segment) (off : ℕ) : Prop :=
  (h.conn.state = .established → g.flags &&& 0x01 ≠ 0 → g.payload = [] ∧ off = h.count) ∧
    (off ≡ h.count [MOD 2 ^ 32] → off = h.count)

inductive Step (isn : BitVec 32) (stream : ℕ → UInt8) (h : Receiver) : Receiver → Prop where
  | segment {g off} (hg : Conforms isn stream g off) (horder : h.Orderly g off) : Step isn stream h (h.segment isn g)
  | recv (len) : Step isn stream h (h.recv len)

/-- What has been received is the beginning of the stream. -/
structure InOrder (isn : BitVec 32) (stream : ℕ → UInt8) (h : Receiver) : Prop where
  state : h.conn.state = if h.fin then .closed else .established
  bytes : h.got ++ RingBuffer.read h.conn.recvBuf h.conn.recvHead h.conn.recvLen = (range h.count).map stream
  rcvNxt : h.conn.rcvNxt = isn + 1 + .ofNat 32 h.count + if h.fin then 1 else 0

variable {isn : BitVec 32} {stream : ℕ → UInt8} {h : Receiver}

namespace InOrder

lemma segment {g : Segment} {off : ℕ} (ho : InOrder isn stream h) (hg : Conforms isn stream g off) (horder : h.Orderly g off) :
    InOrder isn stream (h.segment isn g) := by
  obtain ⟨hstate, hbytes, hnxt⟩ := ho
  obtain ⟨hseq, hpayload⟩ := hg
  unfold Receiver.segment
  cases hfin : h.fin with
  | true =>
    rw [hfin] at hstate hnxt
    have hconn : (h.conn.receive g).1 = h.conn := by simp [receive, hstate]
    simp only [hconn, Nat.sub_self]
    exact ⟨hstate, hbytes, hnxt⟩
  | false =>
    simp only [hfin, Bool.false_eq_true, if_false, add_zero] at hstate hnxt
    by_cases hend : g.flags &&& 0x01 = 0
    · by_cases hdata : g.seq = h.conn.rcvNxt ∧ g.payload ≠ []
      · have hconn : (h.conn.receive g).1 = h.conn.acceptData g := by simp [receive, hstate, hend, hdata]
        have hcount : (h.conn.acceptData g).recvLen - h.conn.recvLen = h.conn.room g := Nat.add_sub_cancel_left ..
        -- The segment starts at the byte that comes next.
        have hoff : off = h.count := by
          refine horder.2 ?_
          have heq := (hseq.symm.trans hdata.1).trans hnxt
          simpa [BitVec.toNat_eq, Nat.ModEq] using heq
        have htake : g.payload.take (h.conn.room g) = (range (h.conn.room g)).map fun k => stream (h.count + k) := by
          have hle : h.conn.room g ≤ g.payload.length := Nat.min_le_left ..
          rw [hpayload, hoff, ← map_take, take_range, Nat.min_eq_left hle]
        have hread := h.conn.read_acceptData g
        rw [htake] at hread
        simp only [hconn, hcount]
        refine ⟨by simp [hend, acceptData, hstate], ?_, ?_⟩
        · rw [range_add, map_append, map_map, ← hbytes, append_assoc]
          exact congrArg _ hread
        · simp [hend, acceptData, hnxt, BitVec.ofNat_add, add_assoc]
      · have hconn : (h.conn.receive g).1 = h.conn := by simp [receive, hstate, hend, hdata]
        simp only [hconn, Nat.sub_self]
        exact ⟨by simp [hend, hstate], hbytes, by simp [hend, hnxt]⟩
    · obtain ⟨hnil, rfl⟩ := horder.1 hstate hend
      have hconn : (h.conn.receive g).1 = { h.conn with state := .closed, rcvNxt := g.seq + 1 } := by
        simp [receive, hstate, hend, hnil]
      simp only [hconn, Nat.sub_self]
      exact ⟨by simp [hend, hnil, hseq], hbytes, by simp [hend, hnil, hseq]⟩

lemma recv (ho : InOrder isn stream h) (len : ℕ) : InOrder isn stream (h.recv len) := by
  unfold Receiver.recv
  split_ifs
  · exact ho
  · refine ⟨ho.state, ?_, ho.rcvNxt⟩
    have hsplit := RingBuffer.read_add h.conn.recvBuf h.conn.recvHead (min len h.conn.recvLen)
      (h.conn.recvLen - min len h.conn.recvLen)
    rw [Nat.add_sub_cancel' (Nat.min_le_right ..)] at hsplit
    rw [← ho.bytes, hsplit, ← append_assoc]
    exact congrArg _ (RingBuffer.read_mod ..)

end InOrder

end Receiver

/-! ### Strangers -/

namespace TcpConn

variable {c : TcpConn} {g : Segment}

/-- The segment does not concern a connection in this state. -/
def Inert (c : TcpConn) (g : Segment) : Prop :=
  match c.state with
  | .synSent => g.flags &&& 0x12 ≠ 0x12
  | .established => g.flags &&& 0x01 = 0 ∧ ¬(g.seq = c.rcvNxt ∧ g.payload ≠ [] ∧ c.recvLen < tcpBufSize)
  | .finWait => g.flags &&& 0x10 = 0
  | .closed => True

lemma acceptData_of_full (hfull : ¬c.recvLen < tcpBufSize) : c.acceptData g = c := by
  have hroom : c.room g = 0 := by
    rw [room]
    omega
  simp [acceptData, hroom, RingBuffer.write]

lemma receive_eq_self_iff : (c.receive g).1 = c ↔ c.Inert g := by
  have hstate {c' : TcpConn} (hne : c'.state ≠ c.state) : c' ≠ c := fun heq => hne (by rw [heq])
  unfold receive Inert
  cases hst : c.state with
  | synSent =>
    dsimp only
    split_ifs with hflags
    · exact iff_of_false (hstate (by simp [hst])) (not_not.mpr hflags)
    · exact iff_of_true rfl hflags
  | established =>
    dsimp only
    split_ifs with hfin hdata hdata
    · exact iff_of_false (hstate (by simp [hst])) fun h => hfin h.1
    · exact iff_of_false (hstate (by simp [hst])) fun h => hfin h.1
    · by_cases hroom : c.recvLen < tcpBufSize
      · refine iff_of_false (fun heq => ?_) fun h => h.2 ⟨hdata.1, hdata.2, hroom⟩
        have hlen := congrArg recvLen heq
        have hpos := length_pos_iff.mpr hdata.2
        simp only [acceptData, room] at hlen
        omega
      · exact iff_of_true (acceptData_of_full hroom) ⟨not_not.mp hfin, fun h => hroom h.2.2⟩
    · exact iff_of_true rfl ⟨not_not.mp hfin, fun h => hdata ⟨h.1, h.2.1⟩⟩
  | finWait =>
    dsimp only
    split_ifs with hflags
    · exact iff_of_false (hstate (by simp [hst])) hflags
    · exact iff_of_true rfl (not_not.mp hflags)
  | closed => exact iff_of_true rfl trivial

/-- The segment does not come from the peer, or does not answer the SYN. -/
def Foreign (c : TcpConn) (src : Ipv4) (g : Segment) : Prop :=
  src ≠ c.dstIp ∨ g.dport ≠ c.dstPort ∨ c.state = .synSent ∧ g.flags &&& 0x12 = 0x12 ∧ g.ack ≠ c.sndNxt + 1

end TcpConn

namespace Net

variable {reply : Ipv4 → Option Mac} {s s' : Net} {i : Fin maxConns} {c : TcpConn} {frame : List UInt8}
  {ipStart ihl totalLen : ℕ}

/-- No connection is new, and each one has its port. -/
def Shrinks (s s' : Net) : Prop := ∀ ⦃i c'⦄, s'.conns i = some c' → ∃ c, s.conns i = some c ∧ c.srcPort = c'.srcPort

lemma Shrinks.of_conns (h : s'.conns = s.conns) : s.Shrinks s' := fun _ c' hc' => ⟨c', h ▸ hc', rfl⟩

lemma Shrinks.trans {t : Net} (h : s.Shrinks s') (h' : s'.Shrinks t) : s.Shrinks t := by
  intro i c hc
  obtain ⟨c', hc', hport⟩ := h' hc
  obtain ⟨c0, hc0, hport0⟩ := h hc'
  exact ⟨c0, hc0, hport0.trans hport⟩

lemma Shrinks.setConn {o : Option TcpConn} (ho : ∀ c' ∈ o, ∃ c, s.conns i = some c ∧ c.srcPort = c'.srcPort) :
    s.Shrinks (s.setConn i o) := by
  intro j c' hc'
  have hupdate : update s.conns i o j = some c' := hc'
  by_cases hji : j = i
  · rw [hji, update_self] at hupdate
    exact hji ▸ ho c' hupdate
  · rw [update_of_ne hji] at hupdate
    exact ⟨c', hupdate, rfl⟩

lemma shrinks_handleTcp (h : s.handleTcp reply frame ipStart ihl totalLen = some s') : s.Shrinks s' := by
  unfold handleTcp at h
  split_ifs at h
  · cases h
    exact .of_conns rfl
  · obtain ⟨g, -, rfl⟩ := Option.map_eq_some_iff.mp h
    intro i c' hc'
    rw [conns_handle] at hc'
    obtain ⟨c, hc, rfl⟩ := Option.map_eq_some_iff.mp hc'
    exact ⟨c, hc, srcPort_handle.symm⟩

lemma conns_handleIcmp (h : s.handleIcmp frame ipStart = some s') : s'.conns = s.conns := by
  simp only [handleIcmp, Option.bind_eq_bind, Option.pure_def] at h
  split_ifs at h
  · cases h
    rfl
  · obtain ⟨_, -, h⟩ := Option.bind_eq_some_iff.mp h
    split_ifs at h
    · cases h
      rfl
    · simp only [Option.bind_eq_some_iff, Option.some.injEq] at h
      obtain ⟨_, -, _, -, _, -, rfl⟩ := h
      rfl

lemma conns_handleArp (h : s.handleArp frame = some s') : s'.conns = s.conns := by
  simp only [handleArp, Option.bind_eq_bind, Option.pure_def] at h
  split_ifs at h
  · cases h
    rfl
  · simp only [Option.bind_eq_some_iff, Option.some.injEq] at h
    obtain ⟨_, -, spa, -, sha, -, _, -, rfl⟩ := h
    split_ifs <;> exact conns_arpInsert spa sha

lemma shrinks_dispatch (h : s.dispatch reply frame = some s') : s.Shrinks s' := by
  have hsome (h : some s = some s') : s.Shrinks s' := by
    cases h
    exact .of_conns rfl
  simp only [dispatch, Option.bind_eq_bind, Option.pure_def] at h
  split_ifs at h
  · exact hsome h
  · obtain ⟨_, -, h⟩ := Option.bind_eq_some_iff.mp h
    split_ifs at h
    · exact .of_conns (conns_handleArp h)
    · simp only [handleIp, Option.bind_eq_bind, Option.pure_def] at h
      split_ifs at h
      · exact hsome h
      · simp only [Option.bind_eq_some_iff] at h
        obtain ⟨_, -, _, -, _, -, h⟩ := h
        split_ifs at h
        · exact .of_conns (conns_handleIcmp h)
        · exact shrinks_handleTcp h
        · exact hsome h
    · exact hsome h

lemma shrinks_poll {frames : List (List UInt8)} (h : s.poll reply frames = some s') : s.Shrinks s' := by
  induction frames generalizing s with
  | nil =>
    cases h
    exact .of_conns rfl
  | cons frame frames ih =>
    obtain ⟨t, ht, h⟩ := Option.bind_eq_some_iff.mp h
    exact (shrinks_dispatch ht).trans (ih h)

lemma shrinks_awaitSynAck {polls : List (List (List UInt8))} {r : Except Errno (Fin maxConns)}
    (h : awaitSynAck reply i polls s = some (r, s')) : s.Shrinks s' := by
  induction polls generalizing s with
  | nil =>
    cases h
    exact .setConn (by simp)
  | cons frames rest ih =>
    obtain ⟨t, ht, h⟩ := Option.bind_eq_some_iff.mp h
    split_ifs at h
    · cases h
      exact shrinks_poll ht
    · exact (shrinks_poll ht).trans (ih h)

/-- The local ports of the connections are different. -/
def Distinct (s : Net) : Prop :=
  ∀ ⦃i j c c'⦄, s.conns i = some c → s.conns j = some c' → c.srcPort = c'.srcPort → i = j

lemma Distinct.of_shrinks (hd : s.Distinct) (h : s.Shrinks s') : s'.Distinct := by
  intro i j c c' hc hc' hport
  obtain ⟨a, ha, hac⟩ := h hc
  obtain ⟨b, hb, hbc⟩ := h hc'
  exact hd ha hb (hac.trans (hport.trans hbc.symm))

/-- `next_port` gives a port that no connection has. -/
def Fresh (s : Net) : Prop := ∀ ⦃i c⦄, s.conns i = some c → c.srcPort ≠ s.nextPort

lemma Distinct.tcpConnect (hd : s.Distinct) (hfresh : s.Fresh) {polls : List (List (List UInt8))} {ip : Ipv4}
    {port : BitVec 16} {r : Except Errno (Fin maxConns)} (h : s.tcpConnect reply polls ip port = some (r, s')) :
    s'.Distinct := by
  unfold Net.tcpConnect at h
  split at h
  · cases h
    exact hd
  · rename_i cid hcid
    refine Distinct.of_shrinks ?_ (shrinks_awaitSynAck h)
    have hconn {j c'} (hc' : update s.conns cid (some (.syn s.nextPort ip port)) j = some c') :
        (j = cid ∧ c'.srcPort = s.nextPort) ∨ s.conns j = some c' := by
      by_cases hj : j = cid
      · rw [hj, update_self] at hc'
        cases hc'
        exact .inl ⟨hj, rfl⟩
      · rw [update_of_ne hj] at hc'
        exact .inr hc'
    intro i j c c' hc hc' hport
    rw [conns_sendTcpSeg] at hc hc'
    rcases hconn hc with ⟨hi, hp⟩ | hc <;> rcases hconn hc' with ⟨hj, hp'⟩ | hc'
    · exact hi.trans hj.symm
    · exact absurd (hport.symm.trans hp) (hfresh hc')
    · exact absurd (hport.trans hp') (hfresh hc)
    · exact hd hc hc' hport

/-- Frames come in, and processes use connections; `tcp_connect` is called in a state with `P`. -/
inductive Step (P : Net → Prop) (s : Net) : Net → Prop where
  | frame {arp bytes t} (h : s.dispatch arp bytes = some t) : Step P s t
  | connect {arp polls ip port r t} (hP : P s) (h : s.tcpConnect arp polls ip port = some (r, t)) : Step P s t
  | send (arp cid data) : Step P s (s.tcpSend arp cid data).2
  | recv (cid len) : Step P s (s.tcpRecv cid len).2
  | close (arp cid) : Step P s (s.tcpClose arp cid)

lemma Distinct.step (hd : s.Distinct) (h : Step Fresh s s') : s'.Distinct := by
  cases h with
  | frame h => exact hd.of_shrinks (shrinks_dispatch h)
  | connect hfresh h => exact hd.tcpConnect hfresh h
  | send reply cid data =>
    refine hd.of_shrinks ?_
    unfold tcpSend
    split
    · exact .of_conns rfl
    · rename_i c hc
      split_ifs
      · exact .of_conns rfl
      · refine (Shrinks.of_conns (conns_sendTcpSeg ..)).trans (.setConn ?_)
        rintro _ ⟨⟩
        exact ⟨c, by rwa [conns_sendTcpSeg], rfl⟩
  | recv cid len =>
    refine hd.of_shrinks ?_
    unfold tcpRecv
    split
    · exact .of_conns rfl
    · rename_i c hc
      split_ifs
      · exact .of_conns rfl
      · refine .setConn ?_
        rintro _ ⟨⟩
        exact ⟨c, hc, rfl⟩
  | close reply cid =>
    have hclose (t : Net) (ht : t.conns = s.conns) : s.Shrinks (t.setConn cid none) :=
      (Shrinks.of_conns ht).trans (.setConn (by simp))
    refine hd.of_shrinks ?_
    unfold tcpClose
    split
    · split_ifs
      · exact hclose _ (conns_sendTcpSeg ..)
      · exact hclose s rfl
    · exact hclose s rfl

/-- The frame holds the segment `g` from the address `src`. -/
def Carries (frame : List UInt8) (ipStart ihl totalLen : ℕ) (src : Ipv4) (g : Segment) : Prop :=
  ipStart + ihl + tcpHlen ≤ frame.length ∧ readSegment frame ipStart ihl totalLen = some g ∧
    bytesAt 4 frame (ipStart + 12) = some src

lemma conns_handleTcp_iff {src : Ipv4} {g : Segment} (hframe : Carries frame ipStart ihl totalLen src g)
    (hc : s.conns i = some c) : (s.handleTcp reply frame ipStart ihl totalLen).map (·.conns i) = some (some c) ↔
      c.srcPort ≠ g.dport ∨ c.Inert g := by
  rw [handleTcp_of_readSegment hframe.1 hframe.2.1, Option.map_some, Option.some.injEq, conns_handle, hc,
    Option.map_some, Option.some.injEq, handle]
  split_ifs with hport
  · rw [receive_eq_self_iff, or_iff_right (not_not.mpr hport)]
  · exact iff_of_true rfl (.inl hport)

/-- A segment with the port 40000 from the address 0.0.0.0. -/
def forged (flags : UInt8) : List UInt8 := replicate 34 0 ++ be16 40000 ++ replicate 11 0 ++ [flags] ++ replicate 6 0

lemma carries_forged (flags : UInt8) : Carries (forged flags) 14 20 20 (fun _ => 0) ⟨40000, 0, 0, flags, []⟩ := by
  refine ⟨by simp [forged, be16, tcpHlen], rfl, congrArg some (funext fun k => ?_)⟩
  fin_cases k <;> rfl

end Net

end OnyxKernel
