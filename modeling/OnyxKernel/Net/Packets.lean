import OnyxKernel.Net.Stack

/-!
# Packets that are sent and frames that are received

The checksums of the packets that the stack sends are right.  Every received frame is handled without a panic,
except for pings: `handle_icmp` makes room for 20 bytes too many in its answer, and the copy of the rest of the
request panics.
-/

namespace OnyxKernel

open List Nat Option

@[simp] lemma length_be16 (w : BitVec 16) : (be16 w).length = 2 := rfl

@[simp] lemma length_be32 (w : BitVec 32) : (be32 w).length = 4 := rfl

lemma word16_be16 (l l' : List UInt8) (w : BitVec 16) : word16 (l ++ (be16 w ++ l')) l.length = some w := by
  have hw : BitVec.ofNat 16 (w.toNat / 256 % 256 * 256 + w.toNat % 256) = w := by
    apply BitVec.eq_of_toNat_eq
    rw [BitVec.toNat_ofNat]
    omega
  simpa [word16, be16] using hw

/-! ### Sums of words -/

lemma foldSum_spec (sum : ℕ) : foldSum sum < 2 ^ 16 ∧ foldSum sum % 65535 = sum % 65535 ∧
    (0 < sum → 0 < foldSum sum) := by
  fun_induction foldSum sum with
  | case1 sum hlt => exact ⟨hlt, rfl, id⟩
  | case2 sum hge ih =>
    obtain ⟨hlt, hmod, hpos⟩ := ih
    refine ⟨hlt, ?_, fun _ => hpos ?_⟩ <;> omega

lemma wordSum_append {l l' : List UInt8} (heven : l.length % 2 = 0) :
    wordSum (l ++ l') = wordSum l + wordSum l' := by
  fun_induction wordSum l with
  | case1 => simp
  | case2 a => cases heven
  | case3 a b l ih =>
    have hrest : l.length % 2 = 0 := by
      rw [length_cons, length_cons] at heven
      omega
    rw [cons_append, cons_append, wordSum, ih hrest, ← add_assoc]

lemma wordSum_be16 (w : BitVec 16) : wordSum (be16 w) = w.toNat := by
  simp only [be16, wordSum, UInt8.toNat_ofNat']
  omega

lemma wordSum_le (l : List UInt8) : wordSum l ≤ (l.length + 1) / 2 * 65535 := by
  fun_induction wordSum l with
  | case1 => simp
  | case2 a =>
    have := a.toNat_lt
    simp only [length_singleton]
    omega
  | case3 a b l ih =>
    have := a.toNat_lt
    have := b.toNat_lt
    simp only [length_cons]
    omega

lemma wordSum_field {l l' : List UInt8} (heven : l.length % 2 = 0) (ck : BitVec 16) :
    wordSum (l ++ be16 ck ++ l') = wordSum (l ++ be16 0 ++ l') + ck.toNat := by
  have hfield : ∀ w, wordSum (l ++ be16 w ++ l') = wordSum l + w.toNat + wordSum l' := by
    intro w
    rw [wordSum_append (by rw [length_append, length_be16]; omega), wordSum_append heven, wordSum_be16]
  rw [hfield, hfield, add_right_comm]
  rfl

lemma foldSum_complement {sum : ℕ} (hpos : 0 < sum) :
    foldSum (sum + (~~~BitVec.ofNat 16 (foldSum sum)).toNat) = 65535 := by
  obtain ⟨hlt, hmod, -⟩ := foldSum_spec sum
  rw [BitVec.toNat_not, BitVec.toNat_ofNat, mod_eq_of_lt hlt]
  obtain ⟨hlt', hmod', hpos'⟩ := foldSum_spec (sum + (2 ^ 16 - 1 - foldSum sum))
  omega

namespace Net

lemma wordSum_ipHeader (len : ℕ) (id : BitVec 16) (protocol : UInt8) (src dst : Ipv4) (ck : BitVec 16) :
    wordSum (ipHeader len id protocol src dst ck) =
      wordSum (ipHeader len id protocol src dst 0) + ck.toNat := by
  unfold ipHeader
  rw [append_assoc _ (ofFn src), append_assoc _ (ofFn src)]
  exact wordSum_field (by simp) ck

lemma length_ipHeader (len : ℕ) (id : BitVec 16) (protocol : UInt8) (src dst : Ipv4) (ck : BitVec 16) :
    (ipHeader len id protocol src dst ck).length = 20 := rfl

lemma checksum_ipHeaderSum (len : ℕ) (id : BitVec 16) (protocol : UInt8) (src dst : Ipv4) :
    checksum (ipHeaderSum len id protocol src dst) = 0 := by
  obtain ⟨header, hheader⟩ : ∃ header, header = ipHeader len id protocol src dst 0 := ⟨_, rfl⟩
  have hlt : ∀ ck, wordSum (ipHeader len id protocol src dst ck) < 2 ^ 32 := fun ck =>
    (wordSum_le _).trans_lt (by rw [length_ipHeader]; decide)
  have hpos : 0 < wordSum header := by
    rw [hheader]
    exact Nat.add_pos_left (by decide) _
  have hsum := foldSum_complement hpos
  rw [ipHeaderSum, checksum, mod_eq_of_lt (hlt _), wordSum_ipHeader, checksum, mod_eq_of_lt (hlt 0),
    ← hheader, hsum]
  rfl

end Net

/-- The header that a TCP segment is summed with. -/
def pseudoHeader (src dst : Ipv4) (len : ℕ) : List UInt8 := ofFn src ++ ofFn dst ++ [0, 6] ++ be16 (.ofNat 16 len)

namespace TcpConn

variable (c : TcpConn) (ip : Ipv4) (flags : UInt8) (data : List UInt8)

lemma length_segment (ck : BitVec 16) : (c.segment flags data ck).length = 20 + data.length := by
  simp only [segment, length_append, length_be16, length_be32, length_cons, length_nil]

lemma wordSum_segment (ck : BitVec 16) :
    wordSum (c.segment flags data ck) = wordSum (c.segment flags data 0) + ck.toNat := by
  unfold segment
  rw [append_assoc _ [0, 0], append_assoc _ [0, 0]]
  exact wordSum_field (by simp) ck

/-- The segment that is sent sums up to `0xFFFF` together with the pseudo-header. -/
theorem foldSum_tcpSeg (hlen : data.length ≤ 65495) :
    foldSum (wordSum (pseudoHeader ip c.dstIp (20 + data.length)) + wordSum (c.tcpSeg ip flags data)) = 65535 := by
  obtain ⟨sum, hsum⟩ : ∃ sum, sum = wordSum (ofFn ip) + wordSum (ofFn c.dstIp) + 6 +
    (c.segment flags data 0).length + wordSum (c.segment flags data 0) := ⟨_, rfl⟩
  have hpseudo : wordSum (pseudoHeader ip c.dstIp (20 + data.length)) =
      wordSum (ofFn ip) + wordSum (ofFn c.dstIp) + 6 + (20 + data.length) := by
    rw [pseudoHeader, wordSum_append (by simp), wordSum_append (by simp), wordSum_append (by simp), wordSum_be16,
      BitVec.toNat_ofNat, mod_eq_of_lt (by omega)]
    rfl
  have hlt : sum < 2 ^ 32 := by
    have hip := wordSum_le (ofFn ip)
    have hdst := wordSum_le (ofFn c.dstIp)
    have hseg := wordSum_le (c.segment flags data 0)
    rw [length_segment] at hseg hsum
    rw [length_ofFn] at hip hdst
    omega
  have hfold := foldSum_complement (show 0 < sum by omega)
  rw [tcpSeg, wordSum_segment, tcpChecksum, ← hsum, mod_eq_of_lt hlt, hpseudo]
  rw [length_segment] at hsum
  rwa [← add_assoc, ← hsum]

end TcpConn

namespace Net

variable {reply : Ipv4 → Option Mac} {s : Net} {frame : List UInt8}

lemma mem_sendFrame {dst : Mac} {ethertype : BitVec 16} {payload : List UInt8} :
    frame ∈ (s.sendFrame dst ethertype payload).sent ↔
      frame ∈ s.sent ∨ frame = ofFn dst ++ ofFn s.mac ++ be16 ethertype ++ payload := by
  rw [sendFrame, mem_append, mem_singleton]

lemma sent_arpInsert (ip : Ipv4) (mac : Mac) : (s.arpInsert ip mac).sent = s.sent := by
  unfold arpInsert
  split_ifs <;> rfl

lemma mem_sendPacket {dst : Ipv4} {protocol : UInt8} {payload : List UInt8}
    (hmem : frame ∈ (s.sendPacket reply dst protocol payload).sent) :
    frame ∈ s.sent ∨ word16 frame 12 = some 0x0806 ∨
      ∃ id src, (frame.drop 14).take 20 = ipHeaderSum payload.length id protocol src dst := by
  have hpacket : ∀ (mac src : Mac) (id : BitVec 16) (ip : Ipv4), frame = ofFn mac ++ ofFn src ++ be16 0x0800 ++
      (ipHeaderSum payload.length id protocol ip dst ++ payload) →
      ∃ id src, (frame.drop 14).take 20 = ipHeaderSum payload.length id protocol src dst := by
    rintro mac src id ip rfl
    exact ⟨id, ip, by rw [drop_left' (by simp), ipHeaderSum, take_left' (length_ipHeader ..)]⟩
  have hrequest : ∀ {frame}, frame ∈ (s.sendFrame (fun _ => 0xFF) 0x0806 (s.arpPacket 1 (fun _ => 0) dst)).sent →
      frame ∈ s.sent ∨ word16 frame 12 = some 0x0806 := by
    intro frame hmem
    refine (mem_sendFrame.mp hmem).imp_right fun heq => ?_
    rw [heq, append_assoc]
    exact word16_be16 _ _ _
  unfold sendPacket at hmem
  split at hmem
  · exact (mem_sendFrame.mp hmem).imp_right fun heq => .inr (hpacket _ _ _ _ heq)
  · split at hmem
    · dsimp only at hmem
      split at hmem
      · rcases mem_sendFrame.mp hmem with hold | heq
        · rw [sent_arpInsert] at hold
          exact (hrequest hold).imp_right .inl
        · exact .inr (.inr (hpacket _ _ _ _ heq))
      · rw [sent_arpInsert] at hmem
        exact (hrequest hmem).imp_right .inl
    · exact (hrequest hmem).imp_right .inl

/-- The checksums of what is sent verify: that of every IPv4 header, and that of every TCP segment with its
pseudo-header. -/
theorem checksums_verify (reply : Ipv4 → Option Mac) (s : Net) :
    (∀ dst protocol payload, payload.length ≤ 65515 →
      ∀ frame ∈ (s.sendPacket reply dst protocol payload).sent, frame ∈ s.sent ∨ word16 frame 12 = some 0x0806 ∨
        checksum ((frame.drop 14).take 20) = 0) ∧
    ∀ (c : TcpConn) flags data, data.length ≤ 65495 →
      foldSum (wordSum (pseudoHeader s.ip c.dstIp (20 + data.length) ++ c.tcpSeg s.ip flags data)) = 65535 := by
  constructor
  · intro dst protocol payload _ frame hmem
    refine (mem_sendPacket hmem).imp_right (Or.imp_right ?_)
    rintro ⟨id, src, heq⟩
    rw [heq, checksum_ipHeaderSum]
  · intro c flags data hlen
    rw [wordSum_append (by simp [pseudoHeader])]
    exact c.foldSum_tcpSeg s.ip flags data hlen

/-- A stack without connections. -/
def idle : Net := ⟨fun _ => 10, fun _ => 2, [], 0, fun _ => none, 40000, []⟩

theorem checksums_verify_idle :
    (∀ frame ∈ (idle.sendPacket (fun _ => some fun _ => 4) (fun _ => 1) 1 [8, 0]).sent,
      frame ∈ idle.sent ∨ word16 frame 12 = some 0x0806 ∨ checksum ((frame.drop 14).take 20) = 0) ∧
    foldSum (wordSum (pseudoHeader idle.ip (fun _ => 1) 21 ++ (TcpConn.syn 40000 (fun _ => 1) 80).tcpSeg idle.ip 0x18
      [7])) = 65535 :=
  ⟨(checksums_verify _ idle).1 _ _ _ (by decide), (checksums_verify default idle).2 (.syn ..) _ [7] (by decide)⟩

/-! ### Frames that come in -/

/-- An echo request with an IPv4 header of 20 bytes, addressed to this host.  `rest` is its identifier, its sequence
number and its payload. -/
structure Echo (s : Net) (frame : List UInt8) (srcMac : Mac) (src : Ipv4) (rest : List UInt8) : Prop where
  mac : bytesAt 6 frame 6 = some srcMac
  ethertype : word16 frame 12 = some 0x0800
  header : frame[14]? = some 0x45
  protocol : frame[23]? = some 1
  src_eq : bytesAt 4 frame 26 = some src
  dst_eq : bytesAt 4 frame 30 = some s.ip
  icmp : frame[34]? = some 8
  length : ∃ total, word16 frame 16 = some total ∧ 28 ≤ total.toNat ∧ 14 + total.toNat ≤ frame.length ∧
    rest = (frame.take (14 + total.toNat)).drop 38

/-- One frame is sent, and it is the answer. -/
def Answers (s s' : Net) (srcMac : Mac) (src : Ipv4) (rest : List UInt8) : Prop :=
  ∃ header ck, s'.sent = s.sent ++ [ofFn srcMac ++ ofFn s.mac ++ be16 0x0800 ++ header ++ ([0, 0] ++ be16 ck ++ rest)] ∧
    header.length = 20 ∧ checksum header = 0 ∧ bytesAt 4 header 12 = some s.ip ∧ bytesAt 4 header 16 = some src ∧
    checksum ([0, 0] ++ be16 ck ++ rest) = 0

/-- A frame is handled without a panic, and an echo request is answered. -/
def Handles (reply : Ipv4 → Option Mac) (s : Net) (frame : List UInt8) : Prop :=
  ∃ s', s.dispatch reply frame = some s' ∧
    ∀ srcMac src rest, Echo s frame srcMac src rest → Answers s s' srcMac src rest

/-- What `handle_icmp` takes for an echo request. -/
def LooksLikeEcho (frame : List UInt8) : Prop :=
  42 ≤ frame.length ∧ word16 frame 12 = some 0x0800 ∧ frame[23]? = some 1 ∧ frame[34]? = some 8

lemma exists_word16 {i : ℕ} (h : i + 1 < frame.length) : ∃ w, word16 frame i = some w := by
  simp [word16, h, lt_of_succ_lt h]

lemma exists_word32 {i : ℕ} (h : i + 3 < frame.length) : ∃ w, word32 frame i = some w := by
  obtain ⟨hi, hhi⟩ := exists_word16 (by omega : i + 1 < frame.length)
  obtain ⟨lo, hlo⟩ := exists_word16 (by omega : i + 2 + 1 < frame.length)
  simp [word32, hhi, hlo]

lemma exists_bytesAt {n i : ℕ} (h : i + n ≤ frame.length) : ∃ v, bytesAt n frame i = some v := ⟨_, if_pos h⟩

lemma exists_readSegment {ipStart ihl : ℕ} (totalLen : ℕ) (hlen : ipStart + ihl + 20 ≤ frame.length) :
    ∃ g, readSegment frame ipStart ihl totalLen = some g := by
  obtain ⟨dport, h1⟩ := exists_word16 (by omega : ipStart + ihl + 1 < frame.length)
  obtain ⟨sport, h2⟩ := exists_word16 (by omega : ipStart + ihl + 2 + 1 < frame.length)
  obtain ⟨seq, h3⟩ := exists_word32 (by omega : ipStart + ihl + 4 + 3 < frame.length)
  obtain ⟨ack, h4⟩ := exists_word32 (by omega : ipStart + ihl + 8 + 3 < frame.length)
  have h5 : ipStart + ihl + 13 < frame.length := by omega
  have h6 : ipStart + ihl + 12 < frame.length := by omega
  simp [readSegment, h1, h2, h3, h4, h5, h6]

lemma exists_handleTcp (frame : List UInt8) (ipStart ihl totalLen : ℕ) :
    ∃ s', s.handleTcp reply frame ipStart ihl totalLen = some s' := by
  unfold handleTcp
  split_ifs with hlen
  · exact ⟨s, rfl⟩
  · obtain ⟨g, hg⟩ := exists_readSegment totalLen (not_lt.mp hlen)
    exact ⟨_, congrArg _ hg⟩

lemma exists_handleArp (frame : List UInt8) : ∃ s', s.handleArp frame = some s' := by
  unfold handleArp
  split_ifs with hlen
  · exact ⟨s, rfl⟩
  · obtain ⟨oper, h1⟩ := exists_word16 (by omega : 20 + 1 < frame.length)
    obtain ⟨spa, h2⟩ := exists_bytesAt (by omega : 28 + 4 ≤ frame.length)
    obtain ⟨sha, h3⟩ := exists_bytesAt (by omega : 22 + 6 ≤ frame.length)
    obtain ⟨tpa, h4⟩ := exists_bytesAt (by omega : 38 + 4 ≤ frame.length)
    simp [h1, h2, h3, h4]

lemma handleIcmp_eq_none_iff : s.handleIcmp frame 14 = none ↔ 42 ≤ frame.length ∧ frame[34]? = some 8 := by
  unfold handleIcmp
  by_cases hlen : frame.length < 14 + 20 + 8
  · simp [hlen]
  · have hcopy : copyFromSlice (frame.length - 14 - 4) (frame.drop (14 + 20 + 4)) = none :=
      if_neg (by rw [length_drop]; omega)
    simp [hlen, hcopy, getElem?_eq_getElem (by omega : 34 < frame.length)]
    omega

lemma handleIp_eq_none_iff : s.handleIp reply frame = none ↔
    42 ≤ frame.length ∧ frame[23]? = some 1 ∧ frame[34]? = some 8 := by
  unfold handleIp
  by_cases hlen : frame.length < 34
  · simp [hlen]
    omega
  · obtain ⟨total, h16⟩ := exists_word16 (by omega : 16 + 1 < frame.length)
    obtain ⟨s', hs'⟩ : ∃ s', s.handleTcp reply frame 14 (frame[14].toNat % 16 * 4) total.toNat = some s' :=
      exists_handleTcp ..
    simp only [if_neg hlen, getElem?_eq_getElem (by omega : 14 < frame.length), h16,
      getElem?_eq_getElem (by omega : 23 < frame.length), bind_eq_bind, bind_some, some.injEq]
    split_ifs with hicmp htcp
    · rw [handleIcmp_eq_none_iff]
      simp [hicmp]
    · simp [hs', hicmp]
    · simp [hicmp]

lemma dispatch_eq_none_iff (reply : Ipv4 → Option Mac) (s : Net) : s.dispatch reply frame = none ↔ LooksLikeEcho frame := by
  unfold dispatch LooksLikeEcho
  by_cases hlen : frame.length < 14
  · simp [hlen]
    omega
  · obtain ⟨ethertype, h12⟩ := exists_word16 (by omega : 12 + 1 < frame.length)
    obtain ⟨s', hs'⟩ : ∃ s', s.handleArp frame = some s' := exists_handleArp frame
    simp only [if_neg hlen, h12, bind_eq_bind, bind_some, some.injEq]
    split_ifs with harp hip
    · simp [hs', harp]
    · rw [handleIp_eq_none_iff]
      simp [hip]
    · exact iff_of_false nofun fun h => hip h.2.1

/-- A ping. -/
def ping : List UInt8 :=
  ofFn idle.mac ++ [6, 6, 6, 6, 6, 6, 8, 0, 0x45, 0, 0, 28, 0, 0, 0, 0, 64, 1, 0, 0, 1, 1, 1, 1] ++ ofFn idle.ip ++
    [8, 0, 0xF7, 0xFF, 0, 0, 0, 0]

end Net

end OnyxKernel
