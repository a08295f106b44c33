import OnyxKernel.Fs.Format
import OnyxKernel.Ipc.Stream

/-!
# Channels and processes that have no part in them

`sys_chan_send`, `sys_chan_recv` and `sys_chan_close` of `kernel/src/syscall/ipc_sys.rs`.  The first two
go through `pid_allowed`, so a process that is neither the owner nor a client of a channel has no effect
on it.  `close` makes no such test: a channel in use stays as it is exactly when nobody names it there.
-/

namespace OnyxKernel

open List Channel Ipc

namespace Ipc

variable (s : Ipc) (h : Hart) (k : Kernel)

/-! ### System calls -/

/-- `sys_chan_send`, for a caller whose memory is `mem`. -/
def sysChanSend (tf : TrapFrame) (mem : ByteMemory.Memory) (chanId buf len : ℕ) :
    Flow (Except Errno ℕ) × Ipc :=
  if userPtrOk buf len then
    s.send h k (chanId % u32Size)
      ((range (len % u32Size)).map fun i => mem (buf + i)) (some tf)
  else (.ret (.error .inval) k, s)

/-- `sys_chan_recv`; the bytes it returns are stored at `buf`. -/
def sysChanRecv (tf : TrapFrame) (chanId buf len : ℕ) : Flow (Except Errno (List UInt8)) × Ipc :=
  if userPtrOk buf len then s.recv h k (chanId % u32Size) (len % u32Size) (some tf)
  else (.ret (.error .inval) k, s)

def sysChanClose (chanId : ℕ) : Except Errno Unit × Ipc := s.close (chanId % u32Size)

end Ipc

/-! ### Calls of one process -/

/-- What a system call finds: the hart it runs on, the processes, the trap frame and the memory of its
caller. -/
structure ChanCaller where
  hart : Hart
  kernel : Kernel
  tf : TrapFrame
  mem : ByteMemory.Memory

/-- The process that makes the call. -/
def ChanCaller.pid (e : ChanCaller) : ℕ := e.kernel.currentPid e.hart

/-- The calls `chan_send`, `chan_recv` and `chan_close`, with the values of their argument registers. -/
inductive ChanCall
  | send (chanId buf len : ℕ)
  | recv (chanId buf len : ℕ)
  | close (chanId : ℕ)

namespace ChanCall

/-- The channels after a call. -/
def step (e : ChanCaller) (s : Ipc) : ChanCall → Ipc
  | send chanId buf len => (s.sysChanSend e.hart e.kernel e.tf e.mem chanId buf len).2
  | recv chanId buf len => (s.sysChanRecv e.hart e.kernel e.tf chanId buf len).2
  | close chanId => (s.sysChanClose chanId).2

/-- The channels after a sequence of calls. -/
def run (calls : List (ChanCaller × ChanCall)) (s : Ipc) : Ipc :=
  calls.foldl (fun s call => call.2.step call.1 s) s

/-- The call is `chan_close` of the channel `c`. -/
def Closes (c : Fin chanMax) : ChanCall → Prop
  | close chanId => chanId % u32Size = c
  | _ => False

end ChanCall

namespace Channel

/-- What a stranger must not change: everything but the wait lists. -/
structure Intact (ch ch' : Channel) : Prop extends ch.Same ch' where
  owner_eq : ch'.ownerPid = ch.ownerPid
  clients_eq : ch'.clients = ch.clients
  name_eq : ch'.name = ch.name

variable {ch ch' : Channel} {pid : ℕ}

@[refl] lemma Intact.refl (ch : Channel) : ch.Intact ch := ⟨.refl _, rfl, rfl, rfl⟩

/-- The process has no access to the channel: the channel is not in use, or the process is neither its
owner nor a client. -/
def Refuses (ch : Channel) (pid : ℕ) : Prop := ch.used = false ∨ ch.pidAllowed pid = false

/-- The error that a stranger gets. -/
def strangerError (ch : Channel) : Errno := if !ch.used || ch.closed then .pipe else .perm

lemma eq_strangerError {α : Type} (hpid : ch.Refuses pid) (x : Except Errno α) :
    (if !ch.used || ch.closed then .error .pipe else if !ch.pidAllowed pid then .error .perm else x) =
      .error ch.strangerError := by
  unfold strangerError
  by_cases hopen : (!ch.used || ch.closed) = true
  · rw [if_pos hopen, if_pos hopen]
  · rcases hpid with hused | hpid
    · exact absurd (by rw [hused]; rfl) hopen
    · rw [if_neg hopen, if_neg hopen, if_pos (by rw [hpid]; rfl)]

lemma trySend_of_refuses (hpid : ch.Refuses pid) (bytes : List UInt8) :
    ch.trySend pid bytes = .error ch.strangerError := eq_strangerError hpid _

lemma tryRecv_of_refuses (hpid : ch.Refuses pid) (len : ℕ) :
    ch.tryRecv pid len = .error ch.strangerError := eq_strangerError hpid _

lemma sends_of_refuses (hpid : ch.Refuses pid) (bytes : List UInt8) :
    ch.sends pid bytes = .error ch.strangerError := by
  unfold sends
  rw [trySend_of_refuses hpid, strangerError]
  split_ifs <;> rfl

end Channel

namespace Ipc

variable {s : Ipc} {h : Hart} {k : Kernel} {c : Fin chanMax}

lemma transfer_of_error {α : Type} {id : ℕ} {tf : Option TrapFrame} {side other : Side} {idle : Except Errno α}
    {tried : Channel → Except Errno (Option (α × Channel))} {e : Errno} (herror : tried (s.channels c) = .error e) :
    (s.transfer h k id tf side other idle tried).2.channels c = s.channels c := by
  generalize hx : s.transfer h k id tf side other idle tried = x
  have hne : ∀ {i : Fin chanMax} {res}, tried (s.channels i) = .ok res → c ≠ i := by
    rintro i res hres rfl
    cases hres.symm.trans herror
  refine transfer_cases hx ?_ ?_ ?_ ?_
  · exact fun _ _ _ => rfl
  · exact fun _ _ _ _ htry => channels_set_of_ne (hne htry)
  · exact fun _ _ _ _ htry => channels_set_of_ne (hne htry)
  · exact fun _ _ _ _ htry => channels_set_of_ne (hne htry)

lemma close_self (s : Ipc) (c : Fin chanMax) : ((s.close c).2.channels c).used = false := by
  unfold close
  rw [dif_pos c.isLt]
  dsimp only
  split_ifs with hused
  · simpa using hused
  · exact congrArg used (channels_set_self ..)

lemma close_of_not_used (hused : (s.channels c).used = false) (id : ℕ) :
    (s.close id).2.channels c = s.channels c := by
  by_cases hc : (c : ℕ) = id
  · subst hc
    unfold close
    rw [dif_pos c.isLt]
    rw [if_pos (by rw [hused]; rfl)]
  · exact close_of_ne hc

end Ipc

namespace ChanCall

variable {s : Ipc} {c : Fin chanMax} {e : ChanCaller} {pid : ℕ}

lemma step_of_refuses (hpid : (s.channels c).Refuses e.pid) {call : ChanCall}
    (hclose : (s.channels c).used = false ∨ ¬call.Closes c) : (call.step e s).channels c = s.channels c := by
  cases call with
  | send chanId buf len =>
    unfold step sysChanSend
    dsimp only
    split_ifs
    · exact s.send_eq .. ▸ transfer_of_error (sends_of_refuses hpid _)
    · rfl
  | recv chanId buf len =>
    unfold step sysChanRecv
    dsimp only
    split_ifs
    · exact s.recv_eq .. ▸ transfer_of_error (tryRecv_of_refuses hpid _)
    · rfl
  | close chanId =>
    rcases hclose with hused | hne
    · exact close_of_not_used hused _
    · exact close_of_ne fun heq => hne heq.symm

lemma step_closes {call : ChanCall} (hclose : call.Closes c) : ((call.step e s).channels c).used = false := by
  cases call with
  | send chanId buf len => exact hclose.elim
  | recv chanId buf len => exact hclose.elim
  | close chanId =>
    change ((s.close (chanId % u32Size)).2.channels c).used = false
    rw [show chanId % u32Size = c from hclose]
    exact s.close_self c

lemma run_cons (call : ChanCaller × ChanCall) (calls : List (ChanCaller × ChanCall)) (s : Ipc) :
    run (call :: calls) s = run calls (call.2.step call.1 s) := rfl

lemma run_of_not_used (calls : List (ChanCaller × ChanCall)) (hused : (s.channels c).used = false) :
    (run calls s).channels c = s.channels c := by
  induction calls generalizing s with
  | nil => rfl
  | cons call calls ih =>
    have hfirst : (call.2.step call.1 s).channels c = s.channels c := step_of_refuses (.inl hused) (.inl hused)
    rw [run_cons, ih (by rw [hfirst]; exact hused), hfirst]

/-- A channel in use stays as it is under the calls of a stranger up to the first one that closes it, and
is out of use from there on. -/
theorem run_of_stranger {calls : List (ChanCaller × ChanCall)} (hcaller : ∀ call ∈ calls, call.1.pid = pid)
    (hpid : (s.channels c).pidAllowed pid = false) :
    (∀ call ∈ calls, ¬call.2.Closes c) ∧ (run calls s).channels c = s.channels c ∨
      (∃ call ∈ calls, call.2.Closes c) ∧ ((run calls s).channels c).used = false := by
  induction calls generalizing s with
  | nil => exact .inl ⟨fun _ h => absurd h not_mem_nil, rfl⟩
  | cons call calls ih =>
    rw [run_cons]
    by_cases hclose : call.2.Closes c
    · have hused : ((call.2.step call.1 s).channels c).used = false := step_closes hclose
      refine .inr ⟨⟨call, mem_cons_self, hclose⟩, ?_⟩
      rwa [run_of_not_used calls hused]
    · have hrefuses : (s.channels c).Refuses call.1.pid :=
        .inr (by rw [hcaller call mem_cons_self]; exact hpid)
      have hfirst : (call.2.step call.1 s).channels c = s.channels c := step_of_refuses hrefuses (.inr hclose)
      rcases ih (fun x hx => hcaller x (mem_cons_of_mem _ hx)) (by rw [hfirst]; exact hpid) with
        ⟨hnone, hrun⟩ | ⟨⟨x, hx, hxc⟩, hrun⟩
      · exact .inl ⟨forall_mem_cons.mpr ⟨hclose, hnone⟩, hrun.trans hfirst⟩
      · exact .inr ⟨⟨x, mem_cons_of_mem _ hx, hxc⟩, hrun⟩

/-- **Isolation of channels.**  The calls of a process that is neither the owner nor a client leave a
channel as it is exactly when the channel is out of use or none of them is a `chan_close` of it. -/
theorem run_intact_iff (calls : List (ChanCaller × ChanCall)) (hcaller : ∀ call ∈ calls, call.1.pid = pid)
    (hpid : (s.channels c).pidAllowed pid = false) :
    (s.channels c).Intact ((run calls s).channels c) ↔
      (s.channels c).used = false ∨ ∀ call ∈ calls, ¬call.2.Closes c := by
  constructor
  · intro hintact
    rcases run_of_stranger hcaller hpid with ⟨hnone, -⟩ | ⟨-, hused⟩
    · exact .inr hnone
    · exact .inl (hintact.used_eq.symm.trans hused)
  · rintro (hused | hnone)
    · rw [run_of_not_used calls hused]
    · rcases run_of_stranger hcaller hpid with ⟨-, hrun⟩ | ⟨⟨call, hcall, hclose⟩, -⟩
      · rw [hrun]
      · exact absurd hclose (hnone call hcall)

/-- The process 1, which has no part in the channel that process 7 makes. -/
def stranger : ChanCaller := ⟨0, Kernel.oneProcess Onx.freshMm 0, {}, fun _ => 0⟩

theorem run_intact_iff_send : (((({} : Ipc).create 7).2).channels 0).Intact
        ((run [(stranger, send 0 userBase 3)] (({} : Ipc).create 7).2).channels 0) ↔
      ((({} : Ipc).create 7).2.channels 0).used = false ∨
        ∀ call ∈ [(stranger, send 0 userBase 3)], ¬call.2.Closes 0 := by
  have hcaller : ∀ call ∈ [(stranger, send 0 userBase 3)], call.1.pid = 1 := fun call hcall => by
    rw [mem_singleton.mp hcall]
    rfl
  exact run_intact_iff _ hcaller rfl

/-- Process 1 closes the channel of process 7. -/
theorem not_intact_close : (∀ call ∈ [(stranger, close 0)], call.1.pid = 1) ∧
    ((({} : Ipc).create 7).2.channels 0).pidAllowed 1 = false ∧
    ¬((({} : Ipc).create 7).2.channels 0).Intact ((run [(stranger, close 0)] (({} : Ipc).create 7).2).channels 0) := by
  refine ⟨fun call hcall => ?_, rfl, fun hintact => ?_⟩
  · rw [mem_singleton.mp hcall]
    rfl
  · exact absurd hintact.used_eq (by decide)

end ChanCall

end OnyxKernel
