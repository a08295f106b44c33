import OnyxKernel.Proc.Events

/-!
# Wait lists

A process that waits for a channel stands in one of the two wait lists of the channel, which are linked through
the field `wait_next` of the process records.  `IpcOp.waitEffect` says what an operation on the channels does to
the lists and to the processes: it lets them alone, puts the calling process in front of a list, empties a list
and makes its processes ready, or starts or ends the life of a channel.
-/

namespace OnyxKernel

open Ipc Option Channel

open Function (update update_self update_of_ne update_eq_self)

/-- What the wait lists have to do with a channel: their heads, and whether the channel is in use. -/
@[ext]
structure Gate where
  wait : Side → Option ℕ := fun _ => none
  used : Bool := false
  closed : Bool := false

namespace Gate

/-- The channel accepts messages. -/
def isOpen (g : Gate) : Bool := g.used && !g.closed

def setWait (g : Gate) (side : Side) (head : Option ℕ) : Gate := { g with wait := update g.wait side head }

@[simp] lemma isOpen_setWait (g : Gate) (side : Side) (head : Option ℕ) : (g.setWait side head).isOpen = g.isOpen :=
  rfl

@[simp] lemma wait_setWait_self (g : Gate) (side : Side) (head : Option ℕ) :
    (g.setWait side head).wait side = head := update_self ..

lemma wait_setWait_of_ne {side side' : Side} (hne : side' ≠ side) (g : Gate) (head : Option ℕ) :
    (g.setWait side head).wait side' = g.wait side' := update_of_ne hne ..

section

variable {i j : Fin chanMax} {side side' : Side} {g : Fin chanMax → Gate} {head : Option ℕ}

lemma wait_update (hj : ¬(j = i ∧ side' = side)) :
    (update g i ((g i).setWait side head) j).wait side' = (g j).wait side' := by
  by_cases hji : j = i
  · subst hji
    rw [update_self, wait_setWait_of_ne fun heq => hj ⟨rfl, heq⟩]
  · rw [update_of_ne hji]

lemma isOpen_update : (update g i ((g i).setWait side head) j).isOpen = (g j).isOpen := by
  by_cases hji : j = i
  · subst hji
    rw [update_self, isOpen_setWait]
  · rw [update_of_ne hji]

end

end Gate

namespace Channel

variable {ch ch' : Channel} {pid len : ℕ} {bytes : List UInt8}

def gate (ch : Channel) : Gate where
  wait
    | .send => ch.sendWait
    | .recv => ch.recvWait
  used := ch.used
  closed := ch.closed

lemma wait_gate (ch : Channel) (side : Side) : ch.gate.wait side = ch.waitOf side := by cases side <;> rfl

lemma gate_setWait (ch : Channel) (head : Option ℕ) (side : Side) :
    (ch.setWait head side).gate = ch.gate.setWait side head := by
  ext x
  · cases side <;> cases x <;> simp [gate, Gate.setWait, setWait]
  · cases side <;> rfl
  · cases side <;> rfl

lemma gate_foldl_put (bytes : List UInt8) (ch : Channel) : (bytes.foldl put ch).gate = ch.gate := by
  induction bytes generalizing ch with
  | nil => rfl
  | cons b bytes ih => exact ih (ch.put b)

lemma gate_take (n : ℕ) (ch : Channel) : (take n ch).2.gate = ch.gate := by
  induction n generalizing ch with
  | zero => rfl
  | succ n ih => exact ih { ch with head := ch.head + 1 }

lemma gate_trySend (hok : ch.trySend pid bytes = .ok ch') : ch'.gate = ch.gate := by
  unfold trySend at hok
  split_ifs at hok
  cases hok
  exact gate_foldl_put bytes ch

lemma gate_tryRecv (hok : ch.tryRecv pid len = .ok (some (bytes, ch'))) : ch'.gate = ch.gate := by
  unfold tryRecv at hok
  split_ifs at hok
  · cases hok
  · have heq : ch.take (min len ch.unread.toNat) = (bytes, ch') := some.inj (Except.ok.inj hok)
    rw [← gate_take (min len ch.unread.toNat) ch, heq]

lemma isOpen_of_trySend_busy (hbusy : ch.trySend pid bytes = .error .busy) : ch.gate.isOpen = true := by
  by_cases hpipe : (!ch.used || ch.closed) = true
  · rw [trySend, if_pos hpipe] at hbusy
    cases hbusy
  · simpa [Gate.isOpen, gate] using hpipe

lemma isOpen_of_tryRecv_none (hnone : ch.tryRecv pid len = .ok none) : ch.gate.isOpen = true := by
  by_cases hpipe : (!ch.used || ch.closed) = true
  · rw [tryRecv, if_pos hpipe] at hnone
    cases hnone
  · simpa [Gate.isOpen, gate] using hpipe

end Channel

namespace Ipc

/-- The processes that are reached from `head` along the links. -/
inductive Reached (next : ℕ → Option ℕ) (head : Option ℕ) : ℕ → Prop
  | first {p : ℕ} (hp : head = some p) : Reached next head p
  | later {p q : ℕ} (hp : Reached next head p) (hq : next p = some q) : Reached next head q

def gates (s : Ipc) (i : Fin chanMax) : Gate := (s.channels i).gate

lemma gates_set (s : Ipc) (i : Fin chanMax) (ch : Channel) :
    (s.set i ch).gates = update s.gates i ch.gate := by
  funext j
  by_cases hj : j = i
  · subst hj
    simp [gates, set]
  · simp [gates, set, update_of_ne hj]

lemma gates_set_of_eq {s : Ipc} {i : Fin chanMax} {ch : Channel} (hgate : ch.gate = s.gates i) :
    (s.set i ch).gates = s.gates := by
  rw [gates_set, hgate, update_eq_self]

/-- The process stands in a wait list. -/
def OnWaitList (s : Ipc) (p : ℕ) : Prop := ∃ i side, Reached s.waitNext ((s.gates i).wait side) p

variable {s s' : Ipc} {p q x : ℕ} {next : ℕ → Option ℕ} {head : Option ℕ}

lemma Reached.mono {next' : ℕ → Option ℕ} (hr : Reached next' head p)
    (hnext : ∀ q x, next' q = some x → next q = some x) : Reached next head p := by
  induction hr with
  | first hp => exact .first hp
  | later _ hq ih => exact ih.later (hnext _ _ hq)

lemma not_reached_none : ¬Reached next none p := by
  intro hr
  generalize hhead : none = head at hr
  induction hr with
  | first hp => exact nomatch hhead.trans hp
  | later _ _ ih => exact ih

lemma OnWaitList.of_le (hp : s'.OnWaitList p)
    (hgates : ∀ i side, (s'.gates i).wait side = none ∨ (s'.gates i).wait side = (s.gates i).wait side)
    (hnext : ∀ q x, s'.waitNext q = some x → s.waitNext q = some x) : s.OnWaitList p := by
  obtain ⟨i, side, hr⟩ := hp
  rcases hgates i side with hnone | hsame
  · rw [hnone] at hr
    exact (not_reached_none hr).elim
  · rw [hsame] at hr
    exact ⟨i, side, hr.mono hnext⟩

lemma onWaitList_of_enqueued {i : Fin chanMax} {side : Side}
    (hgates : s'.gates = update s.gates i ((s.gates i).setWait side (some p)))
    (hnext : s'.waitNext = update s.waitNext p ((s.gates i).wait side)) (hx : s'.OnWaitList x) :
    x = p ∨ s.OnWaitList x := by
  obtain ⟨j, side', hr⟩ := hx
  induction hr with
  | @first x hhead =>
    rw [hgates] at hhead
    by_cases hj : j = i ∧ side' = side
    · obtain ⟨rfl, rfl⟩ := hj
      rw [update_self, Gate.wait_setWait_self] at hhead
      exact .inl (some.inj hhead).symm
    · rw [Gate.wait_update hj] at hhead
      exact .inr ⟨j, side', .first hhead⟩
  | @later q x _ hlink ih =>
    rw [hnext] at hlink
    by_cases hq : q = p
    · rw [hq, update_self] at hlink
      exact .inr ⟨i, side, .first hlink⟩
    · rw [update_of_ne hq] at hlink
      obtain ⟨j', side'', hr'⟩ := ih.resolve_left hq
      exact .inr ⟨j', side'', hr'.later hlink⟩

lemma waitChain_links {fuel : ℕ} (hx : (waitChain fuel next head).2 q = some x) : next q = some x := by
  induction fuel generalizing next head with
  | zero => exact hx
  | succ fuel ih =>
    cases head with
    | none => exact hx
    | some p =>
      have hcleared : update next p none q = some x := ih hx
      by_cases hq : q = p
      · rw [hq, update_self] at hcleared
        cases hcleared
      · rwa [update_of_ne hq] at hcleared

end Ipc

namespace IpcOp

/-- The call that has to wait: on which hart, and for which side of which channel. -/
def blocksOn : IpcOp → System → Option (Hart × TrapFrame × Fin chanMax × Side)
  | send h id bytes (some tf), s =>
    if hid : id < chanMax then
      match (s.ipc.channels ⟨id, hid⟩).trySend (s.kernel.currentPid h) bytes with
      | .error .busy => some (h, tf, ⟨id, hid⟩, .send)
      | _ => none
    else none
  | recv h id len (some tf), s =>
    if hid : id < chanMax then
      match (s.ipc.channels ⟨id, hid⟩).tryRecv (s.kernel.currentPid h) len with
      | .ok none => some (h, tf, ⟨id, hid⟩, .recv)
      | _ => none
    else none
  | _, _ => none

/-- What an operation does to wait lists and processes. -/
inductive WaitEffect (op : IpcOp) (s s' : System) : Prop
  /-- nothing -/
  | kept (hblocks : op.blocksOn s = none) (hkernel : s'.kernel = s.kernel) (hgates : s'.ipc.gates = s.ipc.gates)
      (hnext : s'.ipc.waitNext = s.ipc.waitNext)
  /-- the process of a hart goes to the front of a list, and the hart looks for another one -/
  | blocked (h : Hart) (tf : TrapFrame) (i : Fin chanMax) (side : Side) (p : ℕ)
      (hblocks : op.blocksOn s = some (h, tf, i, side)) (hcur : s.kernel.hartCurrent h = some p)
      (hopen : (s.ipc.gates i).isOpen = true)
      (hkernel : s'.kernel = (((s.kernel.setNeedResched h true).startWaiting h).schedYield h tf).kernel)
      (hgates : s'.ipc.gates = update s.ipc.gates i ((s.ipc.gates i).setWait side (some p)))
      (hnext : s'.ipc.waitNext = update s.ipc.waitNext p ((s.ipc.gates i).wait side))
  /-- the processes of a list become ready -/
  | woke (h : Hart) (i : Fin chanMax) (side : Side) (hblocks : op.blocksOn s = none)
      (hkernel : s'.kernel =
        (waitWakeAll ((s.ipc.gates i).wait side) s.ipc.waitNext s.kernel).2.setNeedResched h true)
      (hgates : s'.ipc.gates = update s.ipc.gates i ((s.ipc.gates i).setWait side none))
      (hnext : s'.ipc.waitNext = (waitWakeAll ((s.ipc.gates i).wait side) s.ipc.waitNext s.kernel).1)
  /-- a channel is created -/
  | created (i : Fin chanMax) (hblocks : op.blocksOn s = none) (hunused : (s.ipc.gates i).used = false)
      (hkernel : s'.kernel = s.kernel) (hgates : s'.ipc.gates = update s.ipc.gates i { used := true })
      (hnext : s'.ipc.waitNext = s.ipc.waitNext)
  /-- a channel is closed -/
  | closed (i : Fin chanMax) (hop : op = close i) (hkernel : s'.kernel = s.kernel)
      (hgates : s'.ipc.gates = update s.ipc.gates i { s.ipc.gates i with used := false, closed := true })
      (hnext : s'.ipc.waitNext = s.ipc.waitNext)

variable {s : System} {h : Hart} {p : ℕ} {α : Type} {id : ℕ} {tf : Option TrapFrame}

lemma waitEffect_transfer {op : IpcOp} {side other : Side}
    {idle : Except Errno α} {tried : Channel → Except Errno (Option (α × Channel))}
    (hcur : s.kernel.hartCurrent h = some p)
    (hnone : (tf = none ∨ ∀ i : Fin chanMax, i = id → tried (s.ipc.channels i) ≠ .ok none) → op.blocksOn s = none)
    (hsome : ∀ (i : Fin chanMax) tf', i = id → tf = some tf' → tried (s.ipc.channels i) = .ok none →
      op.blocksOn s = some (h, tf', i, side))
    (hopen : ∀ ch, tried ch = .ok none → ch.gate.isOpen = true)
    (hgate : ∀ {ch a ch'}, tried ch = .ok (some (a, ch')) → ch'.gate = ch.gate) :
    WaitEffect op s ⟨(s.ipc.transfer h s.kernel id tf side other idle tried).2,
      (s.ipc.transfer h s.kernel id tf side other idle tried).1.kernel⟩ := by
  generalize hx : s.ipc.transfer h s.kernel id tf side other idle tried = x
  have hfound : ∀ {i : Fin chanMax} {a ch}, i = id → tried (s.ipc.channels i) = .ok (some (a, ch)) →
      op.blocksOn s = none := by
    intro i a ch hi htry
    refine hnone (.inr fun j hj hnone => ?_)
    rw [Fin.ext (hj.trans hi.symm), htry] at hnone
    cases hnone
  refine transfer_cases hx ?_ ?_ ?_ ?_
  · exact fun _ _ hwhy => .kept (hnone hwhy) rfl rfl rfl
  · intro i tf' hi htf htry
    refine .blocked h tf' i side p (hsome i tf' hi htf htry) hcur (hopen _ htry) ?_ ?_ ?_
    · exact Kernel.kernel_waitEnqueue hcur _ _ tf' _
    · rw [waitEnqueue, hcur]
      exact (gates_set s.ipc _ _).trans (by rw [gate_setWait]; rfl)
    · rw [waitEnqueue, hcur, gates, wait_gate]
      rfl
  · exact fun i _ _ hi htry => .kept (hfound hi htry) rfl (gates_set_of_eq (hgate htry)) rfl
  · intro i a ch hi htry
    have hwait : ch.waitOf other = (s.ipc.gates i).wait other := by
      rw [gates, ← hgate htry, wait_gate]
    refine .woke h i other (hfound hi htry) ?_ ?_ ?_
    · rw [← hwait]
      rfl
    · rw [gates, ← hgate htry, ← gate_setWait]
      exact gates_set s.ipc _ _
    · rw [← hwait]

lemma waitEffect_send {bytes : List UInt8} (hcur : s.kernel.hartCurrent h = some p) :
    WaitEffect (send h id bytes tf) s ((send h id bytes tf).step s) := by
  rw [step, send_eq]
  refine waitEffect_transfer hcur (fun hwhy => ?_) ?_ (fun ch hnone => ?_) fun hok => ?_
  · rcases hwhy with rfl | hne
    · rfl
    · cases tf with
      | none => rfl
      | some tf =>
        rw [blocksOn]
        split_ifs with hid
        · have hne := hne ⟨id, hid⟩ rfl
          unfold sends at hne
          split
          · rename_i hbusy
            rw [hbusy] at hne
            exact absurd rfl hne
          · rfl
        · rfl
  · rintro i tf' rfl rfl htry
    have hbusy := sends_eq_none_iff.mp htry
    simp only [blocksOn, dif_pos i.isLt, hbusy]
  · exact isOpen_of_trySend_busy (sends_eq_none_iff.mp hnone)
  · exact gate_trySend (sends_eq_some_iff.mp hok).2

lemma waitEffect_recv {len : ℕ} (hcur : s.kernel.hartCurrent h = some p) :
    WaitEffect (recv h id len tf) s ((recv h id len tf).step s) := by
  rw [step, recv_eq]
  refine waitEffect_transfer hcur (fun hwhy => ?_) ?_ (fun ch => isOpen_of_tryRecv_none) gate_tryRecv
  · rcases hwhy with rfl | hne
    · rfl
    · cases tf with
      | none => rfl
      | some tf =>
        rw [blocksOn]
        split_ifs with hid
        · have hne := hne ⟨id, hid⟩ rfl
          split
          · contradiction
          · rfl
        · rfl
  · rintro i tf' rfl rfl htry
    simp only [blocksOn, dif_pos i.isLt, htry]

lemma gates_create (ipc : Ipc) (pid : ℕ) : (ipc.create pid).2.waitNext = ipc.waitNext ∧
    ((ipc.create pid).2.gates = ipc.gates ∨ ∃ i, (ipc.gates i).used = false ∧
      (ipc.create pid).2.gates = update ipc.gates i { used := true }) := by
  unfold Ipc.create
  split
  · rename_i i hfind
    have hunused : (!(ipc.channels i).used) = true := used_of_findChannel hfind
    refine ⟨rfl, .inr ⟨i, (Bool.not_eq_true' _).mp hunused, ?_⟩⟩
    have hgate : ({ ownerPid := pid, used := true } : Channel).gate = { used := true } := by
      ext side
      · cases side <;> rfl
      · rfl
      · rfl
    rw [← hgate]
    exact gates_set ipc i _
  · exact ⟨rfl, .inl rfl⟩

lemma gates_createNamed (ipc : Ipc) (name : List UInt8) (pid : ℕ) :
    (ipc.createNamed name pid).2.waitNext = ipc.waitNext ∧
      ((ipc.createNamed name pid).2.gates = ipc.gates ∨ ∃ i, (ipc.gates i).used = false ∧
        (ipc.createNamed name pid).2.gates = update ipc.gates i { used := true }) := by
  have hcreate := gates_create ipc pid
  unfold Ipc.createNamed
  split_ifs
  · exact ⟨rfl, .inl rfl⟩
  · exact ⟨rfl, .inl rfl⟩
  · rcases hres : ipc.create pid with ⟨_ | i, ipc'⟩
    · rw [hres] at hcreate
      exact hcreate
    · rw [hres] at hcreate
      have hsame : (ipc'.set i { ipc'.channels i with name := name }).gates = ipc'.gates := gates_set_of_eq rfl
      exact ⟨hcreate.1, by rw [hsame]; exact hcreate.2⟩

lemma gates_openByName (ipc : Ipc) (name : List UInt8) (pid : ℕ) :
    (ipc.openByName name pid).2.waitNext = ipc.waitNext ∧ (ipc.openByName name pid).2.gates = ipc.gates := by
  unfold Ipc.openByName
  split
  · exact ⟨rfl, rfl⟩
  · dsimp only
    split_ifs
    · exact ⟨rfl, rfl⟩
    · exact ⟨rfl, rfl⟩
    · exact ⟨rfl, gates_set_of_eq rfl⟩

lemma gates_connect (ipc : Ipc) (id pid : ℕ) :
    (ipc.connect id pid).2.waitNext = ipc.waitNext ∧ (ipc.connect id pid).2.gates = ipc.gates := by
  unfold Ipc.connect
  dsimp only
  split_ifs
  · exact ⟨rfl, rfl⟩
  · exact ⟨rfl, rfl⟩
  · exact ⟨rfl, gates_set_of_eq rfl⟩
  · exact ⟨rfl, rfl⟩

lemma gates_disconnect (ipc : Ipc) (id pid : ℕ) :
    (ipc.disconnect id pid).waitNext = ipc.waitNext ∧ (ipc.disconnect id pid).gates = ipc.gates := by
  unfold Ipc.disconnect
  dsimp only
  split_ifs
  · exact ⟨rfl, rfl⟩
  · split
    · exact ⟨rfl, rfl⟩
    · exact ⟨rfl, gates_set_of_eq rfl⟩
  · exact ⟨rfl, rfl⟩

lemma waitEffect_close (id : ℕ) : WaitEffect (close id) s ((close id).step s) := by
  by_cases hid : id < chanMax
  · by_cases hused : (s.ipc.channels ⟨id, hid⟩).used = true
    · have hstep : (s.ipc.close id).2 =
          s.ipc.set ⟨id, hid⟩ { s.ipc.channels ⟨id, hid⟩ with closed := true, used := false } := by
        simp [Ipc.close, hid, hused]
      refine .closed ⟨id, hid⟩ rfl rfl ?_ ?_ <;> simp only [step, hstep]
      · exact Ipc.gates_set ..
      · rfl
    · have hstep : (s.ipc.close id).2 = s.ipc := by simp [Ipc.close, hid, hused]
      exact .kept rfl rfl (by simp only [step, hstep]) (by simp only [step, hstep])
  · have hstep : (s.ipc.close id).2 = s.ipc := by simp [Ipc.close, hid]
    exact .kept rfl rfl (by simp only [step, hstep]) (by simp only [step, hstep])

lemma waitEffect (op : IpcOp) (hposs : (SchedEvent.ipc op).Possible s) : WaitEffect op s (op.step s) := by
  cases op with
  | send h id bytes tf =>
    obtain ⟨p, hcur⟩ := isSome_iff_exists.mp hposs
    exact waitEffect_send hcur
  | recv h id len tf =>
    obtain ⟨p, hcur⟩ := isSome_iff_exists.mp hposs
    exact waitEffect_recv hcur
  | create pid =>
    obtain ⟨hnext, hsame | ⟨i, hunused, hgates⟩⟩ := gates_create s.ipc pid
    · exact .kept rfl rfl hsame hnext
    · exact .created i rfl hunused rfl hgates hnext
  | createNamed name pid =>
    obtain ⟨hnext, hsame | ⟨i, hunused, hgates⟩⟩ := gates_createNamed s.ipc name pid
    · exact .kept rfl rfl hsame hnext
    · exact .created i rfl hunused rfl hgates hnext
  | openByName name pid =>
    obtain ⟨hnext, hsame⟩ := gates_openByName s.ipc name pid
    exact .kept rfl rfl hsame hnext
  | connect id pid =>
    obtain ⟨hnext, hsame⟩ := gates_connect s.ipc id pid
    exact .kept rfl rfl hsame hnext
  | disconnect id pid =>
    obtain ⟨hnext, hsame⟩ := gates_disconnect s.ipc id pid
    exact .kept rfl rfl hsame hnext
  | close id => exact waitEffect_close id
  | elsewhere k => exact hposs.elim

end IpcOp

end OnyxKernel
