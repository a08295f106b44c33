import OnyxKernel.Foundation.RingBuffer
import OnyxKernel.Ipc.Channel
import OnyxKernel.Syscall.Confinement

/-!
# A channel is a byte stream

The ring buffer of a channel holds the bytes that have been sent and not yet received.  Along every run
in which a channel stays open, what `recv` has returned followed by what the buffer holds is what `send`
has accepted, whatever other processes, channels and the scheduler do in between.
-/

namespace OnyxKernel

open List Nat Function Channel Ipc

/-- The channels and the kernel around them. -/
structure System where
  ipc : Ipc
  kernel : Kernel

namespace Channel

variable {ch ch' ch'' : Channel} {l : List UInt8} {pid : ℕ} {bytes : List UInt8}

/-- The buffer holds `l`. -/
abbrev Holds (ch : Channel) (l : List UInt8) : Prop :=
  RingBuffer.Holds (2 ^ 32) ch.buf ch.head.toNat ch.tail.toNat l

/-- The bytes in the buffer. -/
def content (ch : Channel) : List UInt8 :=
  (range ch.unread.toNat).map fun i => ch.buf (Fin.ofNat chanBufSize (ch.head.toNat + i))

lemma toNat_unread (hl : ch.Holds l) : ch.unread.toNat = l.length := by
  rw [unread, UInt32.toNat_sub, add_comm]
  exact hl.distance (by decide)

lemma content_eq (hl : ch.Holds l) : ch.content = l := by
  unfold content
  apply ext_getElem
  · rw [length_map, length_range, toNat_unread hl]
  · intro i _ hi
    rw [getElem_map, getElem_range]
    exact hl.cells i hi

/-! ### The loops of `send` and `recv` -/

lemma Holds.put (hl : ch.Holds l) (hspace : l.length < chanBufSize) (b : UInt8) :
    (ch.put b).Holds (l ++ [b]) := by
  exact RingBuffer.Holds.push hl (by decide) hspace b

/-- The channels differ at most in their buffers. -/
structure SameState (ch ch' : Channel) : Prop where
  used_eq : ch'.used = ch.used
  closed_eq : ch'.closed = ch.closed

lemma foldl_put (bytes : List UInt8) (hl : ch.Holds l) (hspace : l.length + bytes.length ≤ chanBufSize) :
    (bytes.foldl put ch).Holds (l ++ bytes) ∧ ch.SameState (bytes.foldl put ch) := by
  induction bytes generalizing ch l with
  | nil => exact ⟨by simpa using hl, rfl, rfl⟩
  | cons b bytes ih =>
    rw [length_cons] at hspace
    have hput : (ch.put b).Holds (l ++ [b]) := Holds.put hl (by omega) b
    have hlen : (l ++ [b]).length + bytes.length ≤ chanBufSize := by
      rw [length_append, length_singleton]
      omega
    obtain ⟨hholds, hused, hclosed⟩ := ih hput hlen
    refine ⟨?_, hused, hclosed⟩
    simpa using hholds

lemma take_eq (n : ℕ) (hl : ch.Holds l) (hn : n ≤ l.length) :
    (ch.take n).1 = l.take n ∧ (ch.take n).2.Holds (l.drop n) ∧ ch.SameState (ch.take n).2 := by
  induction n generalizing ch l with
  | zero => exact ⟨rfl, hl, rfl, rfl⟩
  | succ n ih =>
    cases l with
    | nil => exact absurd hn (not_succ_le_zero n)
    | cons b l =>
      obtain ⟨hcell, hpop⟩ := RingBuffer.Holds.pop hl (by decide)
      have hrest : ({ ch with head := ch.head + 1 } : Channel).Holds l := hpop
      obtain ⟨htake, hholds, hused, hclosed⟩ := ih hrest (le_of_succ_le_succ hn)
      refine ⟨?_, hholds, hused, hclosed⟩
      rw [take, take_succ_cons, ← htake, ← hcell]

/-! ### Open channels -/

/-- The channel is open, and its buffer holds `l`. -/
structure Open (ch : Channel) (l : List UInt8) : Prop where
  used : ch.used = true
  closed : ch.closed = false
  holds : ch.Holds l

/-- The channels have the same buffer and are open or closed alike. -/
structure Same (ch ch' : Channel) : Prop extends ch.SameState ch' where
  buf_eq : ch'.buf = ch.buf
  head_eq : ch'.head = ch.head
  tail_eq : ch'.tail = ch.tail

@[refl] lemma Same.refl (ch : Channel) : ch.Same ch := ⟨⟨rfl, rfl⟩, rfl, rfl, rfl⟩

lemma Open.of_same (hl : ch.Open l) (hs : ch.Same ch') : ch'.Open l := by
  refine ⟨hs.used_eq.trans hl.used, hs.closed_eq.trans hl.closed, ?_⟩
  rw [Holds, hs.buf_eq, hs.head_eq, hs.tail_eq]
  exact hl.holds

lemma Open.trySend_ok (hl : ch.Open l) (hok : ch.trySend pid bytes = .ok ch') : ch'.Open (l ++ bytes) := by
  unfold trySend at hok
  split_ifs at hok with _ _ hspace
  cases hok
  have hle := hl.holds.length_le
  have havail : (UInt32.ofNat chanBufSize - ch.unread).toNat = chanBufSize - l.length := by
    have hun : ch.unread ≤ UInt32.ofNat chanBufSize := by
      rwa [UInt32.le_iff_toNat_le, toNat_unread hl.holds]
    rw [UInt32.toNat_sub_of_le _ _ hun, toNat_unread hl.holds]
    rfl
  obtain ⟨hholds, hused, hclosed⟩ := foldl_put bytes hl.holds (by omega)
  exact ⟨hused.trans hl.used, hclosed.trans hl.closed, hholds⟩

lemma Open.tryRecv_some {len : ℕ} (hl : ch.Open l) (hok : ch.tryRecv pid len = .ok (some (bytes, ch'))) :
    ∃ rest, l = bytes ++ rest ∧ ch'.Open rest := by
  unfold tryRecv at hok
  split_ifs at hok
  · cases hok
  injection hok with hsome
  injection hsome with heq
  have hn : min len ch.unread.toNat ≤ l.length := by
    rw [toNat_unread hl.holds]
    exact min_le_right _ _
  obtain ⟨htake, hholds, hused, hclosed⟩ := take_eq _ hl.holds hn
  rw [heq] at htake hholds hused hclosed
  refine ⟨l.drop (min len ch.unread.toNat), ?_, hused.trans hl.used, hclosed.trans hl.closed, hholds⟩
  rw [show bytes = _ from htake, take_append_drop]

end Channel

/-! ### The calls -/

namespace Ipc

variable {s : Ipc} {h : Hart} {k : Kernel} {c : Fin chanMax} {l : List UInt8} {i : Fin chanMax}
  {ch : Channel} {id ownerPid : ℕ} {s' : Ipc}

/-- Does a `send` return with success? -/
def accepted : Flow (Except Errno ℕ) → Bool
  | .ret (.ok _) _ => true
  | _ => false

/-- The bytes that a `recv` returns. -/
def returned : Flow (Except Errno (List UInt8)) → List UInt8
  | .ret (.ok bytes) _ => bytes
  | _ => []

lemma accepted_bind_error (e : Errno) (x : Flow Unit) :
    accepted (x.bind fun _ k => .ret (.error e) k) = false := by
  cases x with
  | ret a k => rfl
  | switched dest k => rfl
  | halted k => rfl

lemma returned_bind_nil (x : Flow Unit) : returned (x.bind fun _ k => .ret (.ok []) k) = [] := by
  cases x with
  | ret a k => rfl
  | switched dest k => rfl
  | halted k => rfl

@[simp] lemma channels_set_self (s : Ipc) (i : Fin chanMax) (ch : Channel) :
    (s.set i ch).channels i = ch := update_self ..

lemma channels_set_of_ne (hne : c ≠ i) :
    (s.set i ch).channels c = s.channels c := update_of_ne hne ..

lemma same_set (hs : (s.channels i).Same ch) (c : Fin chanMax) :
    (s.channels c).Same ((s.set i ch).channels c) := by
  by_cases hc : c = i
  · rwa [hc, channels_set_self]
  · rw [channels_set_of_ne hc]

lemma same_setWait (ch : Channel) (head : Option ℕ) (side : Side) : ch.Same (ch.setWait head side) := by
  cases side <;> exact ⟨⟨rfl, rfl⟩, rfl, rfl, rfl⟩

/-- A call moves bytes, or it ends as `Q` says and leaves every buffer as it is. -/
theorem transfer_same {α : Type} {Q : Flow (Except Errno α) → Prop} {idle : Except Errno α}
    {tf : Option TrapFrame} {side other : Side} {tried : Channel → Except Errno (Option (α × Channel))}
    {x : Flow (Except Errno α) × Ipc} (hx : s.transfer h k id tf side other idle tried = x)
    (herror : ∀ e k, Q (.ret (.error e) k)) (hidle : ∀ x : Flow Unit, Q (x.bind fun _ k => .ret idle k)) :
    (∃ (i : Fin chanMax) (a : α) (ch : Channel) (k' : Kernel), i = id ∧ tried (s.channels i) = .ok (some (a, ch)) ∧
      x.1 = .ret (.ok a) k' ∧ ch.Same (x.2.channels i) ∧ ∀ c ≠ i, x.2.channels c = s.channels c) ∨
    Q x.1 ∧ ∀ c, (s.channels c).Same (x.2.channels c) := by
  refine transfer_cases hx ?_ ?_ ?_ ?_
  · rintro r (rfl | ⟨e, rfl⟩) -
    · exact .inr ⟨hidle (.ret () k), fun _ => .refl _⟩
    · exact .inr ⟨herror e k, fun _ => .refl _⟩
  · intro i tf' _ _ _
    exact .inr ⟨hidle _, same_set (same_setWait _ _ side)⟩
  · intro i a ch hi htry
    exact .inl ⟨i, a, ch, k, hi, htry, rfl, by rw [channels_set_self], fun c hc => channels_set_of_ne hc⟩
  · intro i a ch hi htry
    refine .inl ⟨i, a, ch, _, hi, htry, rfl, ?_, fun c hc => channels_set_of_ne hc⟩
    exact (channels_set_self s i _).symm ▸ same_setWait ch none other

/-- A `send` appends its bytes to the channel and returns their number, or it does not succeed and
leaves every buffer as it is. -/
theorem send_cases (s : Ipc) (h : Hart) (k : Kernel) (id : ℕ) (bytes : List UInt8) (tf : Option TrapFrame) :
    (∃ (i : Fin chanMax) (ch : Channel) (k' : Kernel), i = id ∧
      (s.channels i).trySend (k.currentPid h) bytes = .ok ch ∧
      (s.send h k id bytes tf).1 = .ret (.ok bytes.length) k' ∧
      ch.Same ((s.send h k id bytes tf).2.channels i) ∧
      ∀ c ≠ i, (s.send h k id bytes tf).2.channels c = s.channels c) ∨
    accepted (s.send h k id bytes tf).1 = false ∧
      ∀ c, (s.channels c).Same ((s.send h k id bytes tf).2.channels c) := by
  rw [send_eq]
  refine (transfer_same (Q := fun x => accepted x = false) rfl (fun _ _ => rfl) (accepted_bind_error _)).imp_left ?_
  rintro ⟨i, n, ch, k', hi, htry, hret, hsame⟩
  obtain ⟨rfl, hok⟩ := sends_eq_some_iff.mp htry
  exact ⟨i, ch, k', hi, hok, hret, hsame⟩

/-- A `recv` takes the bytes that it returns from the channel, or it returns none and leaves every
buffer as it is. -/
theorem recv_cases (s : Ipc) (h : Hart) (k : Kernel) (id len : ℕ) (tf : Option TrapFrame) :
    (∃ (i : Fin chanMax) (bytes : List UInt8) (ch : Channel), i = id ∧
      (s.channels i).tryRecv (k.currentPid h) len = .ok (some (bytes, ch)) ∧
      returned (s.recv h k id len tf).1 = bytes ∧
      ch.Same ((s.recv h k id len tf).2.channels i) ∧
      ∀ c ≠ i, (s.recv h k id len tf).2.channels c = s.channels c) ∨
    returned (s.recv h k id len tf).1 = [] ∧
      ∀ c, (s.channels c).Same ((s.recv h k id len tf).2.channels c) := by
  rw [recv_eq]
  refine (transfer_same (Q := fun x => returned x = []) rfl (fun _ _ => rfl) returned_bind_nil).imp_left ?_
  rintro ⟨i, bytes, ch, k', hi, htry, hret, hsame⟩
  exact ⟨i, bytes, ch, hi, htry, by rw [hret]; rfl, hsame⟩

lemma used_of_findChannel {p : Channel → Bool} (hfind : s.findChannel p = some c) : p (s.channels c) = true :=
  find?_some (p := fun i => p (s.channels i)) hfind

lemma create_of_used (ownerPid : ℕ) (hused : (s.channels c).used = true) :
    (s.create ownerPid).2.channels c = s.channels c := by
  unfold create
  split
  · rename_i i hfind
    have hfree := used_of_findChannel hfind
    refine channels_set_of_ne fun hc => ?_
    rw [← hc, hused] at hfree
    cases hfree
  · rfl

lemma create_open (hok : s.create ownerPid = (.ok c, s')) : (s'.channels c).Open [] := by
  unfold create at hok
  split at hok
  · cases hok
    rw [channels_set_self]
    exact ⟨rfl, rfl, .nil (UInt32.toNat_lt _) _⟩
  · cases hok

lemma createNamed_of_used (name : List UInt8) (ownerPid : ℕ) (hused : (s.channels c).used = true) :
    (s.channels c).Same ((s.createNamed name ownerPid).2.channels c) := by
  unfold createNamed
  have hkeep := create_of_used ownerPid hused
  split_ifs
  · rfl
  · rfl
  · split
    · rename_i hs'
      rw [hs'] at hkeep
      rw [hkeep]
    · rename_i i s' hs'
      rw [hs'] at hkeep
      rw [← hkeep]
      apply same_set
      exact ⟨⟨rfl, rfl⟩, rfl, rfl, rfl⟩

lemma createNamed_open {name : List UInt8}
    (hok : s.createNamed name ownerPid = (.ok c, s')) : (s'.channels c).Open [] := by
  unfold createNamed at hok
  split_ifs at hok
  · cases hok
  · cases hok
  · split at hok
    · cases hok
    · rename_i i s1 hs1
      have hopen := create_open hs1
      cases hok
      apply hopen.of_same
      apply same_set
      exact ⟨⟨rfl, rfl⟩, rfl, rfl, rfl⟩

lemma openByName_same (name : List UInt8) (pid : ℕ) (c : Fin chanMax) :
    (s.channels c).Same ((s.openByName name pid).2.channels c) := by
  unfold openByName
  split
  · rfl
  · dsimp only
    split_ifs
    · rfl
    · rfl
    · dsimp only
      apply same_set
      exact ⟨⟨rfl, rfl⟩, rfl, rfl, rfl⟩

lemma connect_same (id pid : ℕ) (c : Fin chanMax) :
    (s.channels c).Same ((s.connect id pid).2.channels c) := by
  unfold connect
  dsimp only
  split_ifs
  · rfl
  · rfl
  · dsimp only
    apply same_set
    exact ⟨⟨rfl, rfl⟩, rfl, rfl, rfl⟩
  · rfl

lemma disconnect_same (id pid : ℕ) (c : Fin chanMax) :
    (s.channels c).Same ((s.disconnect id pid).channels c) := by
  unfold disconnect
  dsimp only
  split_ifs
  · rfl
  · split
    · rfl
    · apply same_set
      exact ⟨⟨rfl, rfl⟩, rfl, rfl, rfl⟩
  · rfl

lemma close_of_ne (hne : (c : ℕ) ≠ id) : (s.close id).2.channels c = s.channels c := by
  unfold close
  dsimp only
  split_ifs
  · rfl
  · exact channels_set_of_ne fun hc => hne (congrArg Fin.val hc)
  · rfl

end Ipc

/-! ### Runs -/

/-- What may happen to the channels.  `elsewhere` stands for everything that leaves them alone: other
system calls, traps, the scheduler. -/
inductive IpcOp where
  | send (h : Hart) (id : ℕ) (bytes : List UInt8) (tf : Option TrapFrame)
  | recv (h : Hart) (id len : ℕ) (tf : Option TrapFrame)
  | create (pid : ℕ)
  | createNamed (name : List UInt8) (pid : ℕ)
  | openByName (name : List UInt8) (pid : ℕ)
  | connect (id pid : ℕ)
  | disconnect (id pid : ℕ)
  | close (id : ℕ)
  | elsewhere (k : Kernel)

namespace IpcOp

/-- The state after an operation. -/
def step : IpcOp → System → System
  | send h id bytes tf, s =>
    ⟨(s.ipc.send h s.kernel id bytes tf).2, (s.ipc.send h s.kernel id bytes tf).1.kernel⟩
  | recv h id len tf, s =>
    ⟨(s.ipc.recv h s.kernel id len tf).2, (s.ipc.recv h s.kernel id len tf).1.kernel⟩
  | create pid, s => { s with ipc := (s.ipc.create pid).2 }
  | createNamed name pid, s => { s with ipc := (s.ipc.createNamed name pid).2 }
  | openByName name pid, s => { s with ipc := (s.ipc.openByName name pid).2 }
  | connect id pid, s => { s with ipc := (s.ipc.connect id pid).2 }
  | disconnect id pid, s => { s with ipc := s.ipc.disconnect id pid }
  | close id, s => { s with ipc := (s.ipc.close id).2 }
  | elsewhere k, s => { s with kernel := k }

/-- The bytes that an operation sends to the channel `c`. -/
def sent (c : Fin chanMax) : IpcOp → System → List UInt8
  | send h id bytes tf, s =>
    if id = c ∧ accepted (s.ipc.send h s.kernel id bytes tf).1 then bytes else []
  | _, _ => []

/-- The bytes that an operation receives from the channel `c`. -/
def received (c : Fin chanMax) : IpcOp → System → List UInt8
  | recv h id len tf, s => if id = c then returned (s.ipc.recv h s.kernel id len tf).1 else []
  | _, _ => []

/-- The state after a sequence of operations. -/
def run (ops : List IpcOp) (s : System) : System := ops.foldl (fun s op => op.step s) s

/-- All bytes sent to `c` during a sequence of operations. -/
def sentBy (c : Fin chanMax) : List IpcOp → System → List UInt8
  | [], _ => []
  | op :: ops, s => op.sent c s ++ sentBy c ops (op.step s)

/-- All bytes received from `c` during a sequence of operations. -/
def receivedBy (c : Fin chanMax) : List IpcOp → System → List UInt8
  | [], _ => []
  | op :: ops, s => op.received c s ++ receivedBy c ops (op.step s)

variable {s : System} {c : Fin chanMax} {l : List UInt8} {op : IpcOp}

/-- One operation: what was in the buffer, followed by what is sent, is what is received, followed by
what is in the buffer then. -/
theorem step_open (hl : (s.ipc.channels c).Open l) (hopen : op ≠ close c) :
    ∃ l', ((op.step s).ipc.channels c).Open l' ∧ op.received c s ++ l' = l ++ op.sent c s := by
  have hsame : ∀ ch, (s.ipc.channels c).Same ch → ∃ l', ch.Open l' ∧ [] ++ l' = l ++ [] :=
    fun ch hs => ⟨l, hl.of_same hs, (append_nil l).symm⟩
  cases op with
  | send h id bytes tf =>
    rcases send_cases s.ipc h s.kernel id bytes tf with
      ⟨i, ch, k', rfl, hok, hret, hch, hother⟩ | ⟨hfail, hch⟩
    · by_cases hc : c = i
      · subst hc
        refine ⟨l ++ bytes, (hl.trySend_ok hok).of_same hch, ?_⟩
        rw [sent, hret, if_pos ⟨rfl, rfl⟩]
        rfl
      · rw [sent, if_neg fun hand => hc (Fin.ext hand.1.symm)]
        exact hsame _ (hother c hc ▸ .refl _)
    · rw [sent, hfail, if_neg fun hand => nomatch hand.2]
      exact hsame _ (hch c)
  | recv h id len tf =>
    rcases recv_cases s.ipc h s.kernel id len tf with
      ⟨i, bytes, ch, rfl, hok, hret, hch, hother⟩ | ⟨hnone, hch⟩
    · by_cases hc : c = i
      · subst hc
        obtain ⟨rest, hrest, hopen'⟩ := hl.tryRecv_some hok
        refine ⟨rest, hopen'.of_same hch, ?_⟩
        rw [received, if_pos rfl, hret, hrest]
        exact (append_nil _).symm
      · rw [received, if_neg fun heq => hc (Fin.ext heq.symm)]
        exact hsame _ (hother c hc ▸ .refl _)
    · rw [received, hnone, ite_self]
      exact hsame _ (hch c)
  | create pid => exact hsame _ (create_of_used pid hl.used ▸ .refl _)
  | createNamed name pid => exact hsame _ (createNamed_of_used name pid hl.used)
  | openByName name pid => exact hsame _ (openByName_same name pid c)
  | connect id pid => exact hsame _ (connect_same id pid c)
  | disconnect id pid => exact hsame _ (disconnect_same id pid c)
  | close id =>
    have hne : (c : ℕ) ≠ id := fun heq => hopen (congrArg close heq.symm)
    exact hsame _ (close_of_ne hne ▸ .refl _)
  | elsewhere k => exact hsame _ (.refl _)

lemma run_open (ops : List IpcOp) (hl : (s.ipc.channels c).Open l) (hopen : ∀ op ∈ ops, op ≠ close c) :
    ∃ l', ((run ops s).ipc.channels c).Open l' ∧ receivedBy c ops s ++ l' = l ++ sentBy c ops s := by
  induction ops generalizing s l with
  | nil => exact ⟨l, hl, (append_nil l).symm⟩
  | cons op ops ih =>
    obtain ⟨l1, hl1, heq1⟩ := step_open hl (hopen op mem_cons_self)
    obtain ⟨l2, hl2, heq2⟩ := ih hl1 fun op' hop' => hopen op' (mem_cons_of_mem op hop')
    refine ⟨l2, hl2, ?_⟩
    calc receivedBy c (op :: ops) s ++ l2
        = op.received c s ++ (receivedBy c ops (op.step s) ++ l2) := append_assoc ..
      _ = (op.received c s ++ l1) ++ sentBy c ops (op.step s) := by rw [heq2, append_assoc]
      _ = l ++ sentBy c (op :: ops) s := by rw [heq1, append_assoc]; rfl

/-- From its creation on and as long as it stays open, a channel is a byte stream.  What has been received
is a prefix of what has been sent, the distance of the counters is the number of unread bytes and at
most 4096, and a `send` appends all its bytes or does not succeed and leaves the buffer unchanged. -/
theorem channel_stream {s : System} {c : Fin chanMax} {ipc : Ipc}
    (hnew : (∃ pid, s.ipc.create pid = (.ok c, ipc)) ∨ ∃ name pid, s.ipc.createNamed name pid = (.ok c, ipc))
    {ops : List IpcOp} (hopen : ∀ op ∈ ops, op ≠ close c) {s' : System}
    (hrun : run ops ⟨ipc, s.kernel⟩ = s') :
    receivedBy c ops ⟨ipc, s.kernel⟩ <+: sentBy c ops ⟨ipc, s.kernel⟩ ∧
      (receivedBy c ops ⟨ipc, s.kernel⟩).length +
          ((s'.ipc.channels c).tail - (s'.ipc.channels c).head).toNat =
        (sentBy c ops ⟨ipc, s.kernel⟩).length ∧
      ((s'.ipc.channels c).tail - (s'.ipc.channels c).head).toNat ≤ 4096 ∧
      ∀ h bytes tf, let r := s'.ipc.send h s'.kernel c bytes tf
        (∃ k', r.1 = .ret (.ok bytes.length) k' ∧
          (r.2.channels c).content = (s'.ipc.channels c).content ++ bytes) ∨
        accepted r.1 = false ∧ (s'.ipc.channels c).Same (r.2.channels c) := by
  have hempty : (ipc.channels c).Open [] := by
    rcases hnew with ⟨pid, hok⟩ | ⟨name, pid, hok⟩
    · exact create_open hok
    · exact createNamed_open hok
  obtain ⟨l, hl, heq⟩ := run_open (s := ⟨ipc, s.kernel⟩) ops hempty hopen
  rw [hrun] at hl
  rw [nil_append] at heq
  have hcount : ((s'.ipc.channels c).tail - (s'.ipc.channels c).head).toNat = l.length :=
    toNat_unread hl.holds
  refine ⟨⟨l, heq⟩, ?_, ?_, fun h bytes tf => ?_⟩
  · rw [hcount, ← heq, length_append]
  · rw [hcount]
    exact hl.holds.length_le
  · rcases send_cases s'.ipc h s'.kernel c bytes tf with ⟨i, ch, k', hi, hok, hret, hch, -⟩ | ⟨hfail, hch⟩
    · obtain rfl := Fin.ext hi
      have hsent := (hl.trySend_ok hok).of_same hch
      refine .inl ⟨k', hret, ?_⟩
      rw [content_eq hl.holds]
      exact content_eq hsent.holds
    · exact .inr ⟨hfail, hch c⟩

/-- A system without channels, and three bytes of which two are received. -/
def emptySystem : System := ⟨{}, Kernel.oneProcess Onx.freshMm 0⟩

def threeBytes : List IpcOp := [send 0 0 [1, 2, 3] none, recv 0 0 2 none]

theorem channel_stream_threeBytes :
    receivedBy 0 threeBytes ⟨(emptySystem.ipc.create 1).2, emptySystem.kernel⟩ = [1, 2] ∧
      receivedBy 0 threeBytes ⟨(emptySystem.ipc.create 1).2, emptySystem.kernel⟩ <+:
        sentBy 0 threeBytes ⟨(emptySystem.ipc.create 1).2, emptySystem.kernel⟩ := by
  refine ⟨by decide +kernel, (channel_stream (.inl ⟨1, rfl⟩) (fun op hop => ?_) rfl).1⟩
  simp only [threeBytes, mem_cons, not_mem_nil, or_false] at hop
  rcases hop with rfl | rfl
  · exact IpcOp.noConfusion
  · exact IpcOp.noConfusion

end IpcOp

end OnyxKernel
