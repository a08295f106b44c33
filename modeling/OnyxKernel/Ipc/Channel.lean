import OnyxKernel.Proc.Scheduler

/-!
# Channels

`kernel/src/ipc/channel`: a table of channels, each with a ring buffer of bytes.  The counters of the
buffer are `u32` and wrap; the cell of a counter is its remainder by the size of the buffer.  A sender
that finds no space, or a receiver that finds no byte, is put on the wait list of the channel, which is
linked through the field `wait_next` of the process records, and another process runs.  When it runs
again its call returns; the byte transfer is left to another call.
-/

namespace OnyxKernel

open Function

abbrev chanMax : ℕ := 32
abbrev chanBufSize : ℕ := 4096
abbrev chanNameMax : ℕ := 32
abbrev chanMaxClients : ℕ := 4

instance : NeZero chanBufSize := ⟨by decide⟩

/-- `Channel`.  `clients` and `name` are the used parts of the arrays of the source. -/
structure Channel where
  buf : Fin chanBufSize → UInt8 := fun _ => 0
  head : UInt32 := 0
  tail : UInt32 := 0
  ownerPid : ℕ := 0
  clients : List ℕ := []
  name : List UInt8 := []
  used : Bool := false
  closed : Bool := false
  sendWait : Option ℕ := none
  recvWait : Option ℕ := none

namespace Channel

variable (ch : Channel)

def pidAllowed (pid : ℕ) : Bool := pid == ch.ownerPid || ch.clients.contains pid

/-- The number of bytes to be read, `tail.wrapping_sub(head)`. -/
def unread : UInt32 := ch.tail - ch.head

/-- One round of the loop of `send`. -/
def put (b : UInt8) : Channel :=
  { ch with
    buf := update ch.buf (Fin.ofNat chanBufSize ch.tail.toNat) b
    tail := ch.tail + 1 }

/-- The loop of `recv`: `n` bytes, and the channel behind them. -/
def take : ℕ → Channel → List UInt8 × Channel
  | 0, ch => ([], ch)
  | n + 1, ch =>
    let b := ch.buf (Fin.ofNat chanBufSize ch.head.toNat)
    let (bs, ch) := take n { ch with head := ch.head + 1 }
    (b :: bs, ch)

/-- `send` on an open channel up to the point where processes are woken. -/
def trySend (pid : ℕ) (bytes : List UInt8) : Except Errno Channel :=
  if !ch.used || ch.closed then .error .pipe
  else if !ch.pidAllowed pid then .error .perm
  else if (UInt32.ofNat chanBufSize - ch.unread).toNat < bytes.length then .error .busy
  else .ok (bytes.foldl put ch)

/-- `recv` up to the same point; `none` is for a channel without a byte. -/
def tryRecv (pid len : ℕ) : Except Errno (Option (List UInt8 × Channel)) :=
  if !ch.used || ch.closed then .error .pipe
  else if !ch.pidAllowed pid then .error .perm
  else if ch.unread = 0 then .ok none
  else .ok (some (ch.take (min len ch.unread.toNat)))

end Channel

/-- The channels, and the links of the wait lists. -/
structure Ipc where
  channels : Fin chanMax → Channel := fun _ => {}
  waitNext : ℕ → Option ℕ := fun _ => none

namespace Ipc

/-- Replace a channel. -/
def set (s : Ipc) (i : Fin chanMax) (ch : Channel) : Ipc :=
  { s with channels := update s.channels i ch }

/-! ### Wait lists -/

/-- `wait_enqueue` for the list at `head`: the new head, the links and the processes. -/
def waitEnqueue (h : Hart) (head : Option ℕ) (next : ℕ → Option ℕ) (k : Kernel) :
    Option ℕ × (ℕ → Option ℕ) × Kernel :=
  let p := (k.hartCurrent h).getD 0
  (some p, update next p head, k.modifyProc p fun r => { r with state := .waiting })

/-- The processes that the loop of `wait_wake_all` comes to, and the links after it.  A link is cleared
when it has been followed, so the loop ends after at most one round more than there are addresses. -/
def waitChain : (fuel : ℕ) → (next : ℕ → Option ℕ) → Option ℕ → List ℕ × (ℕ → Option ℕ)
  | 0, next, _ => ([], next)
  | _ + 1, next, none => ([], next)
  | fuel + 1, next, some p =>
    let (ps, next') := waitChain fuel (update next p none) (next p)
    (p :: ps, next')

/-- `wait_wake_all`: the processes become ready.  They are not put into a run queue. -/
def waitWakeAll (head : Option ℕ) (next : ℕ → Option ℕ) (k : Kernel) : (ℕ → Option ℕ) × Kernel :=
  let (ps, next) := waitChain (wordSize + 1) next head
  (next, ps.foldl (fun k p => k.modifyProc p fun r => { r with state := .ready }) k)

/-! ### Sending and receiving -/

variable (s : Ipc) (h : Hart) (k : Kernel)

def send (chanId : ℕ) (bytes : List UInt8) (tf : Option TrapFrame) : Flow (Except Errno ℕ) × Ipc :=
  if hid : chanId < chanMax then
    let i : Fin chanMax := ⟨chanId, hid⟩
    let ch := s.channels i
    match ch.trySend (k.currentPid h) bytes with
    | .error .busy =>
      match tf with
      | none => (.ret (.error .busy) k, s)
      | some tf =>
        let (head, next, k) := waitEnqueue h ch.sendWait s.waitNext k
        (((k.setNeedResched h true).schedYield h tf).bind fun _ k => .ret (.error .busy) k,
          { s.set i { ch with sendWait := head } with waitNext := next })
    | .error e => (.ret (.error e) k, s)
    | .ok ch =>
      if ch.recvWait = none then (.ret (.ok bytes.length) k, s.set i ch)
      else
        let (next, k) := waitWakeAll ch.recvWait s.waitNext k
        (.ret (.ok bytes.length) (k.setNeedResched h true),
          { s.set i { ch with recvWait := none } with waitNext := next })
  else (.ret (.error .inval) k, s)

/-- `recv`.  A call that had to wait returns no byte. -/
def recv (chanId len : ℕ) (tf : Option TrapFrame) : Flow (Except Errno (List UInt8)) × Ipc :=
  if hid : chanId < chanMax then
    let i : Fin chanMax := ⟨chanId, hid⟩
    let ch := s.channels i
    match ch.tryRecv (k.currentPid h) len with
    | .error e => (.ret (.error e) k, s)
    | .ok none =>
      match tf with
      | none => (.ret (.ok []) k, s)
      | some tf =>
        let (head, next, k) := waitEnqueue h ch.recvWait s.waitNext k
        (((k.setNeedResched h true).schedYield h tf).bind fun _ k => .ret (.ok []) k,
          { s.set i { ch with recvWait := head } with waitNext := next })
    | .ok (some (bytes, ch)) =>
      if ch.sendWait = none then (.ret (.ok bytes) k, s.set i ch)
      else
        let (next, k) := waitWakeAll ch.sendWait s.waitNext k
        (.ret (.ok bytes) (k.setNeedResched h true),
          { s.set i { ch with sendWait := none } with waitNext := next })
  else (.ret (.error .inval) k, s)

/-! ### What sending and receiving have in common -/

end Ipc

/-- The two wait lists of a channel, `send_wait` and `recv_wait`. -/
inductive Side where
  | send
  | recv
  deriving DecidableEq

namespace Channel

/-- The head of a wait list. -/
def waitOf (ch : Channel) : Side → Option ℕ
  | .send => ch.sendWait
  | .recv => ch.recvWait

def setWait (ch : Channel) (head : Option ℕ) : Side → Channel
  | .send => { ch with sendWait := head }
  | .recv => { ch with recvWait := head }

/-- What `send` finds: an error, no space, or the number of bytes and the channel with them. -/
def sends (pid : ℕ) (bytes : List UInt8) (ch : Channel) : Except Errno (Option (ℕ × Channel)) :=
  match ch.trySend pid bytes with
  | .error .busy => .ok none
  | .error e => .error e
  | .ok ch => .ok (some (bytes.length, ch))

lemma sends_eq_none_iff {pid : ℕ} {bytes : List UInt8} {ch : Channel} :
    ch.sends pid bytes = .ok none ↔ ch.trySend pid bytes = .error .busy := by
  unfold sends
  cases ch.trySend pid bytes with
  | error e => cases e <;> simp
  | ok ch1 => simp

lemma sends_eq_some_iff {pid : ℕ} {bytes : List UInt8} {ch ch' : Channel} {n : ℕ} :
    ch.sends pid bytes = .ok (some (n, ch')) ↔ n = bytes.length ∧ ch.trySend pid bytes = .ok ch' := by
  unfold sends
  cases ch.trySend pid bytes with
  | error e => cases e <;> simp
  | ok ch1 => simp [eq_comm]

end Channel

namespace Ipc

variable (s : Ipc) (h : Hart) (k : Kernel)

/-- A call that tries to move bytes: it fails, waits in the list `side` and returns `idle`, or returns what
it has moved and wakes the list `other`. -/
def transfer {α : Type} (chanId : ℕ) (tf : Option TrapFrame) (side other : Side) (idle : Except Errno α)
    (tried : Channel → Except Errno (Option (α × Channel))) : Flow (Except Errno α) × Ipc :=
  if hid : chanId < chanMax then
    let i : Fin chanMax := ⟨chanId, hid⟩
    let ch := s.channels i
    match tried ch with
    | .error e => (.ret (.error e) k, s)
    | .ok none =>
      match tf with
      | none => (.ret idle k, s)
      | some tf =>
        let (head, next, k) := waitEnqueue h (ch.waitOf side) s.waitNext k
        (((k.setNeedResched h true).schedYield h tf).bind fun _ k => .ret idle k,
          { s.set i (ch.setWait head side) with waitNext := next })
    | .ok (some (a, ch)) =>
      if ch.waitOf other = none then (.ret (.ok a) k, s.set i ch)
      else
        let (next, k) := waitWakeAll (ch.waitOf other) s.waitNext k
        (.ret (.ok a) (k.setNeedResched h true), { s.set i (ch.setWait none other) with waitNext := next })
  else (.ret (.error .inval) k, s)

lemma send_eq (chanId : ℕ) (bytes : List UInt8) (tf : Option TrapFrame) : s.send h k chanId bytes tf =
      s.transfer h k chanId tf .send .recv (.error .busy) (Channel.sends (k.currentPid h) bytes) := by
  unfold send transfer Channel.sends
  split
  · dsimp only
    cases (s.channels _).trySend (k.currentPid h) bytes with
    | error e => cases e <;> rfl
    | ok ch => rfl
  · rfl

lemma recv_eq (chanId len : ℕ) (tf : Option TrapFrame) : s.recv h k chanId len tf =
      s.transfer h k chanId tf .recv .send (.ok []) (Channel.tryRecv · (k.currentPid h) len) := by
  unfold recv transfer
  split
  · dsimp only
    cases (s.channels _).tryRecv (k.currentPid h) len with
    | error e => rfl
    | ok res => rcases res with _ | ⟨bytes, ch⟩ <;> rfl
  · rfl

variable {s h k}

/-- What such a call can do. -/
@[elab_as_elim]
lemma transfer_cases {α : Type} {chanId : ℕ} {tf : Option TrapFrame} {side other : Side} {idle : Except Errno α}
    {tried : Channel → Except Errno (Option (α × Channel))} {P : Flow (Except Errno α) × Ipc → Prop}
    {x : Flow (Except Errno α) × Ipc} (hx : s.transfer h k chanId tf side other idle tried = x)
    (left : ∀ r, (r = idle ∨ ∃ e, r = .error e) →
      (tf = none ∨ ∀ i : Fin chanMax, i = chanId → tried (s.channels i) ≠ .ok none) → P (.ret r k, s))
    (waits : ∀ (i : Fin chanMax) (tf' : TrapFrame), i = chanId → tf = some tf' →
      tried (s.channels i) = .ok none →
      P ((((waitEnqueue h ((s.channels i).waitOf side) s.waitNext k).2.2.setNeedResched h true).schedYield h tf').bind
          fun _ k => .ret idle k,
        { s.set i ((s.channels i).setWait (waitEnqueue h ((s.channels i).waitOf side) s.waitNext k).1 side) with
          waitNext := (waitEnqueue h ((s.channels i).waitOf side) s.waitNext k).2.1 }))
    (moves : ∀ (i : Fin chanMax) a ch, i = chanId → tried (s.channels i) = .ok (some (a, ch)) →
      P (.ret (.ok a) k, s.set i ch))
    (wakes : ∀ (i : Fin chanMax) a ch, i = chanId → tried (s.channels i) = .ok (some (a, ch)) →
      P (.ret (.ok a) ((waitWakeAll (ch.waitOf other) s.waitNext k).2.setNeedResched h true),
        { s.set i (ch.setWait none other) with waitNext := (waitWakeAll (ch.waitOf other) s.waitNext k).1 })) :
    P x := by
  subst hx
  unfold transfer
  by_cases hid : chanId < chanMax
  · rw [dif_pos hid]
    dsimp only
    cases htry : tried (s.channels ⟨chanId, hid⟩) with
    | error e =>
      refine left _ (.inr ⟨e, rfl⟩) (.inr fun i hi hnone => ?_)
      rw [show i = ⟨chanId, hid⟩ from Fin.ext hi, htry] at hnone
      cases hnone
    | ok res =>
      rcases res with _ | ⟨a, ch⟩
      · cases tf with
        | none => exact left _ (.inl rfl) (.inl rfl)
        | some tf => exact waits ⟨chanId, hid⟩ tf rfl rfl htry
      · dsimp only
        split
        · exact moves ⟨chanId, hid⟩ a ch rfl htry
        · exact wakes ⟨chanId, hid⟩ a ch rfl htry
  · rw [dif_neg hid]
    exact left _ (.inr ⟨_, rfl⟩) (.inr fun i hi => absurd (hi ▸ i.isLt) hid)

variable (s)

/-! ### The table -/

/-- The first channel of the table with a property. -/
def findChannel (p : Channel → Bool) : Option (Fin chanMax) :=
  (List.finRange chanMax).find? fun i => p (s.channels i)

def create (ownerPid : ℕ) : Except Errno (Fin chanMax) × Ipc :=
  match s.findChannel fun ch => !ch.used with
  | some i => (.ok i, s.set i { ownerPid := ownerPid, used := true })
  | none => (.error .noMem, s)

def findByName (name : List UInt8) : Option (Fin chanMax) :=
  s.findChannel fun ch => ch.used && ch.name == name

def createNamed (name : List UInt8) (ownerPid : ℕ) : Except Errno (Fin chanMax) × Ipc :=
  if name.isEmpty || decide (chanNameMax - 1 < name.length) then (.error .inval, s)
  else if (s.findByName name).isSome then (.error .exist, s)
  else
    match s.create ownerPid with
    | (.error e, s) => (.error e, s)
    | (.ok i, s) => (.ok i, s.set i { s.channels i with name := name })

def openByName (name : List UInt8) (clientPid : ℕ) : Except Errno (Fin chanMax) × Ipc :=
  match s.findByName name with
  | none => (.error .noEnt, s)
  | some i =>
    let ch := s.channels i
    if chanMaxClients ≤ ch.clients.length then (.error .noMem, s)
    else if ch.clients.contains clientPid then (.ok i, s)
    else (.ok i, s.set i { ch with clients := ch.clients ++ [clientPid] })

def connect (chanId clientPid : ℕ) : Except Errno Unit × Ipc :=
  if hid : chanId < chanMax then
    let i : Fin chanMax := ⟨chanId, hid⟩
    let ch := s.channels i
    if !ch.used then (.error .noEnt, s)
    else if chanMaxClients ≤ ch.clients.length then (.error .noMem, s)
    else (.ok (), s.set i { ch with clients := ch.clients ++ [clientPid] })
  else (.error .inval, s)

/-- `disconnect`: the last client takes the place of the one that leaves. -/
def disconnect (chanId pid : ℕ) : Ipc :=
  if hid : chanId < chanMax then
    let i : Fin chanMax := ⟨chanId, hid⟩
    let ch := s.channels i
    if !ch.used then s
    else
      match ch.clients.idxOf? pid with
      | none => s
      | some j => s.set i { ch with clients := (ch.clients.set j (ch.clients.getLastD 0)).dropLast }
  else s

def close (chanId : ℕ) : Except Errno Unit × Ipc :=
  if hid : chanId < chanMax then
    let i : Fin chanMax := ⟨chanId, hid⟩
    let ch := s.channels i
    if !ch.used then (.error .noEnt, s)
    else (.ok (), s.set i { ch with closed := true, used := false })
  else (.error .inval, s)

end Ipc

end OnyxKernel
