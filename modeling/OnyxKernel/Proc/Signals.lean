import OnyxKernel.Proc.Lifecycle

/-!
# Signals

`kernel/src/proc/signals.rs`: sending a signal, the calls that manage handlers and masks, and
`signal_check`, which the trap handler runs before it returns to user mode.  `copyOut` is the way in
which these and other system calls write through a user pointer: the address of the first byte is
translated, and the bytes go to the physical addresses from there on.
-/

namespace OnyxKernel

open ByteMemory Vmm

def sigKill : Fin nsig := 9
def sigStop : Fin nsig := 19

/-- The mask of one signal. -/
def sigBit (signum : ℕ) : BitVec 32 := 1#32 <<< signum

namespace Kernel

/-- Store `bytes` at the physical address `pa`, on behalf of the user address `va`. -/
def copyOut (va pa : ℕ) (bytes : List UInt8) (k : Kernel) : Kernel :=
  { k with
    mm := { k.mm with mem := k.mm.mem.write pa bytes }
    copied := (List.range bytes.length).map (fun i => (wadd va i, pa + i)) ++ k.copied }

def signalSend (h : Hart) (pid signal : ℕ) (k : Kernel) : Except Errno Kernel :=
  if signal = 0 ∨ nsig ≤ signal then .error .inval
  else
    match k.byPid pid with
    | none => .error .noEnt
    | some p =>
      let k := k.modifyProc p fun r => { r with pendingSignals := r.pendingSignals ||| sigBit signal }
      if (k.proc p).state = .waiting then
        .ok ((k.modifyProc p fun r => { r with state := .ready }).enqueue h p)
      else .ok k

/-- The part of `sigaction` that writes the old action. -/
def sigactionOld (h : Hart) (signum : Fin nsig) (oldactPtr : ℕ) (k : Kernel) : Kernel :=
  if oldactPtr = 0 then k
  else
    let oldPa := translate k.mm.mem (k.current h).rootPa oldactPtr
    if oldPa = 0 then k
    else
      k.copyOut oldactPtr oldPa
        (leBytes 8 ((k.current h).signalHandlers signum) ++ leBytes 8 0 ++ leBytes 8 0 ++ leBytes 8 0)

/-- The part of `sigaction` that reads the new action: the handler and, behind it, signals to be
masked. -/
def sigactionNew (h : Hart) (signum : Fin nsig) (actPtr : ℕ) (k : Kernel) :
    Except Errno Unit × Kernel :=
  if actPtr = 0 then (.ok (), k)
  else
    let newPa := translate k.mm.mem (k.current h).rootPa actPtr
    if newPa = 0 then (.error .inval, k)
    else
      let handler := k.mm.mem.load newPa 8
      let extraMask := k.mm.mem.load (newPa + 8) 8
      (.ok (), k.modifyCurrent h fun r =>
        { r with
          signalHandlers := Function.update r.signalHandlers signum handler
          signalMask := r.signalMask ||| BitVec.ofNat 32 extraMask })

lemma lt_nsig {signum : ℕ} (hsig : ¬(signum = 0 ∨ nsig ≤ signum)) : signum < nsig := by omega

def sigaction (h : Hart) (signum actPtr oldactPtr : ℕ) (k : Kernel) : Except Errno Unit × Kernel :=
  if hsig : signum = 0 ∨ nsig ≤ signum then (.error .inval, k)
  else
    let signum : Fin nsig := ⟨signum, lt_nsig hsig⟩
    if signum = sigKill ∨ signum = sigStop then (.error .inval, k)
    else sigactionNew h signum actPtr (sigactionOld h signum oldactPtr k)

/-- The part of `sigprocmask` that writes the old mask. -/
def sigprocmaskOld (h : Hart) (oldsetPtr : ℕ) (k : Kernel) : Kernel :=
  if oldsetPtr = 0 then k
  else
    let oldPa := translate k.mm.mem (k.current h).rootPa oldsetPtr
    if oldPa = 0 then k
    else k.copyOut oldsetPtr oldPa (leBytes 8 (k.current h).signalMask.toNat)

/-- The part of `sigprocmask` that reads the new mask. -/
def sigprocmaskNew (h : Hart) (how setPtr : ℕ) (k : Kernel) : Except Errno Unit × Kernel :=
  if setPtr = 0 then (.ok (), k)
  else
    let setPa := translate k.mm.mem (k.current h).rootPa setPtr
    if setPa = 0 then (.error .inval, k)
    else
      let allowed := BitVec.ofNat 32 (k.mm.mem.load setPa 8) &&& ~~~(sigBit sigKill ||| sigBit sigStop)
      match how with
      | 0 => (.ok (), k.modifyCurrent h fun r => { r with signalMask := r.signalMask ||| allowed })
      | 1 => (.ok (), k.modifyCurrent h fun r => { r with signalMask := r.signalMask &&& ~~~allowed })
      | 2 => (.ok (), k.modifyCurrent h fun r => { r with signalMask := allowed })
      | _ => (.error .inval, k)

def sigprocmask (h : Hart) (how setPtr oldsetPtr : ℕ) (k : Kernel) : Except Errno Unit × Kernel :=
  sigprocmaskNew h how setPtr (sigprocmaskOld h oldsetPtr k)

/-- `sigreturn`: continue where the signal handler was entered. -/
def sigreturn (h : Hart) (tf : TrapFrame) (k : Kernel) : TrapFrame × Kernel :=
  if (k.current h).inSignalHandler then
    ((k.current h).savedTf, k.modifyCurrent h fun r => { r with inSignalHandler := false })
  else (tf, k)

/-- The lowest signal in a set of pending signals; signal 0 does not count. -/
def lowestSignal (pending : BitVec 32) : Option (Fin nsig) :=
  (List.finRange nsig).find? fun i => i ≠ 0 && pending.getLsbD i

/-- Take a signal out of the pending ones. -/
def clearPending (p : ℕ) (signum : Fin nsig) (k : Kernel) : Kernel :=
  k.modifyProc p fun r => { r with pendingSignals := r.pendingSignals &&& ~~~(sigBit signum) }

/-- End the process `p` for the signal `signum`. -/
def killedBy (h : Hart) (p : ℕ) (signum : Fin nsig) (k : Kernel) : Kernel :=
  (k.exit h (k.proc p).pid (128 + signum)).setNeedResched h true

/-- The trap frame that enters the handler at `handler`. -/
def handlerFrame (handler : ℕ) (signum : Fin nsig) (tf : TrapFrame) : TrapFrame :=
  { tf with sepc := handler, a0 := signum, sp := wsub tf.sp 256 / 16 * 16 }

/-- `signal_check`: deliver a pending signal to the current process. -/
def signalCheck (h : Hart) (tf : TrapFrame) (k : Kernel) : TrapFrame × Kernel :=
  match k.hartCurrent h with
  | none => (tf, k)
  | some p =>
    let r := k.proc p
    if r.pendingSignals &&& sigBit sigKill ≠ 0 then
      (tf, killedBy h p sigKill (clearPending p sigKill k))
    else if r.inSignalHandler then (tf, k)
    else
      match lowestSignal (r.pendingSignals &&& ~~~r.signalMask) with
      | none => (tf, k)
      | some signum =>
        let k := clearPending p signum k
        match r.signalHandlers signum with
        | 0 => (tf, killedBy h p signum k)
        | 1 => (tf, k)
        | handler =>
          (handlerFrame handler signum tf,
            k.modifyProc p fun r => { r with savedTf := tf, inSignalHandler := true })

end Kernel

end OnyxKernel
