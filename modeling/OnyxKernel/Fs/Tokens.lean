import OnyxKernel.Fs.Descriptors
import OnyxKernel.Fs.Write
import OnyxKernel.Syscall.Confinement

/-!
# Tokens of descriptors

A token is a slot together with the epoch of one of its allocations.  In a run of the calls of a process
the ledger keeps what was issued, what was closed and how often each slot was allocated.  While no slot is
allocated `2 ^ 32 - 1` times its epochs do not come back, so the tokens that were issued are different from
each other, and `fd_check` accepts only the token of the allocation that a slot is in.

An `open` that fails breaks this.  It takes a slot before it looks for the file and does not give the slot
back, which then is in use for a token that was never issued, with the new permissions and with the file
that the slot was for before.
-/

namespace OnyxKernel

open Triple Kernel KResult List Nat FdTable
open Function (update update_self update_of_ne)

/-! ### Epochs -/

/-- The epoch of a slot after `n` more allocations. -/
def epochAfter (epoch n : ℕ) : ℕ := nextEpoch^[n] epoch

lemma epochAfter_succ (epoch n : ℕ) : epochAfter epoch (n + 1) = nextEpoch (epochAfter epoch n) :=
  Function.iterate_succ_apply' _ _ _

lemma nextEpoch_eq {epoch : ℕ} (he : epoch < 2 ^ 32) : nextEpoch epoch = epoch % (2 ^ 32 - 1) + 1 := by
  unfold nextEpoch
  split <;> omega

lemma epochAfter_succ_eq {epoch : ℕ} (he : epoch < 2 ^ 32) (n : ℕ) :
    epochAfter epoch (n + 1) = (epoch + n) % (2 ^ 32 - 1) + 1 := by
  induction n with
  | zero => exact nextEpoch_eq he
  | succ n ih =>
    rw [epochAfter_succ, ih, nextEpoch_eq (by omega), mod_add_mod]
    rfl

lemma epochAfter_lt {epoch : ℕ} (he : epoch < 2 ^ 32) (n : ℕ) : epochAfter epoch n < 2 ^ 32 := by
  cases n with
  | zero => exact he
  | succ n =>
    rw [epochAfter_succ_eq he]
    omega

lemma epochAfter_ne {epoch m n : ℕ} (he : epoch < 2 ^ 32) (hmn : m < n) (hn : n < 2 ^ 32 - 1) :
    epochAfter epoch m ≠ epochAfter epoch n := by
  obtain ⟨n, rfl⟩ : ∃ n', n = n' + 1 := ⟨n - 1, by omega⟩
  rw [epochAfter_succ_eq he]
  cases m with
  | zero =>
    show epoch ≠ _
    omega
  | succ m =>
    rw [epochAfter_succ_eq he]
    omega

lemma epochAfter_inj {epoch m n : ℕ} (he : epoch < 2 ^ 32) (hm : m < 2 ^ 32 - 1) (hn : n < 2 ^ 32 - 1)
    (heq : epochAfter epoch m = epochAfter epoch n) : m = n := by
  rcases lt_trichotomy m n with hlt | heq' | hgt
  · exact absurd heq (epochAfter_ne he hlt hn)
  · exact heq'
  · exact absurd heq.symm (epochAfter_ne he hgt hm)

/-- The slot of a token. -/
def slotOf (token : ℕ) : Fin vfsMaxFds := Fin.ofNat vfsMaxFds (token / 2 ^ 32)

lemma slotOf_fdToken {i : Fin vfsMaxFds} {epoch : ℕ} (he : epoch < 2 ^ 32) : slotOf (fdToken i epoch) = i := by
  apply Fin.ext
  have hdiv : fdToken i epoch / 2 ^ 32 = i := by
    unfold fdToken
    omega
  rw [slotOf, hdiv]
  exact mod_eq_of_lt i.isLt

lemma fdToken_inj {i j : Fin vfsMaxFds} {e e' : ℕ} (he : e < 2 ^ 32) (he' : e' < 2 ^ 32)
    (heq : fdToken i e = fdToken j e') : i = j ∧ e = e' := by
  have hij : i = j := by rw [← slotOf_fdToken (i := i) he, heq, slotOf_fdToken he']
  refine ⟨hij, ?_⟩
  rw [hij, fdToken, fdToken] at heq
  exact add_left_cancel heq

/-! ### The ledger -/

/-- A token and what it was issued for. -/
structure Issue where
  token : ℕ
  ino : ℕ
  fs : VfsFs
  perms : ℕ
  deriving DecidableEq, Repr

/-- The descriptor of a token in a table. -/
def Issue.of (t : FdTable) (token : ℕ) : Issue :=
  { token, ino := (t (slotOf token)).ino, fs := (t (slotOf token)).fs, perms := (t (slotOf token)).perms }

/-- What a process has got and given back. -/
structure Ledger where
  issued : List Issue
  closed : List ℕ
  /-- How often each slot was allocated. -/
  allocated : Fin vfsMaxFds → ℕ

namespace Ledger

/-- The ledger of a process that starts with the descriptors in `t`. -/
def start (t : FdTable) : Ledger where
  issued := ((finRange vfsMaxFds).filter fun i => (t i).used).map fun i =>
    Issue.of t (fdToken i (t i).epoch)
  closed := []
  allocated := fun _ => 0

/-- A call that changes the table from `t` to `t'`, returns tokens and closes tokens. -/
def record (l : Ledger) (t t' : FdTable) (tokens closed : List ℕ) : Ledger where
  issued := l.issued ++ tokens.map (Issue.of t')
  closed := l.closed ++ closed
  allocated := fun i => l.allocated i + if (t i).used = false ∧ (t' i).used = true then 1 else 0

/-- The ledger accounts for the table `t` of a process that started with `t0`. -/
structure Honest (t0 t : FdTable) (l : Ledger) : Prop where
  epoch_eq : ∀ i, (t i).epoch = epochAfter (t0 i).epoch (l.allocated i)
  /-- Tokens are for allocations up to the last one. -/
  issued : ∀ r ∈ l.issued, ∃ i, ∃ n ≤ l.allocated i, r.token = fdToken i (epochAfter (t0 i).epoch n)
  nodup : (l.issued.map Issue.token).Nodup
  /-- A slot in use has its token in the ledger. -/
  current : ∀ i, (t i).used = true → Issue.of t (fdToken i (t i).epoch) ∈ l.issued
  /-- If a token for the last allocation was closed, the slot is free. -/
  closed : ∀ token ∈ l.closed, ∃ i, ∃ n ≤ l.allocated i,
    token = fdToken i (epochAfter (t0 i).epoch n) ∧ (n = l.allocated i → (t i).used = false)

variable {t0 t t' : FdTable} {l : Ledger} {i : Fin vfsMaxFds} {fd : VfsFd}

lemma honest_start (he : ∀ i, (t0 i).epoch < 2 ^ 32) : (start t0).Honest t0 t0 where
  epoch_eq := fun _ => rfl
  issued := by
    intro r hr
    obtain ⟨i, -, rfl⟩ := mem_map.mp hr
    exact ⟨i, 0, le_rfl, rfl⟩
  nodup := by
    rw [start, map_map]
    refine List.Nodup.map_on ?_ ((nodup_finRange _).filter _)
    intro i _ j _ heq
    exact (fdToken_inj (he i) (he j) heq).1
  current := by
    intro i hused
    exact mem_map.mpr ⟨i, mem_filter.mpr ⟨mem_finRange i, hused⟩, rfl⟩
  closed := fun _ hmem => absurd hmem not_mem_nil

namespace Honest

section

variable (hl : l.Honest t0 t)
include hl

lemma epoch_lt (he : ∀ i, (t0 i).epoch < 2 ^ 32) (i : Fin vfsMaxFds) : (t i).epoch < 2 ^ 32 := by
  rw [hl.epoch_eq]
  exact epochAfter_lt (he i) _

lemma keep {closed : List ℕ} (hof : ∀ token, Issue.of t' token = Issue.of t token)
    (hepoch : ∀ i, (t' i).epoch = (t i).epoch) (hused : ∀ i, (t' i).used = true → (t i).used = true)
    (hclosed : ∀ token ∈ closed, ∃ i, token = fdToken i (t i).epoch ∧ (t' i).used = false) :
    (l.record t t' [] closed).Honest t0 t' := by
  have halloc : (l.record t t' [] closed).allocated = l.allocated := by
    funext i
    have hnew : ¬((t i).used = false ∧ (t' i).used = true) := fun h => by simp [hused i h.2] at h
    simp only [record, if_neg hnew, add_zero]
  have hissued : (l.record t t' [] closed).issued = l.issued := append_nil _
  refine ⟨?_, ?_, ?_, ?_, ?_⟩
  · intro i
    rw [hepoch, halloc, hl.epoch_eq]
  · rw [hissued, halloc]
    exact hl.issued
  · rw [hissued]
    exact hl.nodup
  · intro i hi
    rw [hepoch, hof, hissued]
    exact hl.current i (hused i hi)
  · intro token htoken
    rw [halloc]
    rcases mem_append.mp htoken with hold | hnew
    · obtain ⟨i, n, hn, heq, hfree⟩ := hl.closed token hold
      refine ⟨i, n, hn, heq, fun h => Bool.eq_false_iff.mpr fun hi => ?_⟩
      exact Bool.false_ne_true ((hfree h).symm.trans (hused i hi))
    · obtain ⟨i, heq, hfree⟩ := hclosed token hnew
      exact ⟨i, l.allocated i, le_rfl, by rw [heq, hl.epoch_eq], fun _ => hfree⟩

lemma quiet (hsame : ∀ i, (t i).SameFile (t' i)) : (l.record t t' [] []).Honest t0 t' := by
  refine hl.keep (fun token => ?_) (fun i => (hsame i).fields.2.1) (fun i hi => (hsame i).fields.1 ▸ hi) nofun
  obtain ⟨-, -, hino, hfs, hperms⟩ := (hsame (slotOf token)).fields
  rw [Issue.of, hino, hfs, hperms, Issue.of]

lemma clear (i : Fin vfsMaxFds) :
    (l.record t (update t i { t i with used := false }) [] [fdToken i (t i).epoch]).Honest t0
      (update t i { t i with used := false }) := by
  obtain ⟨t', ht'⟩ : ∃ t', t' = update t i { t i with used := false } := ⟨_, rfl⟩
  rw [← ht']
  have hself : t' i = { t i with used := false } := ht' ▸ update_self ..
  have hne : ∀ j, j ≠ i → t' j = t j := fun j hj => ht' ▸ update_of_ne hj ..
  refine hl.keep (fun token => ?_) (fun j => ?_) (fun j hj => ?_) fun token htoken => ?_
  · unfold Issue.of
    by_cases hj : slotOf token = i
    · rw [hj, hself]
    · rw [hne _ hj]
  · by_cases hj : j = i
    · rw [hj, hself]
    · rw [hne j hj]
  · by_cases hji : j = i
    · rw [hji, hself] at hj
      cases hj
    · rwa [hne j hji] at hj
  · exact ⟨i, mem_singleton.mp htoken, by rw [hself]⟩

section

variable (he : ∀ i, (t0 i).epoch < 2 ^ 32)
include he

lemma take (hfree : (t i).used = false) (hfd : fd.TakenFrom (t i))
    (hbound : (l.record t (update t i fd) [fdToken i fd.epoch] []).allocated i < 2 ^ 32 - 1) :
    (l.record t (update t i fd) [fdToken i fd.epoch] []).Honest t0 (update t i fd) := by
  obtain ⟨t', ht'⟩ : ∃ t', t' = update t i fd := ⟨_, rfl⟩
  rw [← ht'] at hbound ⊢
  obtain ⟨l', hl'⟩ : ∃ l', l' = l.record t t' [fdToken i fd.epoch] [] := ⟨_, rfl⟩
  rw [← hl'] at hbound ⊢
  have hself : t' i = fd := ht' ▸ update_self ..
  have hne : ∀ j, j ≠ i → t' j = t j := fun j hj => ht' ▸ update_of_ne hj ..
  have halloc : l'.allocated i = l.allocated i + 1 := by simp [hl', record, hself, hfree, hfd.used]
  have halloc_ne : ∀ j, j ≠ i → l'.allocated j = l.allocated j := by
    intro j hj
    simp [hl', record, hne j hj]
  have hle : ∀ j, l.allocated j ≤ l'.allocated j := fun j => hl' ▸ le_add_right _ _
  have hepoch : fd.epoch = epochAfter (t0 i).epoch (l'.allocated i) := by
    rw [hfd.epoch, halloc, epochAfter_succ, hl.epoch_eq]
  have hissued : l'.issued = l.issued ++ [Issue.of t' (fdToken i fd.epoch)] := hl' ▸ rfl
  -- the token is not one of those issued before
  have hnew : ∀ j n, n ≤ l.allocated j → fdToken j (epochAfter (t0 j).epoch n) ≠ fdToken i fd.epoch := by
    intro j n hn heq
    rw [hepoch] at heq
    obtain ⟨rfl, heq⟩ := fdToken_inj (epochAfter_lt (he j) n) (epochAfter_lt (he i) _) heq
    have hneq := epochAfter_inj (he j) (by omega) hbound heq
    omega
  refine ⟨?_, ?_, ?_, ?_, ?_⟩
  · intro j
    by_cases hj : j = i
    · rw [hj, hself, hepoch]
    · rw [hne j hj, halloc_ne j hj, hl.epoch_eq]
  · intro r hr
    rcases mem_append.mp (hissued ▸ hr) with hold | hnew
    · obtain ⟨j, n, hn, heq⟩ := hl.issued r hold
      exact ⟨j, n, hn.trans (hle j), heq⟩
    · rw [mem_singleton.mp hnew]
      exact ⟨i, _, le_rfl, congrArg (fdToken i) hepoch⟩
  · rw [hissued, map_append]
    refine List.Nodup.append hl.nodup (nodup_singleton _) ?_
    intro token hold htoken
    obtain ⟨r, hr, rfl⟩ := mem_map.mp hold
    obtain ⟨j, n, hn, heq⟩ := hl.issued r hr
    exact hnew j n hn (heq.symm.trans (mem_singleton.mp htoken))
  · intro j hj
    rw [hissued]
    by_cases hji : j = i
    · rw [hji, hself]
      exact mem_append_right _ (mem_singleton_self _)
    · rw [hne j hji] at hj ⊢
      refine mem_append_left _ ?_
      have hof : Issue.of t' (fdToken j (t j).epoch) = Issue.of t (fdToken j (t j).epoch) := by
        rw [Issue.of, Issue.of, slotOf_fdToken (hl.epoch_lt he j), hne j hji]
      rw [hof]
      exact hl.current j hj
  · intro token htoken
    rw [hl', record, append_nil] at htoken
    obtain ⟨j, n, hn, heq, hfree'⟩ := hl.closed token htoken
    refine ⟨j, n, hn.trans (hle j), heq, fun h => ?_⟩
    by_cases hj : j = i
    · rw [hj] at hn h
      omega
    · rw [hne j hj]
      exact hfree' (h.trans (halloc_ne j hj))

lemma takeTwo {j : Fin vfsMaxFds} {fd' : VfsFd}
    (hne : i ≠ j) (hfree : (t i).used = false) (hfree' : (t j).used = false) (hfd : fd.TakenFrom (t i))
    (hfd' : fd'.TakenFrom (t j))
    (hbound : ∀ k, (l.record t (update (update t i fd) j fd')
      [fdToken i fd.epoch, fdToken j fd'.epoch] []).allocated k < 2 ^ 32 - 1) :
    (l.record t (update (update t i fd) j fd')
      [fdToken i fd.epoch, fdToken j fd'.epoch] []).Honest t0 (update (update t i fd) j fd') := by
  obtain ⟨t1, ht1⟩ : ∃ t1, t1 = update t i fd := ⟨_, rfl⟩
  rw [← ht1] at hbound ⊢
  have hj : t1 j = t j := ht1 ▸ update_of_ne hne.symm ..
  have htwo : l.record t (update t1 j fd') [fdToken i fd.epoch, fdToken j fd'.epoch] [] =
      (l.record t t1 [fdToken i fd.epoch] []).record t1 (update t1 j fd')
        [fdToken j fd'.epoch] [] := by
    have hepoch : fd.epoch < 2 ^ 32 := by
      rw [hfd.epoch, nextEpoch_eq (hl.epoch_lt he i)]
      omega
    have hof : Issue.of (update t1 j fd') (fdToken i fd.epoch) = Issue.of t1 (fdToken i fd.epoch) := by
      rw [Issue.of, Issue.of, slotOf_fdToken hepoch, update_of_ne hne]
    unfold record
    congr 1
    · simp [hof]
    · simp
    · funext k
      by_cases hkj : k = j
      · simp [hkj, hj, hfree']
      · rw [update_of_ne hkj]
        simp
  rw [htwo] at hbound ⊢
  have hbound1 : (l.record t t1 [fdToken i fd.epoch] []).allocated i < 2 ^ 32 - 1 :=
    (le_add_right _ _).trans_lt (hbound i)
  rw [ht1] at hbound1
  have hl1 := hl.take he hfree hfd hbound1
  rw [← ht1] at hl1
  exact hl1.take he (hj ▸ hfree') (hj ▸ hfd') (hbound j)

lemma effect {succeeds : Bool} {tokens closed : List ℕ} (heff : Vfs.FdEffect t succeeds tokens closed t')
    (hkept : succeeds = false → ∀ i, (t' i).used = (t i).used)
    (hbound : ∀ i, (l.record t t' tokens closed).allocated i < 2 ^ 32 - 1) :
    (l.record t t' tokens closed).Honest t0 t' := by
  cases heff with
  | quiet hsame => exact hl.quiet hsame
  | closed hused => exact hl.clear _
  | issued hfree hfd => exact hl.take he hfree hfd (hbound _)
  | issuedTwo hne hfree hfree' hfd hfd' => exact hl.takeTwo he hne hfree hfree' hfd hfd' hbound
  | @leaked i perms hfree =>
    have hused := hkept rfl i
    rw [update_self, hfree] at hused
    cases hused

end

end

end Honest

end Ledger

/-! ### Runs of calls -/

/-- A call that issues, closes or uses tokens. -/
inductive FdCall where
  | openFile (path : List UInt8) (perms : ℕ)
  | create (path : List UInt8) (mode : ℕ)
  | dup (token : ℕ)
  | createPipe
  | close (token : ℕ)
  | read (token len : ℕ)
  | write (token : ℕ) (data : List UInt8)
  | lseek (token : ℕ) (off : ℤ) (whence : ℕ)
  | stat (token : ℕ)
  | ftruncate (token length : ℕ)
  | getdents64 (readdir : Readdir) (b : Block) (token buf count : ℕ)

namespace FdCall

/-- The call, which returns tokens. -/
def run (D : Drivers) (h : Hart) : FdCall → VfsM (List ℕ)
  | openFile path perms => do return [← Vfs.openFile D h path perms]
  | create path mode => do return [← Vfs.create h path mode]
  | dup token => do return [← Vfs.dup h token]
  | createPipe => do
    let (r, w) ← Vfs.createPipe h
    return [r, w]
  | close token => do
    Vfs.close h token
    return []
  | read token len => do
    let _ ← Vfs.read D h token len
    return []
  | write token data => do
    let _ ← Vfs.write h token data
    return []
  | lseek token off whence => do
    let _ ← Vfs.lseek h token off whence
    return []
  | stat token => do
    let _ ← Vfs.stat h token
    return []
  | ftruncate token length => do
    Vfs.ftruncate h token length
    return []
  | getdents64 readdir b token buf len => do
    let _ ← Vfs.getdents64 h readdir b token buf len
    return []

/-- The tokens that the call gives back when it succeeds. -/
def closes : FdCall → List ℕ
  | close token => [token]
  | _ => []

/-- The call does not lose a slot: `open` finds its file, and `create_pipe` has two free slots or none. -/
def Settles (p : ℕ) (D : Drivers) (h : Hart) : FdCall → Vfs → Prop
  | openFile path _, v =>
    path.head? = some Onyxfs.slash → freeSlot (v.fds p) ≠ none → v.Finds D h path
  | createPipe, v => (freeSlots (v.fds p)).length ≠ 1
  | _, _ => True

variable {D : Drivers} {h : Hart} {p : ℕ} {v : Vfs} {α : Type} {r : EStateM.Result Errno Vfs (List ℕ)}
  {e : Errno} {v' : Vfs}

lemma hasEffect_map {f : VfsM α} {tokens : α → List ℕ} {closed : List ℕ}
    (hf : Vfs.HasEffect p v tokens closed (f v)) :
    Vfs.HasEffect p v id closed ((f >>= fun a => pure (tokens a)) v) := by
  cases hr : f v with
  | ok a v' =>
    rw [hr] at hf
    rwa [bind_of_ok hr]
  | error e v' =>
    rw [hr] at hf
    rwa [bind_of_error hr]

lemma hasEffect_of_sameFiles {f : VfsM α} (hp : v.kernel.InProcess h p)
    (hf : Preserves (Vfs.SameFiles h p (v.fds p)) f) : Vfs.HasEffect p v (fun _ => []) [] (f v) := by
  have hsame := (hf v (Vfs.sameFiles_self hp)).2
  cases hr : f v with
  | ok a v' =>
    rw [hr] at hsame
    exact .quiet hsame
  | error e v' =>
    rw [hr] at hsame
    exact .quiet hsame

/-- A call that fails leaves the same slots in use. -/
def FailsCleanly (p : ℕ) (v : Vfs) (r : EStateM.Result Errno Vfs (List ℕ)) : Prop :=
  match r with
  | .ok _ _ => True
  | .error _ v' => ∀ i, (v'.fds p i).used = (v.fds p i).used

lemma hasEffect_run (hp : v.kernel.InProcess h p) (c : FdCall) :
    Vfs.HasEffect p v id c.closes (c.run D h v) := by
  cases c with
  | openFile path perms => exact hasEffect_map (Vfs.openFile_effect hp path perms)
  | create path mode => exact hasEffect_map (Vfs.create_effect hp path mode)
  | dup token => exact hasEffect_map (Vfs.dup_effect hp token)
  | createPipe => exact hasEffect_map (Vfs.createPipe_effect hp)
  | close token => exact hasEffect_map (Vfs.close_effect hp token)
  | read token len => exact hasEffect_map (hasEffect_of_sameFiles hp (Vfs.sameFiles_read token len))
  | write token data => exact hasEffect_map (hasEffect_of_sameFiles hp (Vfs.sameFiles_write token data))
  | lseek token off whence =>
    exact hasEffect_map (hasEffect_of_sameFiles hp (Vfs.sameFiles_lseek token off whence))
  | stat token => exact hasEffect_map (hasEffect_of_sameFiles hp (Vfs.preserves_stat token))
  | ftruncate token length =>
    exact hasEffect_map (hasEffect_of_sameFiles hp (Vfs.sameFiles_ftruncate token length))
  | getdents64 readdir b token buf count =>
    exact hasEffect_map (hasEffect_of_sameFiles hp (Vfs.sameFiles_getdents64 readdir b token buf count))

lemma failsCleanly_of_effect
    (hr : r = .error e v') (hsame : ∀ i, (v.fds p i).SameFile (v'.fds p i)) : FailsCleanly p v r := by
  rw [hr]
  exact fun i => (hsame i).fields.1

lemma failsCleanly_of_ok {tokens : List ℕ} (hr : r = .ok tokens v') : FailsCleanly p v r := by
  rw [hr]
  exact trivial

lemma failsCleanly_of_sameFiles {f : VfsM α} {tokens : α → List ℕ} (hp : v.kernel.InProcess h p)
    (hf : Preserves (Vfs.SameFiles h p (v.fds p)) f) :
    FailsCleanly p v ((f >>= fun a => pure (tokens a)) v) := by
  have hsame := (hf v (Vfs.sameFiles_self hp)).2
  cases hr : f v with
  | ok a v' => exact failsCleanly_of_ok (bind_of_ok hr)
  | error e v' =>
    rw [hr] at hsame
    exact failsCleanly_of_effect (bind_of_error hr) hsame

lemma not_failsCleanly {i : Fin vfsMaxFds}
    {fd : VfsFd} (hr : r = .error e v') (hv' : v'.fds p = update (v.fds p) i fd)
    (hfree : (v.fds p i).used = false) (hfd : fd.used = true) : ¬FailsCleanly p v r := by
  rw [hr]
  intro hclean
  have hused := hclean i
  rw [hv', update_self, hfree, hfd] at hused
  cases hused

lemma failsCleanly_run_iff (hp : v.kernel.InProcess h p) (c : FdCall) :
    FailsCleanly p v (c.run D h v) ↔ c.Settles p D h v := by
  cases c with
  | openFile path perms =>
    rcases Vfs.openFile_cases (D := D) hp path perms with
      ⟨hwhy, e, he⟩ | ⟨i, hpath, hfree, ⟨e, v', hfinds, he, hv'⟩ | ⟨fs, ino, size, v', hfinds, hok, hv'⟩⟩
    · have hrun : run D h (.openFile path perms) v = .error e v := bind_of_error he
      refine iff_of_true (failsCleanly_of_effect hrun fun _ => rfl) fun hpath hfree => ?_
      exact absurd hwhy (not_or.mpr ⟨not_not.mpr hpath, hfree⟩)
    · have hrun : run D h (.openFile path perms) v = .error e v' := bind_of_error he
      refine iff_of_false (not_failsCleanly hrun (Vfs.fds_of_kernel hv') (used_of_freeSlot hfree) rfl) ?_
      intro hsettles
      exact hfinds (hsettles hpath (by rw [hfree]; exact Option.some_ne_none i))
    · exact iff_of_true (failsCleanly_of_ok (bind_of_ok hok)) fun _ _ => hfinds
  | createPipe =>
    unfold Settles
    rcases Vfs.createPipe_cases hp with ⟨hslots, e, he⟩ | ⟨i, e, hslots, he⟩ | ⟨i, j, rest, hslots, hok⟩
    · have hrun : run D h .createPipe v = .error e v := bind_of_error he
      exact iff_of_true (failsCleanly_of_effect hrun fun _ => rfl) (by simp [hslots])
    · have hrun : run D h .createPipe v = .error e _ := bind_of_error he
      have hfree : (v.fds p i).used = false :=
        used_of_mem_freeSlots (hslots ▸ mem_singleton_self i)
      exact iff_of_false (not_failsCleanly hrun (Vfs.fds_withFds ..) hfree rfl) (by simp [hslots])
    · exact iff_of_true (failsCleanly_of_ok (bind_of_ok hok)) (by simp [hslots])
  | create path mode =>
    refine iff_of_true ?_ trivial
    rcases Vfs.create_cases hp path mode with ⟨e, v', he, hv'⟩ | ⟨i, newIno, v', -, hok, -⟩
    · have hfds : v'.fds p = v.fds p := Vfs.fds_congr hv'
      exact failsCleanly_of_effect (bind_of_error he) fun i => by rw [hfds]; rfl
    · exact failsCleanly_of_ok (bind_of_ok hok)
  | dup token =>
    refine iff_of_true ?_ trivial
    rcases Vfs.dup_cases hp token with ⟨e, he⟩ | ⟨i, j, -, hok⟩
    · exact failsCleanly_of_effect (bind_of_error he) fun _ => rfl
    · exact failsCleanly_of_ok (bind_of_ok hok)
  | close token =>
    refine iff_of_true ?_ trivial
    rcases Vfs.close_cases hp token with ⟨e, he⟩ | ⟨i, -, -, hok⟩
    · exact failsCleanly_of_effect (bind_of_error he) fun _ => rfl
    · exact failsCleanly_of_ok (bind_of_ok hok)
  | read token len => exact iff_of_true (failsCleanly_of_sameFiles hp (Vfs.sameFiles_read token len)) trivial
  | write token data => exact iff_of_true (failsCleanly_of_sameFiles hp (Vfs.sameFiles_write token data)) trivial
  | lseek token off whence =>
    exact iff_of_true (failsCleanly_of_sameFiles hp (Vfs.sameFiles_lseek token off whence)) trivial
  | stat token => exact iff_of_true (failsCleanly_of_sameFiles hp (Vfs.preserves_stat token)) trivial
  | ftruncate token length =>
    exact iff_of_true (failsCleanly_of_sameFiles hp (Vfs.sameFiles_ftruncate token length)) trivial
  | getdents64 readdir b token buf count =>
    exact iff_of_true
      (failsCleanly_of_sameFiles hp (Vfs.sameFiles_getdents64 readdir b token buf count)) trivial

end FdCall

/-- A state in a run of a process, with its ledger. -/
structure FdHistory where
  vfs : Vfs
  ledger : Ledger

namespace FdHistory

variable {p : ℕ} {s s' : FdHistory} {v : Vfs} {t0 : FdTable}
  {allowed : Drivers → Hart → FdCall → Vfs → Prop}

/-- The start of the run of the process at `p`. -/
def start (p : ℕ) (v : Vfs) : FdHistory := ⟨v, .start (v.fds p)⟩

/-- The state after a call with the result `r`. -/
def after (p : ℕ) (s : FdHistory) (c : FdCall) : EStateM.Result Errno Vfs (List ℕ) → FdHistory
  | .ok tokens v' => ⟨v', s.ledger.record (s.vfs.fds p) (v'.fds p) tokens c.closes⟩
  | .error _ v' => ⟨v', s.ledger.record (s.vfs.fds p) (v'.fds p) [] []⟩

/-- A step of a run: an allowed call of the process, or anything else that leaves its table alone. -/
inductive Step (p : ℕ) (allowed : Drivers → Hart → FdCall → Vfs → Prop) (s : FdHistory) : FdHistory → Prop where
  | call {D : Drivers} {h : Hart} (c : FdCall) (hp : s.vfs.kernel.InProcess h p) (hallowed : allowed D h c s.vfs) :
      Step p allowed s (s.after p c (c.run D h s.vfs))
  | elsewhere (v' : Vfs) (hfds : v'.fds p = s.vfs.fds p) : Step p allowed s { s with vfs := v' }

/-- No slot has been allocated `2 ^ 32 - 1` times. -/
def Bounded (s : FdHistory) : Prop := ∀ i, s.ledger.allocated i < 2 ^ 32 - 1

/-- `fd_check` accepts the token for the slot when the process runs on some hart. -/
def Accepts (p : ℕ) (s : FdHistory) (token : ℕ) (i : Fin vfsMaxFds) : Prop :=
  ∃ h, s.vfs.kernel.InProcess h p ∧ s.vfs.kernel.fdCheck h token = .ok i

/-- Tokens cannot be forged: a closed token is not accepted, an accepted token was issued for the file and
the permissions of its descriptor, and no token was issued twice. -/
structure Unforgeable (p : ℕ) (s : FdHistory) : Prop where
  closed : ∀ token ∈ s.ledger.closed, ∀ i, ¬s.Accepts p token i
  issued : ∀ token i, s.Accepts p token i → ∃ r ∈ s.ledger.issued, r.token = token ∧
    r.ino = (s.vfs.fds p i).ino ∧ r.fs = (s.vfs.fds p i).fs ∧ r.perms = (s.vfs.fds p i).perms
  nodup : (s.ledger.issued.map Issue.token).Nodup

lemma Accepts.token_eq {token : ℕ} {i : Fin vfsMaxFds} (ha : s.Accepts p token i) :
    (s.vfs.fds p i).used = true ∧ token = fdToken i (s.vfs.fds p i).epoch := by
  obtain ⟨h, hp, hcheck⟩ := ha
  obtain ⟨hused, hi, hepoch⟩ := hp.fdCheck_eq_ok_iff.mp hcheck
  refine ⟨hused, ?_⟩
  rw [fdToken, ← hi, show (s.vfs.fds p i).epoch = _ from hepoch]
  exact (div_add_mod' token (2 ^ 32)).symm

lemma unforgeable_of_honest (he : ∀ i, (t0 i).epoch < 2 ^ 32)
    (hl : s.ledger.Honest t0 (s.vfs.fds p)) (hbound : s.Bounded) : s.Unforgeable p := by
  refine ⟨?_, ?_, hl.nodup⟩
  · intro token hclosed i ha
    obtain ⟨hused, htoken⟩ := ha.token_eq
    obtain ⟨j, n, hn, heq, hfree⟩ := hl.closed token hclosed
    rw [htoken, hl.epoch_eq] at heq
    obtain ⟨rfl, heq⟩ := fdToken_inj (epochAfter_lt (he i) _) (epochAfter_lt (he j) _) heq
    have hlast := epochAfter_inj (he i) (hn.trans_lt (hbound i)) (hbound i) heq.symm
    rw [hfree hlast] at hused
    cases hused
  · intro token i ha
    obtain ⟨hused, htoken⟩ := ha.token_eq
    refine ⟨_, hl.current i hused, htoken.symm, ?_⟩
    rw [Issue.of, slotOf_fdToken (hl.epoch_lt he i)]
    exact ⟨rfl, rfl, rfl⟩

lemma allocated_le_of_step (hstep : Step p allowed s s')
    (i : Fin vfsMaxFds) : s.ledger.allocated i ≤ s'.ledger.allocated i := by
  cases hstep with
  | @call D h c hp hallowed =>
    unfold after
    split
    · exact le_add_right _ _
    · exact le_add_right _ _
  | elsewhere v' hfds => exact le_rfl

lemma honest_step (he : ∀ i, (t0 i).epoch < 2 ^ 32) (hl : s.ledger.Honest t0 (s.vfs.fds p))
    (hstep : Step p (FdCall.Settles p) s s') (hbound : s'.Bounded) : s'.ledger.Honest t0 (s'.vfs.fds p) := by
  cases hstep with
  | @call D h c hp hsettles =>
    have heff := FdCall.hasEffect_run (D := D) hp c
    have hclean := (FdCall.failsCleanly_run_iff hp c).mpr hsettles
    cases hr : c.run D h s.vfs with
    | ok tokens v' =>
      rw [hr] at heff hbound
      exact hl.effect he heff (fun h => (nomatch h)) hbound
    | error e v' =>
      rw [hr] at heff hbound hclean
      exact hl.effect he heff (fun _ => hclean) hbound
  | elsewhere v' hfds =>
    rwa [hfds]

/-- In a run in which no call loses a slot and no slot is allocated `2 ^ 32 - 1` times, tokens cannot be
forged. -/
theorem unforgeable (p : ℕ) (v : Vfs) (he : ∀ i, (v.fds p i).epoch < 2 ^ 32) (s : FdHistory)
    (hrun : Relation.ReflTransGen (Step p (FdCall.Settles p)) (start p v) s) (hbound : s.Bounded) :
    s.Unforgeable p := by
  refine unforgeable_of_honest he ?_ hbound
  induction hrun with
  | refl => exact Ledger.honest_start he
  | @tail s s' _ hstep ih =>
    have hs : s.Bounded := fun i => (allocated_le_of_step hstep i).trans_lt (hbound i)
    exact honest_step he (ih hs) hstep hbound

/-- `/proc` has one file, `v` with the inode 5. -/
def procDrivers : Drivers where
  procLookup path := if path = [0x76] then .ok 5 else .error .noEnt
  procStat _ := .ok 1
  procRead _ _ _ _ := .ok [0x31]
  fatLookup _ := .error .noEnt
  fatRead _ _ _ := .error .noEnt

/-- A process on hart 0 without descriptors, with `/proc` mounted. -/
def procVfs : Vfs where
  kernel := Kernel.oneProcess Onx.freshMm 0
  ipc := {}
  onyx := Onyxfs.smallFs
  rootFs := .onyx
  mounts := [([0x70, 0x72, 0x6F, 0x63], .proc)]

/-- The path `/proc/` with a name of one byte. -/
def procPath (name : UInt8) : List UInt8 := [0x2F, 0x70, 0x72, 0x6F, 0x63, 0x2F, name]

/-- The state after a call on hart 0. -/
def next (s : FdHistory) (c : FdCall) : FdHistory := s.after 0x80200000 c (c.run procDrivers 0 s.vfs)

lemma step_next (c : FdCall)
    (hp : s.vfs.kernel.InProcess 0 0x80200000) (hallowed : allowed procDrivers 0 c s.vfs) :
    Step 0x80200000 allowed s (s.next c) :=
  .call c hp hallowed

/-- The file is opened for reading, and closed. -/
def openedClosed : FdHistory :=
  ((start 0x80200000 procVfs).next (.openFile (procPath 0x76) permRead)).next (.close (fdToken 3 1))

theorem unforgeable_openedClosed : openedClosed.ledger.issued = [⟨fdToken 3 1, 5, .proc, permRead⟩] ∧
      openedClosed.ledger.closed = [fdToken 3 1] ∧ openedClosed.Unforgeable 0x80200000 := by
  refine ⟨by decide +kernel, by decide +kernel, ?_⟩
  refine unforgeable 0x80200000 procVfs (by decide +kernel) openedClosed ?_ (by unfold Bounded; decide +kernel)
  refine .tail (.single (step_next (.openFile (procPath 0x76) permRead) ?_ ?_))
    (step_next (.close (fdToken 3 1)) ?_ trivial)
  · exact ⟨rfl, rfl, by decide⟩
  · intro _ _
    exact ⟨_, _, rfl⟩
  · exact ⟨by decide +kernel, by decide +kernel, by decide +kernel⟩

/-- Then a file that does not exist is opened with all permissions. -/
def openedMissing : FdHistory :=
  openedClosed.next (.openFile (procPath 0x78) (permRead ||| permWrite ||| permSeek ||| permExec))

/-- The call fails, and yet the next token of the slot is accepted: it was never issued, and it is for the
file that was opened for reading, with all permissions. -/
theorem missing_file_forges_token :
    Relation.ReflTransGen (Step 0x80200000 fun _ _ _ _ => True) (start 0x80200000 procVfs) openedMissing ∧
      openedMissing.Bounded ∧ openedMissing.ledger.issued = [⟨fdToken 3 1, 5, .proc, permRead⟩] ∧
      openedMissing.Accepts 0x80200000 (fdToken 3 2) 3 ∧
      (openedMissing.vfs.fds 0x80200000 3).ino = 5 ∧ (openedMissing.vfs.fds 0x80200000 3).perms = 15 ∧
      ¬openedMissing.Unforgeable 0x80200000 := by
  have hissued : openedMissing.ledger.issued = [⟨fdToken 3 1, 5, .proc, permRead⟩] := by decide +kernel
  have haccepts : openedMissing.Accepts 0x80200000 (fdToken 3 2) 3 :=
    ⟨0, ⟨by decide +kernel, by decide +kernel, by decide +kernel⟩, by decide +kernel⟩
  refine ⟨?_, by unfold Bounded; decide +kernel, hissued, haccepts, by decide +kernel, by decide +kernel, ?_⟩
  · refine .tail (.tail (.single (step_next (.openFile (procPath 0x76) permRead) ?_ trivial))
      (step_next (.close (fdToken 3 1)) ?_ trivial)) (step_next _ ?_ trivial)
    · exact ⟨rfl, rfl, by decide⟩
    · exact ⟨by decide +kernel, by decide +kernel, by decide +kernel⟩
    · exact ⟨by decide +kernel, by decide +kernel, by decide +kernel⟩
  · intro hs
    obtain ⟨r, hr, htoken, -⟩ := hs.issued _ _ haccepts
    rw [hissued, mem_singleton] at hr
    rw [hr] at htoken
    exact absurd htoken (by decide)

end FdHistory

end OnyxKernel
