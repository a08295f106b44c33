import OnyxKernel.Proc.Kept

/-!
# The run queues

`QueuesSound` is the invariant of the run queues: a process stands in them once if its flag `on_rq` is
set, and otherwise nowhere.  `sched_yield` saves the context, takes a process out of the queues in one
of several ways, and continues with it; `Picked` says what all these ways have in common, and
`schedYield_eq` puts `sched_yield` together from it.
-/

namespace OnyxKernel.Kernel

open Finset List Option Kernel ProcState

open Function (update update_of_ne update_self update_idem update_eq_self)

variable {k k' k'' : Kernel} {h a : Hart} {p q x : ℕ} {tf : TrapFrame} {b : Bool} {l rest : List ℕ}

/-- How often a process stands in the run queues. -/
def linkCount (k : Kernel) (p : ℕ) : ℕ := ∑ h : Hart, (k.runQueue h).count p

/-- A process stands in the run queues once if its flag `on_rq` is set, and otherwise nowhere. -/
def QueuesSound (k : Kernel) : Prop := ∀ p, k.linkCount p = if (k.proc p).onRq then 1 else 0

lemma linkCount_update (rq : Hart → List ℕ) (h : Hart) (l : List ℕ) (p : ℕ) :
    (∑ h', (update rq h l h').count p) + (rq h).count p = (∑ h', (rq h').count p) + l.count p := by
  have hold := add_sum_erase univ (fun h' => (rq h').count p) (mem_univ h)
  have hnew := add_sum_erase univ (fun h' => (update rq h l h').count p)
    (mem_univ h)
  have hrest : ∑ h' ∈ univ.erase h, (update rq h l h').count p = ∑ h' ∈ univ.erase h, (rq h').count p := by
    refine sum_congr rfl fun h' hh' => ?_
    rw [update_of_ne (ne_of_mem_erase hh')]
  simp only [update_self] at hnew
  omega

lemma QueuesSound.onRq_of_mem (hk : k.QueuesSound) (hmem : p ∈ k.runQueue h) : (k.proc p).onRq = true := by
  have hle : (k.runQueue h).count p ≤ k.linkCount p :=
    single_le_sum (f := fun h' => (k.runQueue h').count p) (fun _ _ => Nat.zero_le _)
      (mem_univ h)
  have hpos := count_pos_iff.mpr hmem
  have hcount := hk p
  by_contra hoff
  rw [if_neg hoff] at hcount
  omega

lemma QueuesSound.mem_of_onRq (hk : k.QueuesSound) (hon : (k.proc p).onRq = true) :
    ∃ h, p ∈ k.runQueue h := by
  by_contra hout
  have hzero : k.linkCount p = 0 := by
    refine sum_eq_zero fun h' _ => count_eq_zero.mpr fun hmem => hout ⟨h', hmem⟩
  have hcount := hk p
  rw [hzero, if_pos hon] at hcount
  exact absurd hcount (by decide)

/-! ### Moving processes between the queues -/

/-- At most the run queues and the flags `on_rq` differ. -/
structure Requeued (k k' : Kernel) : Prop where
  eq_update : k' = { k with proc := k'.proc, runQueue := k'.runQueue }
  proc_eq : ∀ p, k'.proc p = { k.proc p with onRq := (k'.proc p).onRq }

namespace Requeued

@[refl] lemma refl (k : Kernel) : k.Requeued k := ⟨rfl, fun _ => rfl⟩

lemma trans (h : k.Requeued k') (h' : k'.Requeued k'') : k.Requeued k'' where
  eq_update := by rw [h'.eq_update, h.eq_update]
  proc_eq p := by rw [h'.proc_eq p, h.proc_eq p]

lemma hartCurrent_eq (h : k.Requeued k') : k'.hartCurrent = k.hartCurrent := by rw [h.eq_update]

lemma state_eq (h : k.Requeued k') (p : ℕ) : (k'.proc p).state = (k.proc p).state := by
  rw [h.proc_eq p]

lemma pinnedElsewhere_eq (h : k.Requeued k') (a : Hart) (p : ℕ) :
    k'.pinnedElsewhere a p = k.pinnedElsewhere a p := by
  rw [pinnedElsewhere, h.proc_eq p, pinnedElsewhere]

end Requeued

lemma pinnedElsewhere_ne (ha : k.pinnedElsewhere h p = some a) : a ≠ h := by
  have hmem := mem_filter_iff.mp ha
  simpa using hmem.2

/-- The state in which the flag of `p` is `b` and the queue of `h` is `l`. -/
def relink (p : ℕ) (b : Bool) (h : Hart) (l : List ℕ) (k : Kernel) : Kernel :=
  { k.modifyProc p (fun r => { r with onRq := b }) with runQueue := update k.runQueue h l }

lemma proc_relink (p : ℕ) (b : Bool) (h : Hart) (l : List ℕ) (k : Kernel) :
    (k.relink p b h l).proc = update k.proc p { k.proc p with onRq := b } := rfl

lemma requeued_relink (p : ℕ) (b : Bool) (h : Hart) (l : List ℕ) (k : Kernel) :
    k.Requeued (k.relink p b h l) := by
  refine ⟨rfl, fun q => ?_⟩
  by_cases hq : q = p
  · rw [hq, proc_relink, update_self]
  · rw [proc_relink, update_of_ne hq]

@[simp] lemma onRq_relink_self (p : ℕ) (b : Bool) (h : Hart) (l : List ℕ) (k : Kernel) :
    ((k.relink p b h l).proc p).onRq = b := by
  rw [proc_relink, update_self]

lemma onRq_relink_of_ne (hq : q ≠ p) : ((k.relink p b h l).proc q).onRq = (k.proc q).onRq := by
  rw [proc_relink, update_of_ne hq]

lemma runQueue_relink_of_ne (ha : a ≠ h) : (k.relink p b h l).runQueue a = k.runQueue a := update_of_ne ha ..

lemma runQueue_relink_self (p : ℕ) (b : Bool) (h : Hart) (l : List ℕ) (k : Kernel) :
    (k.relink p b h l).runQueue h = l := update_self ..

/-- The invariant holds after `p` has been put into a queue or taken out of it. -/
theorem QueuesSound.relink (hk : k.QueuesSound) (hself : l.count p + (if (k.proc p).onRq then 1 else 0) =
      (k.runQueue h).count p + if b then 1 else 0)
    (hother : ∀ q ≠ p, l.count q = (k.runQueue h).count q) : (k.relink p b h l).QueuesSound := by
  intro q
  have hcount := linkCount_update k.runQueue h l q
  have hq := hk q
  have hlink : (k.relink p b h l).linkCount q = ∑ h', (update k.runQueue h l h').count q := rfl
  rw [linkCount] at hq
  rw [hlink]
  by_cases hqp : q = p
  · rw [hqp] at hcount hq ⊢
    rw [onRq_relink_self]
    omega
  · rw [onRq_relink_of_ne hqp]
    have := hother q hqp
    omega

lemma enqueue_of_onRq (hon : (k.proc p).onRq = true) : k.enqueue h p = k := if_pos hon

lemma enqueue_of_not_onRq (hoff : (k.proc p).onRq = false) :
    k.enqueue h p = k.relink p true h (k.runQueue h ++ [p]) := by
  rw [enqueue, hoff]
  rfl

lemma requeued_enqueue (h : Hart) (p : ℕ) (k : Kernel) : k.Requeued (k.enqueue h p) := by
  cases hon : (k.proc p).onRq with
  | true => rw [enqueue_of_onRq hon]
  | false =>
    rw [enqueue_of_not_onRq hon]
    exact requeued_relink p true h _ k

lemma runQueue_enqueue_of_ne (ha : a ≠ h) : (k.enqueue h p).runQueue a = k.runQueue a := by
  cases hon : (k.proc p).onRq with
  | true => rw [enqueue_of_onRq hon]
  | false => rw [enqueue_of_not_onRq hon, runQueue_relink_of_ne ha]

lemma head?_enqueue (hx : x ∈ (k.runQueue h).head?) (a : Hart) (p : ℕ) :
    x ∈ ((k.enqueue a p).runQueue h).head? := by
  cases hon : (k.proc p).onRq with
  | true => rwa [enqueue_of_onRq hon]
  | false =>
    rw [enqueue_of_not_onRq hon]
    by_cases ha : h = a
    · rw [← ha, runQueue_relink_self]
      cases hq : k.runQueue h with
      | nil =>
        rw [hq] at hx
        cases hx
      | cons y ys =>
        rw [hq] at hx
        exact hx
    · rwa [runQueue_relink_of_ne ha]

lemma QueuesSound.enqueue (hk : k.QueuesSound) (h : Hart) (p : ℕ) : (k.enqueue h p).QueuesSound := by
  cases hon : (k.proc p).onRq with
  | true => rwa [enqueue_of_onRq hon]
  | false =>
    rw [enqueue_of_not_onRq hon]
    apply hk.relink
    · rw [hon, count_append, count_singleton_self]
      rfl
    · intro q hq
      rw [count_append, count_singleton, if_neg (by simpa using hq.symm)]
      rfl

lemma onRq_enqueue_self (h : Hart) (p : ℕ) (k : Kernel) : ((k.enqueue h p).proc p).onRq = true := by
  cases hon : (k.proc p).onRq with
  | true => rw [enqueue_of_onRq hon, hon]
  | false => rw [enqueue_of_not_onRq hon, onRq_relink_self]

lemma dequeue_of_nil (hnil : k.runQueue h = []) : k.dequeue h = (none, k) := by
  rw [dequeue, hnil]

lemma dequeue_of_cons (hcons : k.runQueue h = p :: rest) :
    k.dequeue h = (some p, k.relink p false h rest) := by
  rw [dequeue, hcons]
  rfl

lemma QueuesSound.relink_tail (hk : k.QueuesSound)
    (hcons : k.runQueue h = p :: rest) : (k.relink p false h rest).QueuesSound := by
  have hon := hk.onRq_of_mem (h := h) (p := p) (hcons ▸ mem_cons_self)
  apply hk.relink
  · rw [hon, hcons, count_cons_self]
    rfl
  · intro q hq
    rw [hcons, count_cons_of_ne hq.symm]

/-! ### Taking a process out of the queues -/

/-- The process stands in a run queue. -/
def Linked (k : Kernel) (p : ℕ) : Prop := ∃ h, p ∈ k.runQueue h

lemma Linked.of_relink (hlink : (k.relink p b h l).Linked q) : k.Linked q ∨ q ∈ l := by
  obtain ⟨a, ha⟩ := hlink
  have hqueue : (k.relink p b h l).runQueue = update k.runQueue h l := rfl
  rw [hqueue] at ha
  by_cases hah : a = h
  · rw [hah, update_self] at ha
    exact .inr ha
  · rw [update_of_ne hah] at ha
    exact .inl ⟨a, ha⟩

lemma Linked.of_enqueue (hlink : (k.enqueue h p).Linked q) : k.Linked q ∨ q = p := by
  cases hon : (k.proc p).onRq with
  | true =>
    rw [enqueue_of_onRq hon] at hlink
    exact .inl hlink
  | false =>
    rw [enqueue_of_not_onRq hon] at hlink
    rcases hlink.of_relink with hold | hmem
    · exact .inl hold
    · rcases mem_append.mp hmem with hold | hself
      · exact .inl ⟨h, hold⟩
      · exact .inr (List.mem_singleton.mp hself)

/-- The result of taking at most one process out of the queues; others may have changed places. -/
structure Picked (k : Kernel) (r : Option ℕ × Kernel) : Prop where
  requeued : k.Requeued r.2
  linked : ∀ q, r.2.Linked q → k.Linked q
  linked_of_taken : ∀ q, r.1 = some q → k.Linked q
  sound : k.QueuesSound → r.2.QueuesSound
  onRq_eq : k.QueuesSound → ∀ q, r.1 ≠ some q → (r.2.proc q).onRq = (k.proc q).onRq
  taken : k.QueuesSound → ∀ q, r.1 = some q → (k.proc q).onRq = true ∧ (r.2.proc q).onRq = false

namespace Picked

lemma nothing (k : Kernel) : k.Picked (none, k) where
  requeued := .refl k
  linked _ := id
  linked_of_taken _ hq := nomatch hq
  sound := id
  onRq_eq _ _ _ := rfl
  taken _ _ hq := nomatch hq

lemma dequeue (k : Kernel) (h : Hart) : k.Picked (k.dequeue h) := by
  cases hq : k.runQueue h with
  | nil =>
    rw [dequeue_of_nil hq]
    exact .nothing k
  | cons p rest =>
    rw [dequeue_of_cons hq]
    have hhead : p ∈ k.runQueue h := hq ▸ mem_cons_self
    refine ⟨requeued_relink p false h rest k, fun q hlink => ?_, fun q hsome => ?_,
      fun hk => hk.relink_tail hq, fun _ q hne => ?_, fun hk q hsome => ?_⟩
    · rcases hlink.of_relink with hold | hrest
      · exact hold
      · exact ⟨h, hq ▸ mem_cons_of_mem p hrest⟩
    · cases hsome
      exact ⟨h, hhead⟩
    · exact onRq_relink_of_ne fun heq => hne (congrArg some heq.symm)
    · cases hsome
      exact ⟨hk.onRq_of_mem hhead, onRq_relink_self ..⟩

lemma putBack (h : k.Picked (some x, k')) (a : Hart) : k.Picked (none, k'.enqueue a x) where
  requeued := h.requeued.trans (requeued_enqueue a x k')
  linked q hlink := by
    rcases hlink.of_enqueue with hold | hself
    · exact h.linked q hold
    · exact h.linked_of_taken q (congrArg some hself.symm)
  linked_of_taken _ hq := nomatch hq
  sound hk := (h.sound hk).enqueue a x
  onRq_eq hk q _ := by
    by_cases hq : q = x
    · rw [hq, onRq_enqueue_self, (h.taken hk x rfl).1]
    · rw [proc_enqueue_of_ne hq]
      exact h.onRq_eq hk q fun heq => hq (some.inj heq).symm
  taken _ _ hq := nomatch hq

lemma trans {r : Option ℕ × Kernel} (h : k.Picked (none, k')) (h' : k'.Picked r) : k.Picked r where
  requeued := h.requeued.trans h'.requeued
  linked q hlink := h.linked q (h'.linked q hlink)
  linked_of_taken q hq := h.linked q (h'.linked_of_taken q hq)
  sound hk := h'.sound (h.sound hk)
  onRq_eq hk q hq := (h'.onRq_eq (h.sound hk) q hq).trans (h.onRq_eq hk q nofun)
  taken hk q hq := by
    have hflags := h'.taken (h.sound hk) q hq
    rwa [h.onRq_eq hk q nofun] at hflags

lemma stealLoop (h : Hart) (victims : List Hart) (k : Kernel) : k.Picked (stealLoop h victims k) := by
  induction victims generalizing k with
  | nil => exact .nothing k
  | cons victim rest ih =>
    rw [Kernel.stealLoop]
    split_ifs
    · exact ih k
    · have hd := Picked.dequeue k victim
      split
      · rename_i k1 hk1
        rw [hk1] at hd
        exact hd.trans (ih k1)
      · rename_i p k1 hk1
        rw [hk1] at hd
        split
        · exact (hd.putBack victim).trans (ih _)
        · exact hd

lemma steal (k : Kernel) (h : Hart) : k.Picked (k.steal h) := .stealLoop h _ k

lemma pickNext (k : Kernel) (h : Hart) : k.Picked (k.pickNext h) := by
  unfold Kernel.pickNext
  have hd := Picked.dequeue k h
  split
  · rename_i k1 hk1
    rw [hk1] at hd
    exact hd
  · rename_i p k1 hk1
    rw [hk1] at hd
    split
    · rename_i a _
      exact (hd.putBack a).trans (.dequeue _ h)
    · exact hd

end Picked

/-! ### Stealing -/

/-- The result of `steal` on `h`, with these victims: no first process of an unlocked queue may run on `h`, or
one of them is taken.  Other processes stay in their queues, where they may have changed places. -/
def Stolen (h : Hart) (victims : List Hart) (k : Kernel) (r : Option ℕ × Kernel) : Prop :=
  match r.1 with
  | none => (∀ u, (r.2.runQueue u).Perm (k.runQueue u)) ∧ ∀ v ∈ victims, k.rqLocked v = false →
      ∀ p ∈ (k.runQueue v).head?, k.pinnedElsewhere h p ≠ none
  | some p => k.pinnedElsewhere h p = none ∧ ∃ v ∈ victims, p ∈ (k.runQueue v).head? ∧
      ∀ u, (r.2.runQueue u).Perm (if u = v then (k.runQueue u).tail else k.runQueue u)

lemma Stolen.cons {victims : List Hart} {r : Option ℕ × Kernel} (hs : k'.Stolen h victims r) (hreq : k.Requeued k')
    (hperm : ∀ u, (k'.runQueue u).Perm (k.runQueue u)) (hne : ∀ u ≠ a, k'.runQueue u = k.runQueue u)
    (ha : a ∉ victims)
    (hpin : k.rqLocked a = false → ∀ p ∈ (k.runQueue a).head?, k.pinnedElsewhere h p ≠ none) :
    k.Stolen h (a :: victims) r := by
  have hother {v : Hart} (hv : v ∈ victims) : k'.runQueue v = k.runQueue v :=
    hne v fun heq => ha (heq ▸ hv)
  unfold Stolen at hs ⊢
  cases hr : r.1 with
  | none =>
    rw [hr] at hs
    obtain ⟨hqueues, hheads⟩ := hs
    refine ⟨fun u => (hqueues u).trans (hperm u), fun v hv hlock p hp => ?_⟩
    rcases mem_cons.mp hv with rfl | hv
    · exact hpin hlock p hp
    · rw [← hreq.pinnedElsewhere_eq]
      refine hheads v hv ?_ p (by rwa [hother hv])
      rwa [hreq.eq_update]
  | some p =>
    rw [hr] at hs
    obtain ⟨hfree, v, hv, hp, hqueues⟩ := hs
    rw [hreq.pinnedElsewhere_eq] at hfree
    rw [hother hv] at hp
    refine ⟨hfree, v, mem_cons_of_mem a hv, hp, fun u => (hqueues u).trans ?_⟩
    split
    · next hu => rw [hu, hother hv]
    · exact hperm u

lemma stolen_stealLoop {victims : List Hart} (hnodup : victims.Nodup) (h : Hart) (k : Kernel) :
    k.Stolen h victims (stealLoop h victims k) := by
  induction victims generalizing k with
  | nil => exact ⟨fun _ => .refl _, nofun⟩
  | cons v rest ih =>
    obtain ⟨hv, hrest⟩ := nodup_cons.mp hnodup
    have hskip (hpin : k.rqLocked v = false → ∀ p ∈ (k.runQueue v).head?, k.pinnedElsewhere h p ≠ none) :=
      (ih hrest k).cons (.refl k) (fun _ => .refl _) (fun _ _ => rfl) hv hpin
    rw [stealLoop]
    split_ifs with hlock
    · exact hskip fun hfree => absurd (hlock.symm.trans hfree) (by decide)
    · cases hq : k.runQueue v with
      | nil =>
        rw [dequeue_of_nil hq]
        exact hskip fun _ p hp => by simp [hq] at hp
      | cons x ys =>
        rw [dequeue_of_cons hq]
        dsimp only
        have hreq := requeued_relink x false v ys k
        rw [hreq.pinnedElsewhere_eq, enqueue_of_not_onRq (onRq_relink_self ..), runQueue_relink_self]
        split
        · next b hpin =>
          have hback := hreq.trans (requeued_relink x true v (ys ++ [x]) _)
          have hne (u : Hart) (hu : u ≠ v) : ((k.relink x false v ys).relink x true v (ys ++ [x])).runQueue u =
              k.runQueue u := (runQueue_relink_of_ne hu).trans (runQueue_relink_of_ne hu)
          refine (ih hrest _).cons hback (fun u => ?_) hne hv fun _ p hp => ?_
          · by_cases hu : u = v
            · rw [hu, runQueue_relink_self, hq]
              exact perm_append_singleton x ys
            · rw [hne u hu]
          · rw [hq] at hp
            rw [← some.inj hp, hpin]
            exact some_ne_none b
        · next hpin =>
          refine ⟨hpin, v, mem_cons_self, by rw [hq]; rfl, fun u => ?_⟩
          split
          · next hu => rw [hu, runQueue_relink_self, hq, tail_cons]
          · next hu => rw [runQueue_relink_of_ne hu]

/-- The other harts, in the order in which `steal` tries them. -/
abbrev victims (h : Hart) : List Hart := (range' 1 (maxHarts - 1)).map fun i => h + Fin.ofNat maxHarts i

lemma mem_victims {v : Hart} : v ∈ victims h ↔ v ≠ h := by
  revert h v
  decide

lemma stolen_steal (h : Hart) (k : Kernel) : k.Stolen h (victims h) (k.steal h) :=
  stolen_stealLoop (by revert h; decide) h k

/-- Continue with a process that has been picked, or without one. -/
def resume (h : Hart) (r : Option ℕ × Kernel) : Flow Unit :=
  match r with
  | (some p, k) => k.switchTo h p
  | (none, k) => k.noneReady h

/-- The process with which `sched_yield` continues, and the state in which it does so. -/
def choose (h : Hart) (k : Kernel) : Option ℕ × Kernel :=
  match k.pickNext h with
  | (some p, k) => (some p, k)
  | (none, k) =>
    match k.steal h with
    | (some p, k) => (some p, k)
    | (none, k) => k.dequeue h

lemma schedYield_eq (h : Hart) (tf : TrapFrame) (k : Kernel) :
    k.schedYield h tf = resume h ((k.saveContext h tf).choose h) := by
  rw [schedYield, choose]
  rcases (k.saveContext h tf).pickNext h with ⟨_ | p, k1⟩
  · dsimp only
    rcases k1.steal h with ⟨_ | p, k2⟩
    · dsimp only
      rcases k2.dequeue h with ⟨_ | p, k3⟩
      · rfl
      · rfl
    · rfl
  · rfl

lemma Picked.choose (k : Kernel) (h : Hart) : k.Picked (k.choose h) := by
  unfold Kernel.choose
  have hp := Picked.pickNext k h
  split
  · rename_i hk1
    rwa [hk1] at hp
  · rename_i k1 hk1
    rw [hk1] at hp
    have hs := hp.trans (.steal k1 h)
    split
    · rename_i hk2
      rwa [hk2] at hs
    · rename_i k2 hk2
      rw [hk2] at hs
      exact hs.trans (.dequeue k2 h)

/-! ### Saving the context -/

/-- What `sched_yield` does first, with the current process `p`: a running process becomes ready and is
put at the end of the own queue. -/
structure Saved (h : Hart) (p : ℕ) (k k' : Kernel) : Prop where
  sound : k.QueuesSound → k'.QueuesSound
  eq_update : k' = { k with proc := k'.proc, runQueue := k'.runQueue }
  proc_of_ne : ∀ q ≠ p, k'.proc q = k.proc q
  proc_self : k'.proc p = { k.proc p with
    tf := (k'.proc p).tf, state := (k'.proc p).state, onRq := (k'.proc p).onRq }
  state_eq : (k'.proc p).state = if (k.proc p).state = .running then .ready else (k.proc p).state
  onRq_eq : (k'.proc p).onRq = ((k.proc p).onRq || decide ((k.proc p).state = .running))
  queue_eq : k'.runQueue = update k.runQueue h (k.runQueue h ++
    if (k.proc p).state = .running ∧ (k.proc p).onRq = false then [p] else [])

lemma QueuesSound.modifyProc (hk : k.QueuesSound) {f : Proc → Proc} (hf : ∀ r, (f r).onRq = r.onRq)
    (p : ℕ) : (k.modifyProc p f).QueuesSound := by
  intro q
  have hcount : (k.modifyProc p f).linkCount q = k.linkCount q := rfl
  rw [hcount, hk q]
  by_cases hq : q = p
  · rw [hq, proc_modifyProc_self, hf]
  · rw [proc_modifyProc_of_ne hq]

lemma modifyProc_modifyProc (k : Kernel) (p : ℕ) (f g : Proc → Proc) :
    (k.modifyProc p f).modifyProc p g = k.modifyProc p (fun r => g (f r)) := by
  rw [modifyProc, modifyProc, modifyProc]
  dsimp only
  rw [update_self, update_idem]

lemma saved_of_not_running (hrun : (k.proc p).state ≠ .running) (tf : TrapFrame) (h : Hart) :
    k.Saved h p (k.modifyProc p fun r => { r with tf := tf }) where
  sound hk := by
    apply hk.modifyProc
    exact fun _ => rfl
  eq_update := rfl
  proc_of_ne q hq := proc_modifyProc_of_ne hq
  proc_self := by rw [proc_modifyProc_self]
  state_eq := by rw [proc_modifyProc_self, if_neg hrun]
  onRq_eq := by rw [proc_modifyProc_self, decide_eq_false hrun, Bool.or_false]
  queue_eq := by
    rw [if_neg fun hand => hrun hand.1, append_nil, update_eq_self]
    rfl

lemma saved_of_running (hrun : (k.proc p).state = .running) (tf : TrapFrame) (h : Hart) :
    k.Saved h p ((k.modifyProc p fun r => { r with tf := tf, state := .ready }).enqueue h p) := by
  obtain ⟨k1, hk1⟩ : ∃ k1, k1 = k.modifyProc p fun r => { r with tf := tf, state := .ready } := ⟨_, rfl⟩
  have hself : k1.proc p = { k.proc p with tf := tf, state := .ready } := by
    rw [hk1, proc_modifyProc_self]
  have hreq := requeued_enqueue h p k1
  have hon := onRq_enqueue_self h p k1
  rw [← hk1]
  refine ⟨fun hk => ?_, ?_, fun q hq => ?_, ?_, ?_, ?_, ?_⟩
  · rw [hk1]
    apply QueuesSound.enqueue
    apply hk.modifyProc
    exact fun _ => rfl
  · rw [hreq.eq_update, hk1]
    rfl
  · rw [proc_enqueue_of_ne hq, hk1]
    exact proc_modifyProc_of_ne hq
  · rw [hreq.proc_eq p, hself]
  · rw [hreq.state_eq p, hself, if_pos hrun]
  · rw [hon, decide_eq_true hrun, Bool.or_true]
  · have hqueue : k1.runQueue = k.runQueue := by
      rw [hk1]
      rfl
    have hflag : (k1.proc p).onRq = (k.proc p).onRq := by rw [hself]
    cases hrq : (k.proc p).onRq with
    | true =>
      rw [enqueue_of_onRq (hflag.trans hrq), hqueue]
      simp
    | false =>
      rw [enqueue_of_not_onRq (hflag.trans hrq), if_pos ⟨hrun, rfl⟩, ← hqueue]
      rfl

lemma saved_saveContext (hcur : k.hartCurrent h = some p) (tf : TrapFrame) :
    k.Saved h p (k.saveContext h tf) := by
  have hstate : ((k.modifyProc p fun r => { r with tf := tf }).proc p).state = (k.proc p).state := by
    rw [proc_modifyProc_self]
  unfold saveContext
  rw [hcur]
  dsimp only
  rw [hstate]
  split_ifs with hrun
  · rw [modifyProc_modifyProc]
    exact saved_of_running hrun tf h
  · exact saved_of_not_running hrun tf h

lemma saveContext_of_none (hcur : k.hartCurrent h = none) (tf : TrapFrame) :
    k.saveContext h tf = { k with idleTf := update k.idleTf h tf } := by
  rw [saveContext, hcur]

/-! ### Records that are kept -/

lemma Requeued.kept (hreq : k.Requeued k') : k.Kept k' := by
  refine ⟨fun p => ?_, hreq.hartCurrent_eq⟩
  rw [hreq.proc_eq p]
  exact ⟨rfl, rfl, rfl, id⟩

lemma kept_saveContext (h : Hart) (tf : TrapFrame) (k : Kernel) : k.Kept (k.saveContext h tf) := by
  unfold saveContext
  split
  · exact kept_of_proc_eq rfl rfl
  · rename_i p _
    have htf : k.Kept (k.modifyProc p fun r => { r with tf := tf }) :=
      kept_modifyProc ⟨rfl, rfl, rfl, id⟩
    dsimp only
    split
    · refine (htf.trans (kept_modifyProc ⟨rfl, rfl, rfl, fun _ => ?_⟩)).trans (requeued_enqueue h p _).kept
      exact noConfusion
    · exact htf

lemma kept_running (p : ℕ) (k : Kernel) : k.Kept (k.modifyProc p fun r => { r with state := .running }) :=
  kept_modifyProc ⟨rfl, rfl, rfl, fun _ => noConfusion⟩

lemma keeps_noneReady (h : Hart) (k : Kernel) : (k.noneReady h).Keeps k := by
  unfold noneReady
  split
  · exact .ret _ (kept_of_proc_eq rfl rfl)
  · rename_i p _
    split
    · dsimp only
      split
      · exact .halted (Kept.refl k).records
      · exact .switched (Kept.refl k).records
    · exact .ret _ ((kept_running p k).trans (kept_of_proc_eq rfl rfl))

/-- `sched_yield` keeps the records, and returns only to the process that called it. -/
theorem keeps_schedYield (h : Hart) (tf : TrapFrame) (k : Kernel) : (k.schedYield h tf).Keeps k := by
  have hpick := (kept_saveContext h tf k).trans (Picked.choose _ h).requeued.kept
  rw [schedYield_eq]
  generalize (k.saveContext h tf).choose h = r at hpick ⊢
  rcases r with ⟨_ | p, k1⟩
  · exact (keeps_noneReady h k1).of_kept hpick
  · exact .switched (hpick.trans (kept_running p k1)).records

end OnyxKernel.Kernel
