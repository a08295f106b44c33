import OnyxKernel.Proc.Wakeup

/-!
# Affinity

A process that is pinned to a hart must be dispatched there only.  `steal` looks at the affinity of the
process it takes, and `sched_yield` looks at that of the first process of its queue.  When the first one
belongs elsewhere it is passed on, and the next one is taken unseen.  So the affinity of the process that
is dispatched is respected exactly in the states in which the second process of the queue may run here if
the first one may not (`affinityRespected_iff`).
-/

namespace OnyxKernel

open List Option Function Onx

/-- The process to which a piece of kernel code switches. -/
def Flow.dest {α : Type} : Flow α → Option ℕ
  | .switched dest _ => dest
  | _ => none

namespace Kernel

variable {h : Hart} {tf : TrapFrame} {k k' : Kernel} {p q x y : ℕ} {rest : List ℕ}

/-- The process to which `sched_yield` on `h` switches is not pinned to another hart. -/
def AffinityRespected (h : Hart) (tf : TrapFrame) (k : Kernel) : Prop :=
  ∀ q a, (k.schedYield h tf).dest = some q → (k.proc q).affinity = some a → h = a

/-- The queue from which `sched_yield` takes a process. -/
def queueAfterSave (h : Hart) (k : Kernel) : List ℕ :=
  k.runQueue h ++
    match k.hartCurrent h with
    | none => []
    | some p => if (k.proc p).state = .running ∧ (k.proc p).onRq = false then [p] else []

/-- If the first process of the queue is pinned to another hart, the second one is not. -/
def SecondMayRun (h : Hart) (k : Kernel) : Prop :=
  ∀ x y rest, queueAfterSave h k = x :: y :: rest → k.pinnedElsewhere h x ≠ none →
    k.pinnedElsewhere h y = none

lemma pinnedElsewhere_eq_none_iff :
    k.pinnedElsewhere h p = none ↔ ∀ a, (k.proc p).affinity = some a → h = a := by
  rw [pinnedElsewhere, filter_eq_none_iff]
  constructor
  · intro hp a ha
    by_contra hne
    exact hp a ha (decide_eq_true (Ne.symm hne))
  · intro hp a ha hne
    exact of_decide_eq_true hne (hp a ha).symm

lemma saveContext_spec (h : Hart) (tf : TrapFrame) (k : Kernel) :
    (k.saveContext h tf).runQueue h = queueAfterSave h k ∧
      ∀ x, (k.saveContext h tf).pinnedElsewhere h x = k.pinnedElsewhere h x := by
  cases hcur : k.hartCurrent h with
  | none =>
    rw [saveContext_of_none hcur, queueAfterSave, hcur]
    exact ⟨(append_nil _).symm, fun _ => rfl⟩
  | some p =>
    have hsaved := saved_saveContext hcur tf
    refine ⟨?_, fun x => ?_⟩
    · rw [hsaved.queue_eq, update_self, queueAfterSave, hcur]
    · rw [pinnedElsewhere, pinnedElsewhere]
      by_cases hx : x = p
      · rw [hx, hsaved.proc_self]
      · rw [hsaved.proc_of_ne x hx]

/-! ### The process that is taken -/

lemma pickNext_of_unpinned (hqueue : k.runQueue h = x :: rest) (hpin : k.pinnedElsewhere h x = none) :
    (k.pickNext h).1 = some x := by
  unfold pickNext
  rw [dequeue_of_cons hqueue]
  dsimp only
  rw [(requeued_relink x false h rest k).pinnedElsewhere_eq, hpin]

lemma pickNext_of_pinned {a : Hart} (hqueue : k.runQueue h = x :: rest)
    (hpin : k.pinnedElsewhere h x = some a) :
    k.pickNext h = ((k.relink x false h rest).enqueue a x).dequeue h ∧
      ((k.relink x false h rest).enqueue a x).runQueue h = rest := by
  constructor
  · unfold pickNext
    rw [dequeue_of_cons hqueue]
    dsimp only
    rw [(requeued_relink x false h rest k).pinnedElsewhere_eq, hpin]
  · rw [runQueue_enqueue_of_ne (pinnedElsewhere_ne hpin).symm, runQueue_relink_self]

lemma pickNext_second (hqueue : k.runQueue h = x :: y :: rest) (hpin : k.pinnedElsewhere h x ≠ none) :
    (k.pickNext h).1 = some y := by
  obtain ⟨a, ha⟩ := ne_none_iff_exists'.mp hpin
  obtain ⟨heq, hrest⟩ := pickNext_of_pinned hqueue ha
  rw [heq, dequeue_of_cons hrest]

lemma pickNext_cases (hsecond : ∀ x y rest, k.runQueue h = x :: y :: rest →
      k.pinnedElsewhere h x ≠ none → k.pinnedElsewhere h y = none) :
    (∀ q, (k.pickNext h).1 = some q → k.pinnedElsewhere h q = none) ∧
      ((k.pickNext h).1 = none → (k.pickNext h).2.runQueue h = []) := by
  cases hqueue : k.runQueue h with
  | nil =>
    have heq : k.pickNext h = (none, k) := by
      unfold pickNext
      rw [dequeue_of_nil hqueue]
    rw [heq]
    exact ⟨fun q hq => (nomatch hq), fun _ => hqueue⟩
  | cons x rest =>
    cases hpin : k.pinnedElsewhere h x with
    | none =>
      have heq := pickNext_of_unpinned hqueue hpin
      refine ⟨fun q hq => ?_, fun hnone => ?_⟩
      · rw [heq] at hq
        rwa [← some.inj hq]
      · rw [heq] at hnone
        cases hnone
    | some a =>
      cases rest with
      | nil =>
        obtain ⟨heq, hrest⟩ := pickNext_of_pinned hqueue hpin
        rw [heq, dequeue_of_nil hrest]
        exact ⟨fun q hq => (nomatch hq), fun _ => hrest⟩
      | cons y rest =>
        have hne : k.pinnedElsewhere h x ≠ none := by
          rw [hpin]
          exact some_ne_none a
        have heq := pickNext_second hqueue hne
        refine ⟨fun q hq => ?_, fun hnone => ?_⟩
        · rw [heq] at hq
          rw [← some.inj hq]
          exact hsecond x y rest hqueue hne
        · rw [heq] at hnone
          cases hnone

lemma choose_unpinned (hsecond : ∀ x y rest, k.runQueue h = x :: y :: rest →
      k.pinnedElsewhere h x ≠ none → k.pinnedElsewhere h y = none)
    (hq : (k.choose h).1 = some q) : k.pinnedElsewhere h q = none := by
  obtain ⟨hpick, hempty⟩ := pickNext_cases hsecond
  have hreq := (Picked.pickNext k h).requeued
  unfold choose at hq
  rcases hr : k.pickNext h with ⟨_ | p, k1⟩
  · rw [hr] at hq hempty hreq
    have hstolen := stolen_steal h k1
    dsimp only at hq
    rcases hs : k1.steal h with ⟨_ | p, k2⟩
    · -- nothing is left for the last attempt
      rw [hs] at hq hstolen
      dsimp only at hq
      rw [dequeue_of_nil (perm_nil.mp (hempty rfl ▸ hstolen.1 h))] at hq
      cases hq
    · rw [hs] at hq hstolen
      rw [← hreq.pinnedElsewhere_eq, ← some.inj hq]
      exact hstolen.1
  · rw [hr] at hq hpick
    exact hpick q hq

lemma dest_schedYield (h : Hart) (tf : TrapFrame) (k : Kernel) :
    (k.schedYield h tf).dest = ((k.saveContext h tf).choose h).1 := by
  rw [schedYield_eq]
  rcases (k.saveContext h tf).choose h with ⟨_ | q, k1⟩
  · rw [resume, noneReady]
    split
    · rfl
    · split_ifs
      · rfl
      · rfl
      · rfl
  · rfl

/-- `sched_yield` on a hart respects the affinity of the process that it dispatches exactly if the second
process of the queue may run on the hart whenever the first one may not. -/
theorem affinityRespected_iff (h : Hart) (tf : TrapFrame) (k : Kernel) :
    AffinityRespected h tf k ↔ SecondMayRun h k := by
  obtain ⟨hqueue, hpins⟩ := saveContext_spec h tf k
  constructor
  · intro hresp x y rest hxy hx
    rw [pinnedElsewhere_eq_none_iff]
    intro a ha
    refine hresp y a ?_ ha
    have hpick : ((k.saveContext h tf).pickNext h).1 = some y :=
      pickNext_second (hqueue.trans hxy) (by rwa [hpins])
    rw [dest_schedYield, choose]
    rcases hr : (k.saveContext h tf).pickNext h with ⟨_ | p, k1⟩
    · rw [hr] at hpick
      cases hpick
    · rw [hr] at hpick
      exact hpick
  · intro hsecond q a hdest ha
    rw [dest_schedYield] at hdest
    have hfree : (k.saveContext h tf).pinnedElsewhere h q = none := by
      refine choose_unpinned (fun x y rest hxy hx => ?_) hdest
      rw [hpins] at hx ⊢
      exact hsecond x y rest (hqueue.symm.trans hxy) hx
    rw [hpins] at hfree
    exact pinnedElsewhere_eq_none_iff.mp hfree a ha

/-! ### Stealing -/

/-- What `steal` is for: it finds a process that may run on `h` if another hart has one queued, it takes exactly
this process, and a new process may run on `h`. -/
structure FindsWork (h : Hart) (k : Kernel) : Prop where
  found_iff : (k.steal h).1 ≠ none ↔ ∃ v ≠ h, ∃ p ∈ k.runQueue v, k.pinnedElsewhere h p = none
  taken : ∀ p, (k.steal h).1 = some p → k.pinnedElsewhere h p = none ∧ ∃ v ≠ h, p ∈ k.runQueue v ∧
    ∀ u, ((k.steal h).2.runQueue u).Perm (if u = v then (k.runQueue u).erase p else k.runQueue u)
  kept : (k.steal h).1 = none → ∀ u, ((k.steal h).2.runQueue u).Perm (k.runQueue u)
  created : ∀ a p entry ustack rootPa pid parentPid heapBrk ring argc argvSp k',
    k.createUser a (.ok p) entry ustack rootPa pid parentPid heapBrk ring argc argvSp = .ok k' →
      k'.pinnedElsewhere h p = none

/-- If another hart has a process queued that may run on `h`, then one of these is the first of its queue. -/
def FirstMayRun (h : Hart) (k : Kernel) : Prop :=
  (∃ v ≠ h, ∃ p ∈ k.runQueue v, k.pinnedElsewhere h p = none) →
    ∃ v ≠ h, ∃ p ∈ (k.runQueue v).head?, k.pinnedElsewhere h p = none

lemma pinnedElsewhere_createUser {a : Hart} {entry ustack rootPa pid parentPid heapBrk argc argvSp : ℕ}
    {ring : UInt8} (hok : k.createUser a (.ok p) entry ustack rootPa pid parentPid heapBrk ring argc argvSp = .ok k') :
    k'.pinnedElsewhere h p = none ↔ h = 0 := by
  obtain ⟨q, hq, rfl⟩ := createUser_ok hok
  cases hq
  rw [withRecord, (requeued_enqueue a p _).pinnedElsewhere_eq, pinnedElsewhere]
  dsimp only
  rw [update_self]
  exact (by decide : ∀ h : Hart, (some (0 : Hart)).filter (· ≠ h) = none ↔ h = 0) h

/-- With the locks of the other harts free, `steal` does what it is for exactly on hart 0, to which every new
process is pinned, and exactly if it does not matter that only the first process of a queue is looked at. -/
theorem findsWork_iff (hfree : ∀ v ≠ h, k.rqLocked v = false) : FindsWork h k ↔ h = 0 ∧ FirstMayRun h k := by
  have hstolen := stolen_steal h k
  rw [Stolen] at hstolen
  constructor
  · intro hw
    refine ⟨?_, fun hex => ?_⟩
    · have hok : k.createUser 0 (.ok 0) 1 0 0 0 0 0 0 0 0 = .ok _ := rfl
      exact (pinnedElsewhere_createUser hok).mp (hw.created _ _ _ _ _ _ _ _ _ _ _ _ hok)
    · obtain ⟨p, hp⟩ := ne_none_iff_exists'.mp (hw.found_iff.mpr hex)
      rw [hp] at hstolen
      obtain ⟨hpin, v, hv, hhead, -⟩ := hstolen
      exact ⟨v, mem_victims.mp hv, p, hhead, hpin⟩
  · rintro ⟨hzero, hfirst⟩
    have htaken {q : ℕ} (hq : (k.steal h).1 = some q) : k.pinnedElsewhere h q = none ∧ ∃ v ≠ h,
        q ∈ k.runQueue v ∧
          ∀ u, ((k.steal h).2.runQueue u).Perm (if u = v then (k.runQueue u).erase q else k.runQueue u) := by
      rw [hq] at hstolen
      obtain ⟨hpin, v, hv, hhead, hqueues⟩ := hstolen
      obtain ⟨rest, hrest⟩ := head?_eq_some_iff.mp hhead
      refine ⟨hpin, v, mem_victims.mp hv, hrest ▸ mem_cons_self, fun u => (hqueues u).trans ?_⟩
      split
      · next hu => rw [hu, hrest, tail_cons, erase_cons_head]
      · rfl
    refine ⟨⟨fun hne => ?_, fun hex hnone => ?_⟩, fun q => htaken, fun hnone => ?_, ?_⟩
    · obtain ⟨q, hq⟩ := ne_none_iff_exists'.mp hne
      obtain ⟨hpin, v, hv, hmem, -⟩ := htaken hq
      exact ⟨v, hv, q, hmem, hpin⟩
    · rw [hnone] at hstolen
      obtain ⟨v, hv, p, hp, hpin⟩ := hfirst hex
      exact hstolen.2 v (mem_victims.mpr hv) (hfree v hv) p hp hpin
    · rw [hnone] at hstolen
      exact hstolen.1
    · intro a p entry ustack rootPa pid parentPid heapBrk ring argc argvSp k' hok
      exact (pinnedElsewhere_createUser hok).mpr hzero

/-- Hart `v` has two processes queued, of which the first is pinned to hart 0 and the second to hart 1. -/
def twoQueued (v : Hart) : Kernel :=
  { (System.boot freshMm).kernel with
    proc := fun p => { affinity := some (if p = 1 then 0 else 1), onRq := true }
    runQueue := update (fun _ => []) v [1, 2] }

/-- Hart 1 does not find its process behind one of hart 0. -/
theorem not_findsWork_twoQueued : (∀ v ≠ 1, (twoQueued 0).rqLocked v = false) ∧
    (twoQueued 0).pinnedElsewhere 1 2 = none ∧ ((twoQueued 0).steal 1).1 = none ∧ ¬FindsWork 1 (twoQueued 0) := by
  refine ⟨by decide, by decide, by decide, fun hw => hw.found_iff.mpr ⟨0, by decide, 2, by decide, by decide⟩ ?_⟩
  decide

/-- Hart 0 finds its process in front of one of hart 1. -/
theorem findsWork_twoQueued : (∀ v ≠ 0, (twoQueued 1).rqLocked v = false) ∧ FindsWork 0 (twoQueued 1) :=
  ⟨by decide, (findsWork_iff (by decide)).mpr ⟨rfl, fun _ => ⟨1, by decide, 1, by decide, by decide⟩⟩⟩

/-! ### A run -/

/-- The first process may set the affinity of others; there are three processes. -/
def pinnedTwo : System :=
  [ .createUser 0 0x1000 0x10000 0x40000000 0 1 0 0 procRingRoot 0 0,
    createSecond,
    .createUser 0 0x3000 0x10000 0x40000000 0 3 1 0 procRingUser 0 0,
    .yield 0 {}, .setaffinity 0 2 1, .setaffinity 0 3 1 ].foldl
      (fun s e => SchedEvent.step e s) (System.boot freshMm)

/-- Two processes are pinned to hart 1; hart 0 dispatches the second of them. -/
theorem dispatched_elsewhere : ∃ s : System,
    Relation.ReflTransGen (SchedStep fun _ _ => True) (System.boot freshMm) s ∧
      (s.kernel.proc 0x3000).affinity = some 1 ∧ ¬ AffinityRespected 0 {} s.kernel := by
  refine ⟨pinnedTwo, ?_, by decide +kernel, fun hresp => ?_⟩
  · refine .tail (.tail (.tail (.tail (.tail (.single (.event _ ?_ trivial)) (.event _ ?_ trivial))
      (.event _ ?_ trivial)) (.event (.yield 0 {}) trivial trivial))
      (.event (.setaffinity 0 2 1) trivial trivial)) (.event (.setaffinity 0 3 1) trivial trivial)
    · exact not_mem_nil
    · rw [createSecond, SchedEvent.Possible]
      decide +kernel
    · rw [SchedEvent.Possible]
      decide +kernel
  · have hdest : (pinnedTwo.kernel.schedYield 0 {}).dest = some 0x3000 := by decide +kernel
    have hpin : (pinnedTwo.kernel.proc 0x3000).affinity = some 1 := by decide +kernel
    exact absurd (hresp 0x3000 1 hdest hpin) (by decide)

end Kernel

end OnyxKernel
