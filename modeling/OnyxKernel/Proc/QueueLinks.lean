import OnyxKernel.Foundation.Chain
import OnyxKernel.Proc.Events

/-!
# The run queues in memory

A run queue is a singly linked list through the field `next` of its processes, with a pointer to the first and
the last of them and a counter.  All queues share the field `next` and the flag `on_rq` of a process.
`RunQueues.Refines` says which lists the pointers stand for; every sequence of calls keeps pointers and lists
together and gives the same answers on both sides (`RunQueues.refines_run`).  So the scheduler may be read with
lists in place of pointers, as `Kernel` has them (`RunQueues.Links`).
-/

namespace OnyxKernel

open List Nat Chain

open Function (update update_self update_of_ne update_eq_self)

/-- The part of memory that `runqueue.rs` works on; 0 is the null pointer. -/
@[ext]
structure RunQueues where
  head : Hart → ℕ
  tail : Hart → ℕ
  nrReady : Hart → ℕ
  next : ℕ → ℕ
  onRq : ℕ → Bool

/-- A pointer that may be dereferenced. -/
abbrev ProcPtr := { p : ℕ // p ≠ 0 }

namespace RunQueues

def empty : RunQueues where
  head _ := 0
  tail _ := 0
  nrReady _ := 0
  next _ := 0
  onRq _ := false

def enqueue (h : Hart) (p : ℕ) (q : RunQueues) : RunQueues :=
  if q.onRq p then q
  else
    let q := { q with onRq := update q.onRq p true, next := update q.next p 0 }
    let q :=
      if q.tail h = 0 then
        { q with head := update q.head h p, tail := update q.tail h p }
      else
        { q with next := update q.next (q.tail h) p, tail := update q.tail h p }
    { q with nrReady := update q.nrReady h (q.nrReady h + 1) }

def dequeue (h : Hart) (q : RunQueues) : ℕ × RunQueues :=
  let p := q.head h
  if p = 0 then (p, q)
  else
    let q := { q with head := update q.head h (q.next p) }
    let q := if q.head h = 0 then { q with tail := update q.tail h 0 } else q
    (p, { q with
      next := update q.next p 0
      onRq := update q.onRq p false
      nrReady := update q.nrReady h (q.nrReady h - 1) })

/-- `remove`; without an answer when the loop runs out of fuel. -/
def remove (fuel : ℕ) (h : Hart) (p : ℕ) (q : RunQueues) : Option (Bool × RunQueues) :=
  if q.onRq p = false then some (false, q)
  else
    match findPrev q.next p fuel (q.head h) 0 with
    | none => none
    | some none => some (false, q)
    | some (some prev) =>
      let q :=
        if prev = 0 then { q with head := update q.head h (q.next p) }
        else { q with next := update q.next prev (q.next p) }
      let q := if q.tail h = p then { q with tail := update q.tail h prev } else q
      some (true, { q with
        next := update q.next p 0
        onRq := update q.onRq p false
        nrReady := update q.nrReady h (q.nrReady h - 1) })

end RunQueues

/-! ### Queues as lists -/

/-- The calls of the run queues. -/
inductive QueueCall where
  | enqueue (h : Hart) (p : ProcPtr)
  | dequeue (h : Hart)
  | remove (h : Hart) (p : ProcPtr)

/-- What a call returns. -/
inductive QueueAnswer where
  | done
  | proc (p : ℕ)
  | removed (found : Bool)
  deriving DecidableEq

namespace QueueCall

def exec (fuel : ℕ) (q : RunQueues) : QueueCall → Option (QueueAnswer × RunQueues)
  | .enqueue h p => some (.done, q.enqueue h p)
  | .dequeue h => some (.proc (q.dequeue h).1, (q.dequeue h).2)
  | .remove h p => (q.remove fuel h p).map fun r => (.removed r.1, r.2)

/-- The calls on FIFO lists: a process that is in no queue goes to the end of a queue, and the oldest one is
taken out first. -/
def fifo (s : Hart → List ℕ) : QueueCall → QueueAnswer × (Hart → List ℕ)
  | .enqueue h p => (.done, if ∃ h', p.1 ∈ s h' then s else update s h (s h ++ [p.1]))
  | .dequeue h => (.proc ((s h).headD 0), update s h (s h).tail)
  | .remove h p => (.removed (decide (p.1 ∈ s h)), update s h ((s h).erase p))

/-- A sequence of calls, with the answers in order. -/
def run (fuel : ℕ) : List QueueCall → RunQueues → Option (List QueueAnswer × RunQueues)
  | [], q => some ([], q)
  | c :: cs, q =>
    match c.exec fuel q with
    | none => none
    | some (a, q) => (run fuel cs q).map fun r => (a :: r.1, r.2)

def runFifo : List QueueCall → (Hart → List ℕ) → List QueueAnswer × (Hart → List ℕ)
  | [], s => ([], s)
  | c :: cs, s => ((c.fifo s).1 :: (runFifo cs (c.fifo s).2).1, (runFifo cs (c.fifo s).2).2)

end QueueCall

namespace RunQueues

/-- The queues stand for lists: `head` and `next` reach exactly the list, `tail` is its last member, `nr_ready`
its length, and `on_rq` is set for the processes in a list, each of which is in one list, once. -/
structure Refines (q : RunQueues) (s : Hart → List ℕ) : Prop where
  rep : ∀ h, Chain.Rep q.next (q.head h) (s h)
  tail_eq : ∀ h, q.tail h = (s h).getLastD 0
  nrReady_eq : ∀ h, q.nrReady h = (s h).length
  onRq_iff : ∀ p, q.onRq p = true ↔ ∃ h, p ∈ s h
  nodup : ∀ h, (s h).Nodup
  unique : ∀ {h h' p}, p ∈ s h → p ∈ s h' → h = h'

variable {q q' : RunQueues} {s : Hart → List ℕ} {h : Hart} {p : ℕ} {l : List ℕ}

lemma enqueue_of_tail_eq_zero (hoff : q.onRq p = false) (htail : q.tail h = 0) :
    q.enqueue h p =
      { head := update q.head h p
        tail := update q.tail h p
        nrReady := update q.nrReady h (q.nrReady h + 1)
        next := update q.next p 0
        onRq := update q.onRq p true } := by
  simp [enqueue, hoff, htail]

lemma enqueue_of_tail_ne_zero (hoff : q.onRq p = false) (htail : q.tail h ≠ 0) :
    q.enqueue h p =
      { head := q.head
        tail := update q.tail h p
        nrReady := update q.nrReady h (q.nrReady h + 1)
        next := update (update q.next p 0) (q.tail h) p
        onRq := update q.onRq p true } := by
  simp [enqueue, hoff, htail]

lemma dequeue_of_head_ne_zero (hhead : q.head h ≠ 0) :
    q.dequeue h = (q.head h,
      { head := update q.head h (q.next (q.head h))
        tail := if q.next (q.head h) = 0 then update q.tail h 0 else q.tail
        nrReady := update q.nrReady h (q.nrReady h - 1)
        next := update q.next (q.head h) 0
        onRq := update q.onRq (q.head h) false }) := by
  simp only [dequeue, if_neg hhead, update_self]
  split_ifs <;> rfl

lemma remove_of_findPrev {fuel prev : ℕ} (hon : q.onRq p = true)
    (hfind : findPrev q.next p fuel (q.head h) 0 = some (some prev)) :
    q.remove fuel h p = some (true,
      { head := if prev = 0 then update q.head h (q.next p) else q.head
        tail := if q.tail h = p then update q.tail h prev else q.tail
        nrReady := update q.nrReady h (q.nrReady h - 1)
        next := update (if prev = 0 then q.next else update q.next prev (q.next p)) p 0
        onRq := update q.onRq p false }) := by
  simp only [remove, hon, hfind, Bool.true_eq_false, if_false]
  split_ifs <;> rfl

lemma refines_empty : Refines empty fun _ => [] where
  rep _ := rep_nil
  tail_eq _ := rfl
  nrReady_eq _ := rfl
  onRq_iff p := by simp [empty]
  nodup _ := nodup_nil
  unique hp := (not_mem_nil hp).elim

namespace Refines

section

variable (hr : Refines q s)
include hr

lemma head_eq_zero_iff : q.head h = 0 ↔ s h = [] := by
  have hrep := hr.rep h
  cases hs : s h with
  | nil =>
    rw [hs] at hrep
    exact ⟨fun _ => rfl, fun _ => hrep⟩
  | cons a l =>
    rw [hs] at hrep
    exact ⟨fun h0 => absurd (hrep.1.symm.trans h0) hrep.2.1, nofun⟩

lemma setQueue (hrep : Chain.Rep q'.next (q'.head h) l) (htail : q'.tail h = l.getLastD 0)
    (hnr : q'.nrReady h = l.length)
    (hsame : ∀ h' ≠ h, q'.head h' = q.head h' ∧ q'.tail h' = q.tail h' ∧ q'.nrReady h' = q.nrReady h')
    (hnext : ∀ h' ≠ h, ∀ a ∈ s h', q'.next a = q.next a)
    (hon : ∀ p, q'.onRq p = true ↔ p ∈ l ∨ ∃ h' ≠ h, p ∈ s h')
    (hapart : ∀ p ∈ l, ∀ h' ≠ h, p ∉ s h') : Refines q' (update s h l) := by
  have hsplit (h' : Hart) : h' = h ∧ update s h l h' = l ∨ h' ≠ h ∧ update s h l h' = s h' := by
    by_cases hh : h' = h
    · exact .inl ⟨hh, by rw [hh, update_self]⟩
    · exact .inr ⟨hh, update_of_ne hh l s⟩
  constructor
  case rep =>
    intro h'
    rcases hsplit h' with ⟨rfl, heq⟩ | ⟨hne, heq⟩ <;> rw [heq]
    · exact hrep
    · rw [(hsame h' hne).1]
      exact (hr.rep h').congr (hnext h' hne)
  case tail_eq =>
    intro h'
    rcases hsplit h' with ⟨rfl, heq⟩ | ⟨hne, heq⟩ <;> rw [heq]
    · exact htail
    · rw [(hsame h' hne).2.1, hr.tail_eq]
  case nrReady_eq =>
    intro h'
    rcases hsplit h' with ⟨rfl, heq⟩ | ⟨hne, heq⟩ <;> rw [heq]
    · exact hnr
    · rw [(hsame h' hne).2.2, hr.nrReady_eq]
  case onRq_iff =>
    intro p
    rw [hon]
    constructor
    · rintro (hp | ⟨h', hne, hp⟩)
      · exact ⟨h, by rwa [update_self]⟩
      · exact ⟨h', by rwa [update_of_ne hne]⟩
    · rintro ⟨h', hp⟩
      rcases hsplit h' with ⟨-, heq⟩ | ⟨hne, heq⟩ <;> rw [heq] at hp
      · exact .inl hp
      · exact .inr ⟨h', hne, hp⟩
  case nodup =>
    intro h'
    rcases hsplit h' with ⟨-, heq⟩ | ⟨-, heq⟩ <;> rw [heq]
    · exact hrep.nodup
    · exact hr.nodup h'
  case unique =>
    intro h1 h2 p hp1 hp2
    rcases hsplit h1 with ⟨rfl, heq1⟩ | ⟨hne1, heq1⟩ <;> rcases hsplit h2 with ⟨hh, heq2⟩ | ⟨hne2, heq2⟩ <;>
      rw [heq1] at hp1 <;> rw [heq2] at hp2
    · exact hh.symm
    · exact (hapart p hp1 h2 hne2 hp2).elim
    · exact (hapart p hp2 h1 (hh ▸ hne1) hp1).elim
    · exact hr.unique hp1 hp2

lemma leave {l1 l2 : List ℕ} (hs : s h = l1 ++ p :: l2)
    (hrep : Chain.Rep q'.next (q'.head h) (l1 ++ l2)) (htail : q'.tail h = (l1 ++ l2).getLastD 0)
    (hnr : q'.nrReady h = q.nrReady h - 1)
    (hsame : ∀ h' ≠ h, q'.head h' = q.head h' ∧ q'.tail h' = q.tail h' ∧ q'.nrReady h' = q.nrReady h')
    (hnext : ∀ a ∉ s h, q'.next a = q.next a) (hon : q'.onRq = update q.onRq p false) :
    Refines q' (update s h (l1 ++ l2)) := by
  have hmem {a : ℕ} : a ∈ s h ↔ a = p ∨ a ∈ l1 ++ l2 := by
    rw [hs]
    exact mem_middle
  have hout {a : ℕ} {h' : Hart} (hne : h' ≠ h) (ha : a ∈ s h') : a ∉ s h := fun ha' => hne (hr.unique ha ha')
  have hp : p ∉ l1 ++ l2 := by
    have hnodup := hr.nodup h
    rw [hs, nodup_middle] at hnodup
    exact (nodup_cons.mp hnodup).1
  refine hr.setQueue hrep htail ?_ hsame (fun h' hne a ha => hnext a (hout hne ha)) (fun a => ?_) ?_
  · rw [hnr, hr.nrReady_eq, hs]
    simp
  · rw [hon]
    by_cases hap : a = p
    · subst hap
      rw [update_self]
      simp only [Bool.false_eq_true, false_iff, not_or, not_exists, not_and]
      exact ⟨hp, fun h' hne ha => hout hne ha (hmem.mpr (.inl rfl))⟩
    · rw [update_of_ne hap, hr.onRq_iff]
      constructor
      · rintro ⟨h', ha⟩
        by_cases hh : h' = h
        · rw [hh, hmem] at ha
          exact .inl (ha.resolve_left hap)
        · exact .inr ⟨h', hh, ha⟩
      · rintro (ha | ⟨h', -, ha⟩)
        · exact ⟨h, hmem.mpr (.inr ha)⟩
        · exact ⟨h', ha⟩
  · exact fun a ha h' hne ha' => hout hne ha' (hmem.mpr (.inr ha))

lemma join (hp : p ≠ 0) (hout : ∀ h', p ∉ s h') : Refines (q.enqueue h p) (update s h (s h ++ [p])) := by
  have hoff : q.onRq p = false := by
    rw [← Bool.not_eq_true, hr.onRq_iff]
    exact fun ⟨h', hmem⟩ => hout h' hmem
  have hon (a : ℕ) : update q.onRq p true a = true ↔ a ∈ s h ++ [p] ∨ ∃ h' ≠ h, a ∈ s h' := by
    rw [mem_append, mem_singleton]
    by_cases hap : a = p
    · subst hap
      rw [update_self]
      exact ⟨fun _ => .inl (.inr rfl), fun _ => rfl⟩
    · rw [update_of_ne hap, hr.onRq_iff]
      constructor
      · rintro ⟨h', ha⟩
        by_cases hh : h' = h
        · exact .inl (.inl (hh ▸ ha))
        · exact .inr ⟨h', hh, ha⟩
      · rintro ((ha | ha) | ⟨h', -, ha⟩)
        · exact ⟨h, ha⟩
        · exact absurd ha hap
        · exact ⟨h', ha⟩
  have hapart : ∀ a ∈ s h ++ [p], ∀ h' ≠ h, a ∉ s h' := by
    intro a ha h' hne ha'
    rcases mem_append.mp ha with ha | ha
    · exact hne (hr.unique ha' ha)
    · exact hout h' (mem_singleton.mp ha ▸ ha')
  have hne {a : ℕ} {h' : Hart} (ha : a ∈ s h') : a ≠ p := fun heq => hout h' (heq ▸ ha)
  rcases eq_nil_or_concat (s h) with hs | ⟨l, t, hs⟩
  · -- the queue is empty: the process is its first and its last one
    have htail : q.tail h = 0 := by rw [hr.tail_eq, hs, getLastD_nil]
    rw [enqueue_of_tail_eq_zero hoff htail]
    refine hr.setQueue ?_ ?_ ?_ (fun h' hh => ?_) (fun h' _ a ha => ?_) hon hapart
    · dsimp only
      rw [hs, update_self]
      exact ⟨rfl, hp, update_self ..⟩
    · simp [hs]
    · simp [hr.nrReady_eq, hs]
    · simp [update_of_ne hh]
    · exact update_of_ne (hne ha) ..
  · rw [concat_eq_append] at hs
    have htail : q.tail h = t := by rw [hr.tail_eq, hs, getLastD_concat]
    have hmem : t ∈ s h := by simp [hs]
    have hrep := hr.rep h
    have ht : q.tail h ≠ 0 := htail.symm ▸ hrep.ne_zero hmem
    have htl : t ∉ l := by
      have hnodup := hr.nodup h
      rw [hs] at hnodup
      exact fun hin => (nodup_append.mp hnodup).2.2 t hin t (mem_singleton_self t) rfl
    rw [enqueue_of_tail_ne_zero hoff ht, htail]
    refine hr.setQueue ?_ ?_ ?_ (fun h' hh => ?_) (fun h' hh a ha => ?_) hon hapart <;> dsimp only
    · rw [hs] at hrep ⊢
      refine hrep.concat hp (update_self ..) ?_ fun x hx => ?_
      · rw [update_of_ne (hne hmem).symm, update_self]
      · have hxs : x ∈ s h := by simp [hs, hx]
        have hxt : x ≠ t := fun heq => htl (heq ▸ hx)
        rw [update_of_ne hxt, update_of_ne (hne hxs)]
    · simp
    · simp [hr.nrReady_eq]
    · simp [update_of_ne hh]
    · have hat : a ≠ t := fun heq => hh (hr.unique (heq ▸ ha) hmem)
      rw [update_of_ne hat, update_of_ne (hne ha)]

/-- `enqueue` appends a process that is in no queue, and does nothing to the others. -/
theorem enqueue (hp : p ≠ 0) :
    Refines (q.enqueue h p) (if ∃ h', p ∈ s h' then s else update s h (s h ++ [p])) := by
  split_ifs with hin
  · unfold RunQueues.enqueue
    rwa [if_pos ((hr.onRq_iff p).mpr hin)]
  · exact hr.join hp fun h' hmem => hin ⟨h', hmem⟩

lemma dequeue : (q.dequeue h).1 = (s h).headD 0 ∧ Refines (q.dequeue h).2 (update s h (s h).tail) := by
  have hrep := hr.rep h
  have htail := hr.tail_eq h
  cases hs : s h with
  | nil =>
    have hhead := hr.head_eq_zero_iff.mpr hs
    have heq : q.dequeue h = (q.head h, q) := by simp [RunQueues.dequeue, hhead]
    rw [heq, tail_nil, ← hs, update_eq_self]
    exact ⟨by rw [hs]; exact hhead, hr⟩
  | cons a l =>
    rw [hs] at hrep htail
    obtain ⟨rfl, hne, hrest⟩ := id hrep
    have hout : q.head h ∉ l := (nodup_cons.mp hrep.nodup).1
    rw [dequeue_of_head_ne_zero hne]
    refine ⟨rfl, hr.leave (show s h = [] ++ q.head h :: l from hs) ?_ ?_ ?_ (fun h' hh => ?_) (fun b hb => ?_) rfl⟩ <;> dsimp only
    · rw [update_self]
      refine Chain.Rep.congr hrest fun b hb => ?_
      have hne' : b ≠ q.head h := fun heq => hout (heq ▸ hb)
      exact update_of_ne hne' ..
    · cases l with
      | nil => rw [if_pos (show q.next (q.head h) = 0 from hrest), update_self, nil_append,
          getLastD_nil]
      | cons b l =>
        have hb : q.next (q.head h) ≠ 0 := hrest.1.symm ▸ hrest.2.1
        rw [if_neg hb, htail]
        simp
    · rw [update_self]
    · rw [update_of_ne hh, update_of_ne hh]
      split_ifs
      · rw [update_of_ne hh]
        exact ⟨rfl, rfl, rfl⟩
      · exact ⟨rfl, rfl, rfl⟩
    · refine update_of_ne (fun heq => hb ?_) ..
      rw [hs, heq]
      exact mem_cons_self

lemma remove_of_mem {fuel : ℕ} (hmem : p ∈ s h) (hfuel : (s h).length < fuel) :
    ∃ q', q.remove fuel h p = some (true, q') ∧ Refines q' (update s h ((s h).erase p)) := by
  obtain ⟨l1, l2, hs⟩ := append_of_mem hmem
  have hrep := hr.rep h
  have htail := hr.tail_eq h
  have hnodup := hr.nodup h
  rw [hs] at hrep htail hnodup hfuel
  have hlen : l1.length < fuel := by
    rw [length_append] at hfuel
    omega
  have hp1 : p ∉ l1 := fun hin => (nodup_append.mp hnodup).2.2 p hin p mem_cons_self rfl
  have hp2 : p ∉ l2 := (nodup_cons.mp (nodup_append.mp hnodup).2.1).1
  have herase : (s h).erase p = l1 ++ l2 := by
    rw [hs, erase_append_right _ hp1, erase_cons_head]
  refine ⟨_, remove_of_findPrev ((hr.onRq_iff p).mpr ⟨h, hmem⟩) (findPrev_eq hrep hlen), ?_⟩
  rw [herase]
  have hp12 : p ∉ l1 ++ l2 := fun hin => (mem_append.mp hin).elim hp1 hp2
  have hcut {f : ℕ → ℕ} {a : ℕ} (hf : Chain.Rep f a (l1 ++ l2)) :
      Chain.Rep (update f p 0) a (l1 ++ l2) :=
    hf.congr fun b hb => update_of_ne (ne_of_mem_of_not_mem hb hp12) ..
  -- the process before the removed one is null exactly when the removed one is the first
  have hprev : l1.getLastD 0 = 0 ∧ l1 = [] ∨ l1.getLastD 0 ≠ 0 ∧ ∃ l, l1 = l ++ [l1.getLastD 0] := by
    rcases eq_nil_or_concat l1 with rfl | ⟨l, t, hl⟩
    · exact .inl ⟨rfl, rfl⟩
    · rw [concat_eq_append] at hl
      have ht : t ≠ 0 := hrep.ne_zero (by simp [hl])
      subst hl
      rw [getLastD_concat]
      exact .inr ⟨ht, l, rfl⟩
  refine hr.leave hs ?_ ?_ ?_ (fun h' hh => ?_) (fun b hb => ?_) rfl <;> dsimp only
  · apply hcut
    rcases hprev with ⟨hzero, hnil⟩ | ⟨hne, l, hl⟩
    · subst hnil
      obtain ⟨rfl, -, hrest⟩ := hrep
      rwa [if_pos hzero, if_pos hzero, update_self]
    · rw [if_neg hne, if_neg hne]
      generalize l1.getLastD 0 = t at hl ⊢
      rw [hl, append_assoc, singleton_append] at hrep ⊢
      exact hrep.unlink (update_self ..) fun b _ hb => update_of_ne hb ..
  · rcases eq_nil_or_concat l2 with rfl | ⟨l, t, hl⟩
    · rw [getLastD_concat] at htail
      rw [if_pos htail, update_self, append_nil]
    · rw [concat_eq_append] at hl
      subst hl
      rw [← cons_append, ← append_assoc, getLastD_concat] at htail
      have htp : t ≠ p := fun heq => hp2 (by simp [heq])
      rw [if_neg (htail.symm ▸ htp), htail, ← append_assoc, getLastD_concat]
  · rw [update_self]
  · refine ⟨?_, ?_, update_of_ne hh ..⟩
    · split_ifs
      · exact update_of_ne hh ..
      · rfl
    · split_ifs
      · exact update_of_ne hh ..
      · rfl
  · have hbp : b ≠ p := fun heq => hb (heq ▸ hmem)
    rw [update_of_ne hbp]
    split_ifs with hzero
    · rfl
    · rcases hprev with ⟨hz, -⟩ | ⟨-, l, hl⟩
      · exact absurd hz hzero
      · refine update_of_ne (fun heq => hb ?_) ..
        rw [hs, hl, heq]
        simp

/-- `remove` deletes exactly the process, and answers whether it was in the queue. -/
theorem remove {fuel : ℕ} (hfuel : (s h).length < fuel) :
    ∃ q', q.remove fuel h p = some (decide (p ∈ s h), q') ∧
      Refines q' (update s h ((s h).erase p)) := by
  by_cases hmem : p ∈ s h
  · rw [decide_eq_true hmem]
    exact hr.remove_of_mem hmem hfuel
  · have hsame : update s h ((s h).erase p) = s := by
      rw [erase_of_not_mem hmem, update_eq_self]
    rw [decide_eq_false hmem, hsame]
    refine ⟨q, ?_, hr⟩
    unfold RunQueues.remove
    rw [findPrev_eq_none (hr.rep h) hmem hfuel]
    split <;> rfl

lemma exec {fuel : ℕ} (hfuel : ∀ h, (s h).length < fuel) (c : QueueCall) :
    ∃ q', c.exec fuel q = some ((c.fifo s).1, q') ∧ Refines q' (c.fifo s).2 := by
  cases c with
  | enqueue h p => exact ⟨_, rfl, hr.enqueue p.2⟩
  | dequeue h => exact ⟨_, by rw [QueueCall.exec, hr.dequeue.1]; rfl, hr.dequeue.2⟩
  | remove h p =>
    obtain ⟨q', heq, hr'⟩ := hr.remove (p := p) (hfuel h)
    exact ⟨q', by rw [QueueCall.exec, heq]; rfl, hr'⟩

end

end Refines

lemma length_fifo_le (c : QueueCall) (s : Hart → List ℕ) (h : Hart) :
    ((c.fifo s).2 h).length ≤ (s h).length + 1 := by
  have hupdate {h' : Hart} {l : List ℕ} (hl : l.length ≤ (s h').length + 1) :
      (update s h' l h).length ≤ (s h).length + 1 := by
    by_cases hh : h = h'
    · subst hh
      rwa [update_self]
    · rw [update_of_ne hh]
      exact le_succ _
  cases c with
  | enqueue h' p =>
    unfold QueueCall.fifo
    dsimp only
    split
    · exact le_succ _
    · exact hupdate (by simp)
  | dequeue h' => exact hupdate (by simp; omega)
  | remove h' p => exact hupdate (length_erase_le.trans (le_succ _))

lemma Refines.run {fuel : ℕ} (cs : List QueueCall) (hr : Refines q s)
    (hfuel : ∀ h, (s h).length + cs.length ≤ fuel) :
    ∃ q', QueueCall.run fuel cs q = some ((QueueCall.runFifo cs s).1, q') ∧
      Refines q' (QueueCall.runFifo cs s).2 := by
  induction cs generalizing q s with
  | nil => exact ⟨q, rfl, hr⟩
  | cons c cs ih =>
    simp only [length_cons] at hfuel
    have hfuel0 (h : Hart) : (s h).length < fuel := by
      have := hfuel h
      omega
    obtain ⟨q1, hexec, hr1⟩ := hr.exec hfuel0 c
    have hfuel1 (h : Hart) : ((c.fifo s).2 h).length + cs.length ≤ fuel := by
      have := hfuel h
      have := length_fifo_le c s h
      omega
    obtain ⟨q2, hrun, hr2⟩ := ih hr1 hfuel1
    exact ⟨q2, by rw [QueueCall.run, hexec]; simp only [hrun]; rfl, hr2⟩

/-- Every sequence of calls that starts with empty queues gives the answers of FIFO lists, and ends with queues
that stand for these lists. -/
theorem refines_run {fuel : ℕ} (cs : List QueueCall) (hfuel : cs.length ≤ fuel) :
    ∃ q, QueueCall.run fuel cs empty = some ((QueueCall.runFifo cs fun _ => []).1, q) ∧
      Refines q (QueueCall.runFifo cs fun _ => []).2 :=
  refines_empty.run cs fun _ => by simpa using hfuel

/-- Three processes in one queue; the last one is removed, and the queue goes on with another one. -/
theorem refines_run_remove_tail :
    ∃ q, QueueCall.run 6 [.enqueue 0 ⟨1, by decide⟩, .enqueue 0 ⟨2, by decide⟩, .enqueue 0 ⟨3, by decide⟩,
      .remove 0 ⟨3, by decide⟩, .enqueue 0 ⟨4, by decide⟩, .dequeue 0] empty =
        some ([.done, .done, .done, .removed true, .done, .proc 1], q) ∧
      Refines q (update (fun _ => []) 0 [2, 4]) := by
  obtain ⟨q, hrun, hr⟩ := refines_run [.enqueue 0 ⟨1, by decide⟩, .enqueue 0 ⟨2, by decide⟩,
    .enqueue 0 ⟨3, by decide⟩, .remove 0 ⟨3, by decide⟩, .enqueue 0 ⟨4, by decide⟩, .dequeue 0] (show _ ≤ 6 by decide)
  refine ⟨q, hrun, ?_⟩
  convert hr using 1
  decide

/-! ### The queues of the scheduler -/

/-- The queues in memory are those of the kernel's state, which are sound. -/
structure Links (q : RunQueues) (k : Kernel) : Prop where
  refines : Refines q k.runQueue
  sound : k.QueuesSound

namespace Links

variable {k : Kernel}

lemma onRq_eq (hl : Links q k) (p : ℕ) : q.onRq p = (k.proc p).onRq := by
  rw [Bool.eq_iff_iff, hl.refines.onRq_iff]
  exact ⟨fun ⟨_, hmem⟩ => hl.sound.onRq_of_mem hmem, hl.sound.mem_of_onRq⟩

lemma enqueue (hl : Links q k) (hp : p ≠ 0) : Links (q.enqueue h p) (k.enqueue h p) := by
  have hr := hl.refines.enqueue (h := h) hp
  refine ⟨?_, hl.sound.enqueue h p⟩
  cases hon : (k.proc p).onRq with
  | true =>
    rw [if_pos (hl.sound.mem_of_onRq hon)] at hr
    rwa [Kernel.enqueue_of_onRq hon]
  | false =>
    have hnew : ¬∃ h', p ∈ k.runQueue h' := by
      rw [← hl.refines.onRq_iff, hl.onRq_eq, hon]
      exact Bool.false_ne_true
    rw [if_neg hnew] at hr
    rwa [Kernel.enqueue_of_not_onRq hon]

lemma dequeue (hl : Links q k) :
    (q.dequeue h).1 = (k.dequeue h).1.getD 0 ∧ Links (q.dequeue h).2 (k.dequeue h).2 := by
  obtain ⟨hfirst, hr⟩ := hl.refines.dequeue (h := h)
  cases hs : k.runQueue h with
  | nil =>
    rw [hs, tail_nil, ← hs, update_eq_self] at hr
    rw [hs] at hfirst
    rw [Kernel.dequeue_of_nil hs]
    exact ⟨hfirst, hr, hl.sound⟩
  | cons a l =>
    rw [hs] at hfirst hr
    rw [Kernel.dequeue_of_cons hs]
    exact ⟨hfirst, hr, hl.sound.relink_tail hs⟩

end Links

/-- From boot on, pointers and lists go together through every sequence of `enqueue` and `dequeue`, and the
next `dequeue` gives the same process. -/
theorem links_run (mm : Mm) (cs : List (Hart × Option ProcPtr)) (h : Hart) :
    let q := cs.foldl (fun q c => c.2.elim (q.dequeue c.1).2 fun p => q.enqueue c.1 p) empty
    let k := cs.foldl (fun k c => c.2.elim (k.dequeue c.1).2 fun p => k.enqueue c.1 p) (Kernel.boot mm)
    Links q k ∧ (q.dequeue h).1 = (k.dequeue h).1.getD 0 := by
  intro q k
  have hl : Links q k := by
    refine foldl_rel ⟨refines_empty, fun p => ?_⟩ ?_
    · simp [Kernel.linkCount, Kernel.boot]
    · rintro ⟨h, _ | p⟩ - q k hl
      · exact hl.dequeue.2
      · exact hl.enqueue p.2
  exact ⟨hl, hl.dequeue.1⟩

end RunQueues

end OnyxKernel
