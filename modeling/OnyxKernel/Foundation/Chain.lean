import Mathlib

/-!
# Null-terminated chains

A chain is a list of nodes in memory: every node is a nonzero address, `next` gives the node behind
it, and the last node points to 0.  `Seg next head l tail` says that the nodes `l` lead from `head`
to `tail`; a chain is a segment that ends in 0.  A chain has no node twice (`Rep.nodup`), so it is
acyclic.

The two loops over chains are `search`, which stops at the first node that passes a test, and
`findPrev`, which looks for a node and remembers the node before it.  Both take fuel and answer
`none` when it runs out; on a chain that is shorter than the fuel they answer (`search_eq`,
`findPrev_eq`).

In a doubly linked chain (`Linked`) the nodes also know the node before them.  `Linked.insert` and
`Linked.remove` are the two edits: a new node behind a node, and the removal of the node behind a
node.
-/

namespace Chain

open List Nat

/-- The nodes `l` lead from `head` to `tail`. -/
def Seg (next : ℕ → ℕ) : ℕ → List ℕ → ℕ → Prop
  | head, [], tail => head = tail
  | head, a :: l, tail => head = a ∧ a ≠ 0 ∧ Seg next (next a) l tail

/-- The chain that starts at `head` consists of the nodes `l`. -/
def Rep (next : ℕ → ℕ) (head : ℕ) (l : List ℕ) : Prop := Seg next head l 0

/-- Walk the chain from `cur` on until a node passes the test. -/
def search {β : Type} (next : ℕ → ℕ) (test : ℕ → Option β) : (fuel cur : ℕ) → Option (Option β)
  | 0, _ => none
  | fuel + 1, cur =>
    if cur = 0 then some none
    else
      match test cur with
      | some b => some (some b)
      | none => search next test fuel (next cur)

/-- Walk the chain from `cur` on, with `prev` the node before it, until `cur` is `target`; the
answer is the node before `target`. -/
def findPrev (next : ℕ → ℕ) (target : ℕ) : (fuel cur prev : ℕ) → Option (Option ℕ)
  | 0, _, _ => none
  | fuel + 1, cur, prev =>
    if cur = 0 then some none
    else if cur = target then some (some prev)
    else findPrev next target fuel (next cur) cur

variable {next next' : ℕ → ℕ} {head tail : ℕ} {l l1 l2 : List ℕ} {α β : Type} {a fuel target prev : ℕ}

lemma mem_middle {x a : α} {l1 l2 : List α} : x ∈ l1 ++ a :: l2 ↔ x = a ∨ x ∈ l1 ++ l2 := by
  rw [perm_middle.mem_iff, mem_cons]

/-- In a list of members with different keys, the members without one of them are those with
another key. -/
theorem mem_remove_iff {f : α → β} {before after : List α} {a x : α}
    (hkeys : (before ++ a :: after).Pairwise fun x y => f x ≠ f y) :
    x ∈ before ++ after ↔ x ∈ before ++ a :: after ∧ f x ≠ f a := by
  obtain ⟨-, hcons, hcross⟩ := pairwise_append.mp hkeys
  have hafter := (pairwise_cons.mp hcons).1
  constructor
  · intro hx
    refine ⟨mem_middle.mpr (.inr hx), ?_⟩
    rcases mem_append.mp hx with hx | hx
    · exact hcross x hx a mem_cons_self
    · exact (hafter x hx).symm
  · rintro ⟨hx, hne⟩
    exact (mem_middle.mp hx).resolve_left fun heq => hne (congrArg f heq)

/-! ### Segments -/

lemma seg_append : Seg next head (l1 ++ l2) tail ↔ ∃ mid, Seg next head l1 mid ∧ Seg next mid l2 tail := by
  induction l1 generalizing head with
  | nil => exact ⟨fun h => ⟨head, rfl, h⟩, fun ⟨mid, hmid, h⟩ => hmid ▸ h⟩
  | cons a l ih =>
    constructor
    · rintro ⟨hhead, ha, hl⟩
      obtain ⟨mid, hmid, htail⟩ := ih.mp hl
      exact ⟨mid, ⟨hhead, ha, hmid⟩, htail⟩
    · rintro ⟨mid, ⟨hhead, ha, hmid⟩, htail⟩
      exact ⟨hhead, ha, ih.mpr ⟨mid, hmid, htail⟩⟩

lemma Seg.congr (h : Seg next head l tail) (hnext : ∀ a ∈ l, next' a = next a) : Seg next' head l tail := by
  induction l generalizing head with
  | nil => exact h
  | cons a l ih =>
    obtain ⟨hhead, ha, hl⟩ := h
    refine ⟨hhead, ha, ?_⟩
    rw [hnext a mem_cons_self]
    exact ih hl fun b hb => hnext b (mem_cons_of_mem _ hb)

lemma Seg.concat (h : Seg next head (l ++ [a]) tail) (hnodup : (l ++ [a]).Nodup)
    (hnext : ∀ b ∈ l ++ [a], b ≠ a → next' b = next b) : Seg next' head (l ++ [a]) (next' a) := by
  obtain ⟨mid, hl, hmid, ha, -⟩ := seg_append.mp h
  refine seg_append.mpr ⟨mid, hl.congr fun b hb => ?_, hmid, ha, rfl⟩
  have hne : b ≠ a := by
    rintro rfl
    exact (nodup_append.mp hnodup).2.2 b hb b (mem_singleton_self b) rfl
  exact hnext b (mem_append_left _ hb) hne

/-! ### Chains -/

lemma rep_nil : Rep next 0 [] := rfl

lemma Rep.ne_zero (h : Rep next head l) (ha : a ∈ l) : a ≠ 0 := by
  obtain ⟨l1, l2, rfl⟩ := append_of_mem ha
  obtain ⟨mid, -, -, hne, -⟩ := seg_append.mp h
  exact hne

lemma Rep.unique (h1 : Rep next head l1) (h2 : Rep next head l2) : l1 = l2 := by
  induction l1 generalizing head l2 with
  | nil =>
    cases l2 with
    | nil => rfl
    | cons b l2 => exact (h2.2.1 (h2.1.symm.trans h1)).elim
  | cons a l1 ih =>
    cases l2 with
    | nil => exact (h1.2.1 (h1.1.symm.trans h2)).elim
    | cons b l2 =>
      obtain ⟨rfl, -, ht1⟩ := h1
      obtain ⟨rfl, -, ht2⟩ := h2
      rw [ih ht1 ht2]

lemma Rep.nodup (h : Rep next head l) : l.Nodup := by
  induction l generalizing head with
  | nil => exact nodup_nil
  | cons a l ih =>
    refine nodup_cons.mpr ⟨fun hmem => ?_, ih h.2.2⟩
    -- the chain from the second occurrence on would be shorter than itself
    obtain ⟨l1, l2, rfl⟩ := append_of_mem hmem
    obtain ⟨mid, -, hmid⟩ := seg_append.mp h.2.2
    have hmida : mid = a := hmid.1
    have hshort : Rep next a (a :: l2) := hmida ▸ hmid
    have heq : a :: l2 = a :: (l1 ++ a :: l2) := hshort.unique (h.1 ▸ h)
    have hlen := congrArg length heq
    simp only [length_cons, length_append] at hlen
    omega

lemma Rep.congr (h : Rep next head l) (hnext : ∀ a ∈ l, next' a = next a) : Rep next' head l :=
  Seg.congr h hnext

lemma Rep.cons (h : Rep next head l) (ha : a ≠ 0) (hnext : next' a = head)
    (hkeep : ∀ b ∈ l, next' b = next b) : Rep next' a (a :: l) :=
  ⟨rfl, ha, hnext.symm ▸ h.congr hkeep⟩

lemma Rep.of_cons (h : Rep next head (a :: l)) : Rep next (next a) l := h.2.2

lemma Rep.unlink {p : ℕ} (h : Rep next head (l1 ++ p :: a :: l2)) (hp : next' p = next a)
    (hnext : ∀ b ∈ l1 ++ p :: a :: l2, b ≠ p → next' b = next b) :
    Rep next' head (l1 ++ p :: l2) := by
  have hnodup := h.nodup
  rw [← singleton_append, ← append_assoc] at h hnext hnodup
  obtain ⟨mid, hfront, -, -, hback⟩ := seg_append.mp h
  have hfront' := hfront.concat (nodup_append.mp hnodup).1 fun b hb hne =>
    hnext b (mem_append_left _ hb) hne
  have hback' : Seg next' (next a) l2 0 := by
    refine hback.congr fun b hb => hnext b ?_ ?_
    · exact mem_append_right _ (mem_cons_of_mem _ hb)
    · rintro rfl
      exact (nodup_append.mp hnodup).2.2 b (by simp) b (mem_cons_of_mem _ hb) rfl
  rw [← singleton_append, ← append_assoc]
  exact seg_append.mpr ⟨next' p, hfront', hp ▸ hback'⟩

lemma Rep.concat {b : ℕ} (h : Rep next head (l ++ [a])) (hb : b ≠ 0) (ha : next' a = b)
    (hend : next' b = 0) (hnext : ∀ x ∈ l, next' x = next x) : Rep next' head (l ++ [a] ++ [b]) := by
  have hfront : Seg next' head (l ++ [a]) (next' a) :=
    Seg.concat h h.nodup fun x hx hne => hnext x (by simpa [hne] using hx)
  exact seg_append.mpr ⟨b, ha ▸ hfront, rfl, hb, hend⟩

/-! ### The loops -/

lemma search_eq {test : ℕ → Option β} (h : Rep next head l)
    (hfuel : l.length < fuel) : search next test fuel head = some (l.findSome? test) := by
  induction fuel generalizing head l with
  | zero => exact (not_lt_zero _ hfuel).elim
  | succ fuel ih =>
    unfold search
    cases l with
    | nil => rw [if_pos (show head = 0 from h), findSome?_nil]
    | cons a l =>
      obtain ⟨rfl, hne, hl⟩ := h
      rw [if_neg hne, findSome?_cons]
      cases test head with
      | some b => rfl
      | none => exact ih hl (lt_of_succ_lt_succ hfuel)

lemma findPrev_eq (h : Rep next head (l1 ++ target :: l2)) (hfuel : l1.length < fuel) :
    findPrev next target fuel head prev = some (some (l1.getLastD prev)) := by
  induction fuel generalizing head l1 prev with
  | zero => exact (not_lt_zero _ hfuel).elim
  | succ fuel ih =>
    unfold findPrev
    cases l1 with
    | nil =>
      obtain ⟨rfl, hne, -⟩ := h
      rw [if_neg hne, if_pos rfl]
      rfl
    | cons a l1 =>
      have hne : a ≠ target := by
        rintro rfl
        have hnodup := h.nodup
        exact (nodup_cons.mp hnodup).1 (mem_append_right _ mem_cons_self)
      obtain ⟨rfl, hne0, hl⟩ := h
      rw [if_neg hne0, if_neg hne, ih hl (lt_of_succ_lt_succ hfuel), getLastD_cons]

lemma findPrev_eq_none (h : Rep next head l) (htarget : target ∉ l)
    (hfuel : l.length < fuel) : findPrev next target fuel head prev = some none := by
  induction fuel generalizing head l prev with
  | zero => exact (not_lt_zero _ hfuel).elim
  | succ fuel ih =>
    unfold findPrev
    cases l with
    | nil => rw [if_pos (show head = 0 from h)]
    | cons a l =>
      obtain ⟨rfl, hne0, hl⟩ := h
      rw [if_neg hne0, if_neg (ne_of_not_mem_cons htarget).symm]
      exact ih hl (not_mem_of_not_mem_cons htarget) (lt_of_succ_lt_succ hfuel)

/-! ### Doubly linked chains -/

/-- `y` follows `x`; 0 stands for both ends of a chain. -/
def Adj (next prev : ℕ → ℕ) (x y : ℕ) : Prop := (x ≠ 0 → next x = y) ∧ (y ≠ 0 → prev y = x)

/-- The nodes `l` are linked in both directions, with 0 at both ends. -/
def Linked (next prev : ℕ → ℕ) (l : List ℕ) : Prop := (0 :: (l ++ [0])).IsChain (Adj next prev)

variable {prev prev' : ℕ → ℕ} {a b : ℕ} {x : ℕ}

lemma linked_middle : Linked next prev (l1 ++ a :: l2) ↔
    ((0 :: l1) ++ [a]).IsChain (Adj next prev) ∧ Adj next prev a (l2.headD 0) ∧
      (l2 ++ [0]).IsChain (Adj next prev) := by
  have hlist : 0 :: (l1 ++ a :: l2 ++ [0]) = (0 :: l1) ++ a :: (l2 ++ [0]) := by simp
  unfold Linked
  rw [hlist]
  cases l2 with
  | nil => exact isChain_append_cons_cons
  | cons c l2 => exact isChain_append_cons_cons

lemma Linked.next_eq (h : Linked next prev (l1 ++ a :: l2)) (ha : a ≠ 0) : next a = l2.headD 0 :=
  (linked_middle.mp h).2.1.1 ha

lemma Linked.prev_eq (h : Linked next prev (l1 ++ a :: l2)) (ha : a ≠ 0) : prev a = l1.getLastD 0 := by
  have hfront := (linked_middle.mp h).1
  rcases eq_nil_or_concat l1 with rfl | ⟨l, b, rfl⟩
  · exact (isChain_pair.mp hfront).2 ha
  · have hlist : (0 :: l.concat b) ++ [a] = (0 :: l) ++ b :: a :: [] := by simp
    rw [hlist] at hfront
    have hadj := (isChain_append_cons_cons.mp hfront).2.1
    simpa using hadj.2 ha

lemma Linked.rep (h : Linked next prev l) (hne : ∀ x ∈ l, x ≠ 0) : Rep next (l.headD 0) l := by
  have hseg : ∀ l : List ℕ, (∀ x ∈ l, x ≠ 0) → (l ++ [0]).IsChain (Adj next prev) →
      Seg next (l.headD 0) l 0 := by
    intro l
    induction l with
    | nil => exact fun _ _ => rfl
    | cons c l ih =>
      intro hne hchain
      have hc := hne c mem_cons_self
      have hrest : (l ++ [0]).IsChain (Adj next prev) := List.IsChain.tail hchain
      have hadj : Adj next prev c (l.headD 0) := by
        cases l with
        | nil => exact (isChain_cons_cons.mp hchain).1
        | cons d l => exact (isChain_cons_cons.mp hchain).1
      refine ⟨rfl, hc, ?_⟩
      rw [hadj.1 hc]
      exact ih (fun x hx => hne x (mem_cons_of_mem _ hx)) hrest
  exact hseg l hne (List.IsChain.tail h)

private lemma isChain_front (h : ((0 :: l1) ++ [a]).IsChain (Adj next prev))
    (hnext : ∀ x ∈ l1, next' x = next x) (hprev : ∀ x ∈ l1 ++ [a], x ≠ 0 → prev' x = prev x) :
    ((0 :: l1) ++ [a]).IsChain (Adj next' prev') := by
  have hadj : ∀ x y, x ∈ 0 :: l1 → y ∈ l1 ++ [a] → Adj next prev x y → Adj next' prev' x y := by
    intro x y hx hy hxy
    refine ⟨fun hx0 => ?_, fun hy0 => (hprev y hy hy0).trans (hxy.2 hy0)⟩
    have hx' := (mem_cons.mp hx).resolve_left hx0
    exact (hnext x hx').trans (hxy.1 hx0)
  obtain ⟨hfront, hlast, hseam⟩ := isChain_append.mp h
  refine isChain_append.mpr ⟨hfront.imp_of_mem_tail_imp fun x y hx hy => ?_, ?_, ?_⟩
  · exact hadj x y hx (mem_append_left _ hy)
  · exact isChain_singleton a
  · intro x hx y hy
    obtain rfl : a = y := by simpa using hy
    exact hadj x a (mem_of_mem_getLast? hx) (by simp) (hseam x hx a hy)

private lemma isChain_back (h : (l2 ++ [0]).IsChain (Adj next prev))
    (hnext : ∀ x ∈ l2, next' x = next x) (hprev : ∀ x ∈ l2.tail, prev' x = prev x) :
    (l2 ++ [0]).IsChain (Adj next' prev') := by
  refine h.imp_of_mem_tail_imp fun x y hx hy hxy => ⟨fun hx0 => ?_, fun hy0 => ?_⟩
  · rcases mem_append.mp hx with hx | hx
    · exact (hnext x hx).trans (hxy.1 hx0)
    · exact (hx0 (mem_singleton.mp hx)).elim
  · cases l2 with
    | nil => exact (not_mem_nil hy).elim
    | cons q l2 =>
      rcases mem_append.mp hy with hy | hy
      · exact (hprev y hy).trans (hxy.2 hy0)
      · exact (hy0 (mem_singleton.mp hy)).elim

private lemma mem_of_mem_front (hx : x ∈ l1 ++ [a]) : x ∈ l1 ++ a :: l2 := by
  rw [← singleton_append, ← append_assoc]
  exact mem_append_left _ hx

private lemma ne_headD (hnodup : (l1 ++ a :: l2).Nodup) (hx : x ∈ l1 ++ [a])
    (hx0 : x ≠ 0) : x ≠ l2.headD 0 := by
  cases l2 with
  | nil => exact hx0
  | cons q l2 =>
    intro heq
    rw [← singleton_append, ← append_assoc] at hnodup
    exact (nodup_append.mp hnodup).2.2 x hx q mem_cons_self heq

private lemma ne_headD_of_mem_tail (hnodup : l2.Nodup) (hx : x ∈ l2.tail) : x ≠ l2.headD 0 := by
  cases l2 with
  | nil => exact (not_mem_nil hx).elim
  | cons q l2 =>
    rintro rfl
    exact (nodup_cons.mp hnodup).1 hx

lemma Linked.congr (h : Linked next prev l) (hnext : ∀ x ∈ l, next' x = next x)
    (hprev : ∀ x ∈ l, prev' x = prev x) : Linked next' prev' l := by
  refine h.imp_of_mem_tail_imp fun x y hx hy hxy => ⟨fun hx0 => ?_, fun hy0 => ?_⟩
  · rcases mem_append.mp ((mem_cons.mp hx).resolve_left hx0) with hx | hx
    · exact (hnext x hx).trans (hxy.1 hx0)
    · exact (hx0 (mem_singleton.mp hx)).elim
  · rcases mem_append.mp hy with hy | hy
    · exact (hprev y hy).trans (hxy.2 hy0)
    · exact (hy0 (mem_singleton.mp hy)).elim

lemma Linked.insert (h : Linked next prev (l1 ++ a :: l2)) (hnodup : (l1 ++ a :: l2).Nodup)
    (hnext : ∀ x ∈ l1 ++ l2, next' x = next x)
    (hprev : ∀ x ∈ l1 ++ a :: l2, x ≠ l2.headD 0 → prev' x = prev x)
    (ha : next' a = b) (hb : next' b = l2.headD 0) (hb' : prev' b = a)
    (hq : l2.headD 0 ≠ 0 → prev' (l2.headD 0) = b) : Linked next' prev' (l1 ++ a :: b :: l2) := by
  obtain ⟨hfront, -, hback⟩ := linked_middle.mp h
  have hfront' := isChain_front hfront (fun x hx => hnext x (mem_append_left _ hx))
    fun x hx hx0 => hprev x (mem_of_mem_front hx) (ne_headD hnodup hx hx0)
  have hnodup2 : l2.Nodup := (nodup_cons.mp (nodup_append.mp hnodup).2.1).2
  have hback' := isChain_back hback (fun x hx => hnext x (mem_append_right _ hx))
    fun x hx => hprev x
      (mem_append_right _ (mem_cons_of_mem _ (mem_of_mem_tail hx)))
      (ne_headD_of_mem_tail hnodup2 hx)
  refine linked_middle.mpr ⟨hfront', ⟨fun _ => ha, fun _ => hb'⟩, ?_⟩
  cases l2 with
  | nil => exact isChain_pair.mpr ⟨fun _ => hb, hq⟩
  | cons q l2 => exact isChain_cons_cons.mpr ⟨⟨fun _ => hb, hq⟩, hback'⟩

lemma Linked.remove (h : Linked next prev (l1 ++ a :: b :: l2))
    (hnodup : (l1 ++ a :: b :: l2).Nodup) (hnext : ∀ x ∈ l1 ++ l2, next' x = next x)
    (hprev : ∀ x ∈ l1 ++ a :: l2, x ≠ l2.headD 0 → prev' x = prev x)
    (ha : next' a = l2.headD 0) (hq : l2.headD 0 ≠ 0 → prev' (l2.headD 0) = a) :
    Linked next' prev' (l1 ++ a :: l2) := by
  have hsub : (l1 ++ a :: l2).Nodup := by
    refine hnodup.sublist ((List.Sublist.refl l1).append ?_)
    exact (sublist_cons_self b l2).cons_cons a
  obtain ⟨hfront, -, hback⟩ := linked_middle.mp h
  have hfront' := isChain_front hfront (fun x hx => hnext x (mem_append_left _ hx))
    fun x hx hx0 => hprev x (mem_of_mem_front hx) (ne_headD hsub hx hx0)
  have hnodup2 : l2.Nodup := (nodup_cons.mp (nodup_append.mp hsub).2.1).2
  have hback' := isChain_back (List.IsChain.tail hback)
    (fun x hx => hnext x (mem_append_right _ hx))
    fun x hx => hprev x
      (mem_append_right _ (mem_cons_of_mem _ (mem_of_mem_tail hx)))
      (ne_headD_of_mem_tail hnodup2 hx)
  exact linked_middle.mpr ⟨hfront', ⟨fun _ => ha, hq⟩, hback'⟩

end Chain
