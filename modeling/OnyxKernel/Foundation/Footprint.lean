import OnyxKernel.Foundation.ByteMemory

/-!
# Footprints

A program that writes a memory piece by piece is described by a list of jobs.  A job has a region and says
what the memory is like after it; what it says depends on the bytes of its region only.  If the regions
are disjoint, every job's post-condition holds after all of them.
-/

namespace ByteMemory

open Set
open List hiding Disjoint

lemma Memory.Holds.congr {m m' : Memory} {a : ℕ} {bytes : List UInt8} {r : Set ℕ} (h : m.Holds a bytes)
    (heq : EqOn m' m r) (hsub : Set.Ico a (a + bytes.length) ⊆ r) : m'.Holds a bytes := fun i hi => by
  rw [heq (hsub ⟨Nat.le_add_right a i, Nat.add_lt_add_left hi a⟩), h i hi]

lemma Memory.Holds.append {m : Memory} {a : ℕ} {bytes bytes' : List UInt8} (h : m.Holds a bytes)
    (h' : m.Holds (a + bytes.length) bytes') : m.Holds a (bytes ++ bytes') := by
  intro i hi
  rcases Nat.lt_or_ge i bytes.length with hlt | hge
  · rw [getElem_append_left hlt, h i hlt]
  · have hlen : i - bytes.length < bytes'.length := by
      rw [length_append] at hi
      omega
    rw [getElem_append_right hge, ← h' _ hlen]
    congr 1
    omega

/-- A region of the memory, and what is written there. -/
structure Job where
  region : Set ℕ
  post : Memory → Prop
  post_congr : ∀ m m', EqOn m' m region → post m → post m'

/-- The memory changes from the first to the second by the jobs of the list, one after the other. -/
inductive Job.Run : List Job → Memory → Memory → Prop
  | nil (m : Memory) : Job.Run [] m m
  | cons {j : Job} {js : List Job} {m m' m'' : Memory} :
      EqOn m' m j.regionᶜ → j.post m' → Job.Run js m' m'' → Job.Run (j :: js) m m''

namespace Job

variable {j : Job} {js ks : List Job} {m m' m'' : Memory}

/-- Two jobs write different bytes. -/
def Apart (j k : Job) : Prop := Disjoint j.region k.region

lemma Run.single (hframe : EqOn m' m j.regionᶜ) (hpost : j.post m') : Run [j] m m' :=
  .cons hframe hpost (.nil m')

lemma Run.append (h : Run js m m') (h' : Run ks m' m'') : Run (js ++ ks) m m'' := by
  induction h with
  | nil m => exact h'
  | cons hframe hpost _ ih => exact .cons hframe hpost (ih h')

lemma Run.eq_of_notMem (h : Run js m m') {x : ℕ} (hx : ∀ j ∈ js, x ∉ j.region) : m' x = m x := by
  induction h with
  | nil m => rfl
  | cons hframe _ _ ih =>
    rw [ih fun k hk => hx k (mem_cons_of_mem _ hk)]
    exact hframe (hx _ mem_cons_self)

lemma Run.keeps (h : Run js m m') (hapart : ∀ k ∈ js, j.Apart k) (hpost : j.post m) : j.post m' :=
  j.post_congr m m' (fun _ hx => h.eq_of_notMem fun k hk hmem => disjoint_left.mp (hapart k hk) hx hmem) hpost

lemma Run.post (h : Run js m m') (hapart : js.Pairwise Apart) : ∀ j ∈ js, j.post m' := by
  induction h with
  | nil m => simp
  | cons _ hpost hrest ih =>
    rw [pairwise_cons] at hapart
    intro k hk
    rcases mem_cons.mp hk with rfl | hk
    · exact hrest.keeps hapart.1 hpost
    · exact ih hapart.2 k hk

lemma Run.merge (h : Run js m m') (hapart : js.Pairwise Apart) (hsub : ∀ k ∈ js, k.region ⊆ j.region)
    (hpost : (∀ k ∈ js, k.post m') → j.post m') : Run [j] m m' :=
  .single (fun _ hx => h.eq_of_notMem fun k hk hmem => hx (hsub k hk hmem)) (hpost (h.post hapart))

/-- Copy bytes to an address. -/
def copy (a : ℕ) (bytes : List UInt8) : Job where
  region := Set.Ico a (a + bytes.length)
  post m := m.Holds a bytes
  post_congr _ _ heq hm := hm.congr heq subset_rfl

lemma run_copy (m : Memory) (a : ℕ) (bytes : List UInt8) : Run [copy a bytes] m (m.write a bytes) :=
  .single (fun _ hx => Memory.write_apply_of_notMem hx) fun _ hi => Memory.write_apply_add hi

/-- The jobs write inside `[lo, hi)`, each one behind the one before. -/
inductive Ordered : List Job → ℕ → ℕ → Prop
  | nil {lo hi : ℕ} : lo ≤ hi → Ordered [] lo hi
  | cons {j : Job} {js : List Job} {lo mid hi : ℕ} :
      lo ≤ mid → j.region ⊆ Set.Ico lo mid → Ordered js mid hi → Ordered (j :: js) lo hi

namespace Ordered

variable {lo mid hi : ℕ}

lemma le (h : Ordered js lo hi) : lo ≤ hi := by
  induction h with
  | nil hle => exact hle
  | cons hle _ _ ih => exact hle.trans ih

lemma region_subset (h : Ordered js lo hi) : ∀ j ∈ js, j.region ⊆ Set.Ico lo hi := by
  induction h with
  | nil => simp
  | cons hle hsub hrest ih =>
    intro k hk
    rcases mem_cons.mp hk with rfl | hk
    · exact hsub.trans (Ico_subset_Ico le_rfl hrest.le)
    · exact (ih k hk).trans (Ico_subset_Ico hle le_rfl)

lemma pairwise (h : Ordered js lo hi) : js.Pairwise Apart := by
  induction h with
  | nil => exact .nil
  | cons _ hsub hrest ih =>
    refine .cons (fun k hk => disjoint_left.mpr fun x hx hx' => ?_) ih
    exact absurd (hrest.region_subset k hk hx').1 (Nat.not_le.mpr (hsub hx).2)

lemma single (hle : lo ≤ hi) (hsub : j.region ⊆ Set.Ico lo hi) : Ordered [j] lo hi := .cons hle hsub (.nil le_rfl)

lemma append (h : Ordered js lo mid) (h' : Ordered ks mid hi) : Ordered (js ++ ks) lo hi := by
  induction h with
  | nil hle =>
    cases h' with
    | nil hle' => exact .nil (hle.trans hle')
    | cons hle' hsub hrest => exact .cons (hle.trans hle') (hsub.trans (Ico_subset_Ico hle le_rfl)) hrest
  | cons hle hsub _ ih => exact .cons hle hsub (ih h')

end Ordered

lemma Run.merge_ordered {lo hi : ℕ} (h : Run js m m') (ho : Ordered js lo hi) (hsub : Set.Ico lo hi ⊆ j.region)
    (hpost : (∀ k ∈ js, k.post m') → j.post m') : Run [j] m m' :=
  h.merge ho.pairwise (fun k hk => (ho.region_subset k hk).trans hsub) hpost

end Job

end ByteMemory
