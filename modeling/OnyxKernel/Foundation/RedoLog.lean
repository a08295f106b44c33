import Mathlib

/-!
# Redo logs

A store maps keys to values and a log is a list of pairs of a key and a record.  Replaying a log
merges each record into the value under its key, in order.  Plain writes are the case in which the
record replaces the value.

When a record overrides what earlier records of the same key did, only the last record of a key
matters (`replay_apply`).  So a log whose last records are already in the store can be replayed
without effect (`replay_of_absorbed`).
-/

namespace RedoLog

open Function List Option

variable {ι β γ : Type*} [DecidableEq ι]

/-- Merge the records of a log into a store, in order. -/
def replay (merge : β → γ → β) (d : ι → β) (log : List (ι × γ)) : ι → β :=
  log.foldl (fun d w => update d w.1 (merge (d w.1) w.2)) d

/-- The last record of a log under the key `x`. -/
def last (x : ι) : List (ι × γ) → Option γ
  | [] => none
  | w :: log => (last x log).or (if w.1 = x then some w.2 else none)

/-- Write the values of a list to a store, in order. -/
def writeAll (d : ι → β) (ws : List (ι × β)) : ι → β := replay (fun _ b => b) d ws

variable {merge : β → γ → β} {d : ι → β} {log log' : List (ι × γ)} {x : ι}

@[simp] lemma replay_nil : replay merge d [] = d := rfl

@[simp] lemma replay_cons (w : ι × γ) :
    replay merge d (w :: log) = replay merge (update d w.1 (merge (d w.1) w.2)) log := rfl

lemma replay_append : replay merge d (log ++ log') = replay merge (replay merge d log) log' :=
  foldl_append ..

lemma last_eq_none_iff : last x log = none ↔ ∀ w ∈ log, w.1 ≠ x := by
  induction log with
  | nil => simp [last]
  | cons w log ih => simp [last, ih, and_comm]

lemma mem_of_last_eq_some {v : γ} (h : last x log = some v) : (x, v) ∈ log := by
  induction log with
  | nil => cases h
  | cons w log ih =>
    rw [last, or_eq_some_iff] at h
    rcases h with h | ⟨-, h⟩
    · exact mem_cons_of_mem w (ih h)
    · split at h
      · rename_i hw
        rw [← hw, ← some.inj h]
        exact mem_cons_self
      · cases h

lemma replay_apply (hm : ∀ a b c, merge (merge a b) c = merge a c) (d : ι → β) (log : List (ι × γ)) (x : ι) :
    replay merge d log x = (last x log).elim (d x) (merge (d x)) := by
  induction log generalizing d with
  | nil => rfl
  | cons w log ih =>
    rw [replay_cons, ih, last]
    by_cases hw : w.1 = x
    · subst hw
      cases last w.1 log with
      | none => simp
      | some v => simp [hm]
    · cases last x log with
      | none => simp [hw, update_of_ne (Ne.symm hw)]
      | some v => simp [update_of_ne (Ne.symm hw)]

lemma writeAll_apply (d : ι → β) (ws : List (ι × β)) (x : ι) : writeAll d ws x = (last x ws).getD (d x) := by
  have h : writeAll d ws x = (last x ws).elim (d x) (fun b => b) :=
    @replay_apply ι β β _ (fun _ b => b) (fun _ _ _ => rfl) d ws x
  rw [h]
  cases last x ws <;> rfl

lemma replay_of_absorbed (hm : ∀ a b c, merge (merge a b) c = merge a c)
    (h : ∀ v, last x log = some v → merge (d x) v = d x) : replay merge d log x = d x := by
  rw [replay_apply hm]
  cases hl : last x log with
  | none => rfl
  | some v => exact h v hl

end RedoLog
