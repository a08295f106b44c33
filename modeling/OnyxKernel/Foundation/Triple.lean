import Mathlib

/-!
# Pre- and postconditions

Functions with a state and errors, `EStateM ε σ α`, are described by triples: from a state with the
precondition, a value is returned with the postcondition, and an error is raised with a condition of its
own.  There is a rule for every way in which functions are built.  A function preserves a predicate if
every run that starts in it ends in it, whether a value is returned or an error is raised.
-/

namespace Triple

variable {ε σ α β : Type}

/-- The state in which a run ends. -/
def final : EStateM.Result ε σ α → σ
  | .ok _ s | .error _ s => s

/-- Runs of `f` from states in `P` return with `Q` and fail with `E`. -/
def Holds (P : σ → Prop) (f : EStateM ε σ α) (Q : α → σ → Prop) (E : ε → σ → Prop) : Prop :=
  ∀ s, P s → match f s with
    | .ok a t => Q a t
    | .error e t => E e t

variable {P P' : σ → Prop} {f : EStateM ε σ α} {g : α → EStateM ε σ β} {Q Q' : α → σ → Prop}
  {R : β → σ → Prop} {E E' : ε → σ → Prop} {s t : σ} {a : α} {e : ε}

lemma Holds.ok (h : Holds P f Q E) (hs : P s) (hf : f s = .ok a t) : Q a t := by
  have := h s hs
  rwa [hf] at this

lemma Holds.error (h : Holds P f Q E) (hs : P s) (hf : f s = .error e t) : E e t := by
  have := h s hs
  rwa [hf] at this

lemma Holds.of_run (hok : ∀ s a t, P s → f s = .ok a t → Q a t)
    (herr : ∀ s e t, P s → f s = .error e t → E e t) : Holds P f Q E := by
  intro s hs
  cases hf : f s with
  | ok a t => exact hok s a t hs hf
  | error e t => exact herr s e t hs hf

lemma Holds.mono (h : Holds P f Q E) (hP : ∀ s, P' s → P s) (hQ : ∀ a s, Q a s → Q' a s)
    (hE : ∀ e s, E e s → E' e s) : Holds P' f Q' E' :=
  .of_run (fun s a t hs hf => hQ a t (h.ok (hP s hs) hf)) fun s e t hs hf => hE e t (h.error (hP s hs) hf)

lemma Holds.pre (h : Holds P f Q E) (hP : ∀ s, P' s → P s) : Holds P' f Q E := fun s hs => h s (hP s hs)

lemma Holds.pure (h : ∀ s, P s → Q a s) : Holds P (Pure.pure a : EStateM ε σ α) Q E := h

lemma Holds.throw (h : ∀ s, P s → E e s) : Holds P (MonadExcept.throw e : EStateM ε σ α) Q E := h

lemma Holds.bind (hf : Holds P f Q E) (hg : ∀ a, Holds (Q a) (g a) R E) : Holds P (f >>= g) R E := by
  intro s hs
  show match EStateM.bind f g s with
    | .ok a t => R a t
    | .error e t => E e t
  unfold EStateM.bind
  cases hfs : f s with
  | ok a t => exact hg a t (hf.ok hs hfs)
  | error e t => exact hf.error hs hfs

lemma Holds.read {g : σ → EStateM ε σ β} (hg : ∀ s, Holds P (g s) R E) : Holds P (get >>= g) R E :=
  fun s hs => hg s s hs

lemma Holds.ite {c : Prop} [Decidable c] {f' : EStateM ε σ α} (hf : c → Holds P f Q E)
    (hf' : ¬c → Holds P f' Q E) : Holds P (if c then f else f') Q E := by
  by_cases hc : c
  · rw [if_pos hc]
    exact hf hc
  · rw [if_neg hc]
    exact hf' hc

/-! ### Predicates that are preserved -/

/-- Every run of `f` that starts in `P` ends in `P`. -/
def Preserves (P : σ → Prop) (f : EStateM ε σ α) : Prop := ∀ s, P s → P (final (f s))

lemma preserves_iff : Preserves P f ↔ Holds P f (fun _ => P) fun _ => P := by
  refine forall_congr' fun s => imp_congr_right fun _ => ?_
  cases f s <;> rfl

namespace Preserves

lemma pure (a : α) : Preserves P (Pure.pure a : EStateM ε σ α) := fun _ => id

lemma throw (e : ε) : Preserves P (MonadExcept.throw e : EStateM ε σ α) := fun _ => id

lemma bind (hf : Preserves P f) (hg : ∀ a, Preserves P (g a)) : Preserves P (f >>= g) := by
  rw [preserves_iff] at hf ⊢
  exact hf.bind fun a => preserves_iff.mp (hg a)

lemma get_bind {g : σ → EStateM ε σ β} (hg : ∀ s, P s → Preserves P (g s)) : Preserves P (get >>= g) :=
  fun s hs => hg s hs s hs

lemma modify {u : σ → σ} (h : ∀ s, P s → P (u s)) : Preserves P (modify u : EStateM ε σ Unit) := h

lemma ite {c : Prop} [Decidable c] {f' : EStateM ε σ α} (hf : Preserves P f) (hf' : Preserves P f') :
    Preserves P (if c then f else f') := by
  split
  · exact hf
  · exact hf'

end Preserves

lemma Holds.final (h : Holds P f (fun _ => P') fun _ => P') (hs : P s) : P' (Triple.final (f s)) := by
  have := h s hs
  cases hf : f s with
  | ok a t => rwa [hf] at this
  | error e t => rwa [hf] at this

/-! ### Changes of the state that a function does not notice -/

/-- The result with a change of the state. -/
def mapState (φ : σ → σ) : EStateM.Result ε σ α → EStateM.Result ε σ α
  | .ok a s => .ok a (φ s)
  | .error e s => .error e (φ s)

/-- The function does the same after the change `φ` of the state, which it leaves in place. -/
def Commutes (φ : σ → σ) (f : EStateM ε σ α) : Prop := ∀ s, f (φ s) = mapState φ (f s)

namespace Commutes

variable {φ : σ → σ}

lemma pure (a : α) : Commutes φ (Pure.pure a : EStateM ε σ α) := fun _ => rfl

lemma throw (e : ε) : Commutes φ (MonadExcept.throw e : EStateM ε σ α) := fun _ => rfl

lemma bind (hf : Commutes φ f) (hg : ∀ a, Commutes φ (g a)) : Commutes φ (f >>= g) := by
  intro s
  show EStateM.bind f g (φ s) = mapState φ (EStateM.bind f g s)
  unfold EStateM.bind
  rw [hf s]
  cases f s with
  | ok a t => exact hg a t
  | error e t => rfl

lemma get_bind {g : σ → EStateM ε σ β} (hφ : ∀ s, g (φ s) = g s) (hg : ∀ s, Commutes φ (g s)) :
    Commutes φ (get >>= g) := by
  intro s
  show g (φ s) (φ s) = mapState φ (g s s)
  rw [hφ]
  exact hg s s

lemma modify {u : σ → σ} (hu : ∀ s, u (φ s) = φ (u s)) : Commutes φ (modify u : EStateM ε σ Unit) := by
  intro s
  show EStateM.Result.ok () (u (φ s)) = .ok () (φ (u s))
  rw [hu]

lemma ite {c : Prop} [Decidable c] {f' : EStateM ε σ α} (hf : Commutes φ f) (hf' : Commutes φ f') :
    Commutes φ (if c then f else f') := by
  split
  · exact hf
  · exact hf'

end Commutes

end Triple
