import Mathlib

/-!
# Error numbers and machine words

The error numbers of `core/src/errno.rs`, the result monad of the fallible kernel functions, and the
64-bit arithmetic of a release build, where `+` and `-` wrap.
-/

namespace OnyxKernel

/-- The error numbers of the kernel, in the order of `core/src/errno.rs`. -/
inductive Errno where
  | ok | noMem | inval | noEnt | io | perm | range | noSys | busy | noSpace | notDir | isDir
  | badFd | exist | pipe | overflow
  deriving DecidableEq, Repr

/-- The number a system call returns for an error. -/
def Errno.asI64 : Errno → ℤ
  | .ok => 0 | .noMem => -1 | .inval => -2 | .noEnt => -3 | .io => -4 | .perm => -5 | .range => -6
  | .noSys => -7 | .busy => -8 | .noSpace => -9 | .notDir => -10 | .isDir => -11 | .badFd => -12
  | .exist => -13 | .pipe => -14 | .overflow => -15

/-- A fallible kernel function over the state `σ`.  An early return with an error keeps the state
changes made so far. -/
abbrev KResult (σ α : Type) := EStateM Errno σ α

namespace KResult

-- stated for every type of errors: the loader has one more way to stop
variable {ε σ α β : Type} {x : EStateM ε σ α} {f : α → EStateM ε σ β} {s t : σ} {a : α} {b : β}
  {e : ε}

@[simp] lemma pure_apply (a : α) (s : σ) : (pure a : EStateM ε σ α) s = .ok a s := rfl

@[simp] lemma throw_apply (e : ε) (s : σ) : (throw e : EStateM ε σ α) s = .error e s := rfl

@[simp] lemma modify_apply (g : σ → σ) (s : σ) : (modify g : EStateM ε σ Unit) s = .ok () (g s) := rfl

@[simp] lemma get_bind (g : σ → EStateM ε σ β) (s : σ) : (get >>= g) s = g s s := rfl

@[simp] lemma modify_bind (g : σ → σ) (k : Unit → EStateM ε σ β) (s : σ) :
    ((modify g : EStateM ε σ Unit) >>= k) s = k () (g s) := rfl

lemma bind_of_ok (h : x s = .ok a t) : (x >>= f) s = f a t := by
  simp only [bind, EStateM.bind, h]

lemma bind_of_error (h : x s = .error e t) : (x >>= f) s = .error e t := by
  simp only [bind, EStateM.bind, h]

lemma bind_eq_ok_iff {u : σ} : (x >>= f) s = .ok b u ↔ ∃ a t, x s = .ok a t ∧ f a t = .ok b u := by
  cases h : x s with
  | ok a t => simp [bind_of_ok h, and_assoc]
  | error e t => simp [bind_of_error h]

end KResult

/-- The number of values of a 64-bit word. -/
def wordSize : ℕ := 2 ^ 64

/-- Addition of 64-bit words; it wraps. -/
def wadd (a b : ℕ) : ℕ := (a + b) % wordSize

/-- Subtraction of 64-bit words; it wraps. -/
def wsub (a b : ℕ) : ℕ := if b ≤ a then a - b else a + wordSize - b

lemma wadd_of_lt {a b : ℕ} (h : a + b < wordSize) : wadd a b = a + b := Nat.mod_eq_of_lt h

lemma wsub_of_le {a b : ℕ} (h : b ≤ a) : wsub a b = a - b := if_pos h

lemma wadd_lt (a b : ℕ) : wadd a b < wordSize := Nat.mod_lt _ (by decide)

end OnyxKernel
