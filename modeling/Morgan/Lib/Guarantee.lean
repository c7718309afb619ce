import Mathlib

/-!
# Guarantees of programs over a state that may fail or panic

A program of `ExceptT ε (StateT σ Option)` guarantees a relation `R` between states when every run
of it that does not panic, whether it returns or fails, relates the state it starts in to the state
it ends in.  For a reflexive and transitive `R` the guarantee goes through `bind`, so a guarantee of
a long program follows from one for each step; the frame facts of a program ("this part of the
state is not touched") are guarantees of the relation that compares that part.
-/

namespace ExceptState

/-- Programs over a state `σ` that fail with an `ε` keeping the state, or panic. -/
abbrev M (ε σ α : Type) := ExceptT ε (StateT σ Option) α

variable {ε σ α β : Type} {R : σ → σ → Prop}

/-- Every run of `prog` that does not panic relates its start and end states by `R`. -/
def Guarantees (R : σ → σ → Prop) (prog : M ε σ α) : Prop :=
  ∀ s r s', prog.run.run s = some (r, s') → R s s'

@[simp] theorem run_bind (x : M ε σ α) (k : α → M ε σ β) (s : σ) :
    (x >>= k).run.run s = (x.run.run s).bind fun p =>
      match p.1 with
      | .ok a => (k a).run.run p.2
      | .error e => some (.error e, p.2) := by
  simp only [ExceptT.run_bind, StateT.run_bind]
  show (x.run.run s >>= _) = _
  congr 1
  funext p
  obtain ⟨r, s'⟩ := p
  cases r <;> rfl

@[simp] theorem run_tryCatch (x : M ε σ α) (handle : ε → M ε σ α) (s : σ) :
    (tryCatch x handle).run.run s = (x.run.run s).bind fun p =>
      match p.1 with
      | .ok a => some (.ok a, p.2)
      | .error e => (handle e).run.run p.2 := by
  show (x.run.run s >>= _) = _
  congr 1
  funext p
  obtain ⟨r, s'⟩ := p
  cases r <;> rfl

@[simp] theorem run_getThe_bind (k : σ → M ε σ β) (s : σ) :
    (getThe σ >>= k).run.run s = (k s).run.run s := rfl

@[simp] theorem run_set_bind (t : σ) (k : PUnit → M ε σ β) (s : σ) :
    (set t >>= k).run.run s = (k ⟨⟩).run.run t := rfl

theorem Guarantees.mono {R' : σ → σ → Prop} {prog : M ε σ α} (h : Guarantees R prog)
    (hR : ∀ s s', R s s' → R' s s') : Guarantees R' prog :=
  fun s r s' hrun => hR s s' (h s r s' hrun)

theorem Guarantees.abort : Guarantees R (ExceptT.lift (StateT.lift none) : M ε σ α) := by
  intro s r s' h
  cases h

/-- A program that reads the state and goes on from it: its guarantee may use what it read. -/
theorem Guarantees.get_bind {k : σ → M ε σ β}
    (hk : ∀ s r s', (k s).run.run s = some (r, s') → R s s') :
    Guarantees R (getThe σ >>= k) := by
  intro s r s' h
  exact hk s r s' h

theorem Guarantees.of_set {s t s' : σ} {r : Except ε PUnit}
    (h : (set t : M ε σ PUnit).run.run s = some (r, s')) (ht : R s t) : R s s' := by
  cases h
  exact ht

theorem Guarantees.modify {f : σ → σ} (hf : ∀ s, R s (f s)) :
    Guarantees R (modifyThe σ f : M ε σ PUnit) := by
  intro s r s' h
  cases h
  exact hf s

theorem Guarantees.pure [Std.Refl R] (a : α) : Guarantees R (Pure.pure a : M ε σ α) := by
  intro s r s' h
  cases h
  exact Std.Refl.refl s

theorem Guarantees.throw [Std.Refl R] (e : ε) : Guarantees R (MonadExceptOf.throw e : M ε σ α) := by
  intro s r s' h
  cases h
  exact Std.Refl.refl s

theorem Guarantees.bind [IsTrans σ R] {x : M ε σ α} {k : α → M ε σ β} (hx : Guarantees R x)
    (hk : ∀ a, Guarantees R (k a)) : Guarantees R (x >>= k) := by
  intro s r s' h
  rw [run_bind, Option.bind_eq_some_iff] at h
  obtain ⟨⟨r₁, s₁⟩, h₁, h⟩ := h
  cases r₁ with
  | ok a => exact IsTrans.trans _ _ _ (hx s _ s₁ h₁) (hk a s₁ r s' h)
  | error e =>
    cases h
    exact hx s _ s₁ h₁

/-- After reading the state `s`, a program that sets it to `t` and goes on: `R s t` and a guarantee
of the rest give the run's. -/
theorem Guarantees.of_set_bind [IsTrans σ R] {s t s' : σ} {k : PUnit → M ε σ β}
    {r : Except ε β} (h : (set t >>= k).run.run s = some (r, s')) (hk : Guarantees R (k ⟨⟩))
    (ht : R s t) : R s s' :=
  IsTrans.trans _ _ _ ht (hk t r s' h)

theorem Guarantees.tryCatch [IsTrans σ R] {x : M ε σ α} {handle : ε → M ε σ α} (hx : Guarantees R x)
    (hh : ∀ e, Guarantees R (handle e)) : Guarantees R (tryCatch x handle) := by
  intro s r s' h
  rw [run_tryCatch, Option.bind_eq_some_iff] at h
  obtain ⟨⟨r₁, s₁⟩, h₁, h⟩ := h
  cases r₁ with
  | ok a =>
    cases h
    exact hx s _ s₁ h₁
  | error e => exact IsTrans.trans _ _ _ (hx s _ s₁ h₁) (hh e s₁ r s' h)

theorem Guarantees.forM [Std.Refl R] [IsTrans σ R] {f : α → M ε σ PUnit} :
    ∀ l : List α, (∀ a ∈ l, Guarantees R (f a)) → Guarantees R (l.forM f)
  | [], _ => Guarantees.pure _
  | a :: l, h => by
    show Guarantees R (f a >>= fun _ => l.forM f)
    exact Guarantees.bind (h a List.mem_cons_self) fun _ =>
      Guarantees.forM l fun b hb => h b (List.mem_cons_of_mem _ hb)

/-! ## Frames -/

/-- The relation of states that agree on `f`: its guarantees are frame facts. -/
def Same (f : σ → β) (s s' : σ) : Prop := f s' = f s

instance (f : σ → β) : Std.Refl (Same f) := ⟨fun _ => rfl⟩

instance (f : σ → β) : IsTrans σ (Same f) := ⟨fun _ _ _ h₁ h₂ => h₂.trans h₁⟩

end ExceptState
