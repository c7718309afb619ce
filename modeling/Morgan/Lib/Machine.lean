import Mathlib.Tactic.Basic

/-!
# Runs of a machine whose steps may fail

A step takes a state and an operation to the next state and an output, or fails.  A run applies
the operations in order and collects the outputs; it fails at the first step that does.  A run
splits at any point of its operations (`run_append`), and a property that every step keeps holds
after every run (`run_invariant`), also when it speaks of the outputs so far
(`run_invariant_trace`).  A property of the state and the outputs so far, under which
no step fails and which every step keeps, makes every run succeed and holds after it
(`run_of_invariant`, and `run_of_invariant_allowed` for runs of some operations only).  A fold
whose steps may fail is a run without outputs, and keeps what its steps keep
(`foldlM_invariant`); a filter whose steps may fail keeps what its steps keep
(`mem_of_filterMapM`).
-/

namespace Machine

variable {σ α β : Type} (step : σ → α → Option (σ × List β))

/-- Apply the operations in order; the outputs of the steps, concatenated. -/
def run : σ → List α → Option (σ × List β)
  | s, [] => some (s, [])
  | s, a :: as => do
    let (s, out) ← step s a
    let (s, outs) ← run s as
    pure (s, out ++ outs)

@[simp] theorem run_nil (s : σ) : run step s [] = some (s, []) := rfl

theorem run_cons (s : σ) (a : α) (as : List α) :
    run step s (a :: as) = (step s a).bind fun r =>
      (run step r.1 as).map fun r' => (r'.1, r.2 ++ r'.2) := by
  simp only [run, Option.bind_eq_bind]
  rcases step s a with _ | ⟨s₁, out⟩
  · rfl
  · simp only [Option.bind_some]
    rcases run step s₁ as with _ | ⟨s₂, outs⟩ <;> rfl

theorem run_append (s : σ) (as bs : List α) :
    run step s (as ++ bs) = (run step s as).bind fun r =>
      (run step r.1 bs).map fun r' => (r'.1, r.2 ++ r'.2) := by
  induction as generalizing s with
  | nil => simp [Option.map_id']
  | cons a as ih =>
    rw [List.cons_append, run_cons, run_cons]
    rcases step s a with _ | ⟨s₁, out⟩
    · rfl
    · simp only [Option.bind_some]
      rw [ih]
      rcases run step s₁ as with _ | ⟨s₂, outs⟩
      · rfl
      · simp only [Option.bind_some, Option.map_map]
        rcases hbs : run step s₂ bs with _ | ⟨s₃, outs'⟩ <;> simp [hbs]

/-- A property of states that every step keeps holds after every run. -/
theorem run_invariant (inv : σ → Prop)
    (hstep : ∀ s a s' out, inv s → step s a = some (s', out) → inv s') :
    ∀ {s s' : σ} {as : List α} {outs : List β}, inv s → run step s as = some (s', outs) → inv s'
  | _, _, [], _, hs, h => by
    simp only [run_nil, Option.some.injEq, Prod.mk.injEq] at h
    exact h.1 ▸ hs
  | s, s', a :: as, outs, hs, h => by
    rw [run_cons, Option.bind_eq_some_iff] at h
    obtain ⟨⟨s₁, out⟩, h₁, h⟩ := h
    obtain ⟨⟨s₂, outs'⟩, h₂, h⟩ := Option.map_eq_some_iff.1 h
    simp only [Prod.mk.injEq] at h
    exact h.1 ▸ run_invariant inv hstep (hstep s a s₁ out hs h₁) h₂

/-- A property of the state and the outputs so far that every allowed step keeps holds after
every run of allowed operations. -/
theorem run_invariant_trace (allowed : α → Prop) (inv : σ → List β → Prop)
    (hstep : ∀ s outs a s' out, allowed a → inv s outs → step s a = some (s', out) →
      inv s' (outs ++ out)) :
    ∀ {s s' : σ} {outs outs' : List β} {as : List α}, (∀ a ∈ as, allowed a) → inv s outs →
      run step s as = some (s', outs') → inv s' (outs ++ outs')
  | _, _, _, _, [], _, hs, h => by
    simp only [run_nil, Option.some.injEq, Prod.mk.injEq] at h
    obtain ⟨rfl, rfl⟩ := h
    simpa using hs
  | s, _, outs, _, a :: as, hall, hs, h => by
    rw [run_cons, Option.bind_eq_some_iff] at h
    obtain ⟨⟨s₁, out⟩, h₁, h⟩ := h
    obtain ⟨⟨s₂, outs₂⟩, h₂, h⟩ := Option.map_eq_some_iff.1 h
    simp only [Prod.mk.injEq] at h
    obtain ⟨rfl, rfl⟩ := h
    have hs₁ := hstep s outs a s₁ out (hall a List.mem_cons_self) hs h₁
    have hrest := run_invariant_trace allowed inv hstep
      (fun b hb => hall b (List.mem_cons_of_mem a hb)) hs₁ h₂
    rwa [List.append_assoc] at hrest

/-- A property of the state and the outputs so far, under which every allowed step succeeds and
which it keeps: every run of allowed operations succeeds, and the property holds after it. -/
theorem run_of_invariant_allowed (allowed : α → Prop) (inv : σ → List β → Prop)
    (hstep : ∀ s outs a, allowed a → inv s outs →
      ∃ s' out, step s a = some (s', out) ∧ inv s' (outs ++ out)) :
    ∀ {s : σ} {outs : List β} (as : List α), (∀ a ∈ as, allowed a) → inv s outs →
      ∃ s' outs', run step s as = some (s', outs') ∧ inv s' (outs ++ outs')
  | s, outs, [], _, hs => ⟨s, [], rfl, by simpa using hs⟩
  | s, outs, a :: as, hall, hs => by
    obtain ⟨s₁, out, h₁, hs₁⟩ := hstep s outs a (hall a List.mem_cons_self) hs
    obtain ⟨s₂, outs₂, h₂, hs₂⟩ := run_of_invariant_allowed allowed inv hstep as
      (fun b hb => hall b (List.mem_cons_of_mem a hb)) hs₁
    refine ⟨s₂, out ++ outs₂, ?_, by simpa using hs₂⟩
    rw [run_cons, h₁, Option.bind_some, h₂]
    rfl

/-- A property of the state and the outputs so far, under which every step succeeds and which it
keeps: every run succeeds, and the property holds after it. -/
theorem run_of_invariant (inv : σ → List β → Prop)
    (hstep : ∀ s outs a, inv s outs → ∃ s' out, step s a = some (s', out) ∧ inv s' (outs ++ out)) :
    ∀ {s : σ} {outs : List β} (as : List α), inv s outs →
      ∃ s' outs', run step s as = some (s', outs') ∧ inv s' (outs ++ outs') :=
  fun as hs => run_of_invariant_allowed step (fun _ => True) inv
    (fun s outs a _ hs => hstep s outs a hs) as (fun _ _ => trivial) hs

/-- A fold in `Option` keeps a property that each of its steps keeps. -/
theorem foldlM_invariant {f : σ → α → Option σ} (inv : σ → Prop)
    (hstep : ∀ s a s', inv s → f s a = some s' → inv s') :
    ∀ {s s' : σ} (as : List α), inv s → as.foldlM f s = some s' → inv s'
  | _, _, [], hs, h => by
    cases h
    exact hs
  | s, _, a :: as, hs, h => by
    rw [List.foldlM_cons, Option.bind_eq_bind, Option.bind_eq_some_iff] at h
    obtain ⟨s₁, h₁, h⟩ := h
    exact foldlM_invariant inv hstep as (hstep s a s₁ hs h₁) h

/-- A filter in `Option` keeps, where it returns, exactly the values its steps keep. -/
theorem mem_of_filterMapM {f : α → Option (Option β)} :
    ∀ {l : List α} {r : List β}, l.filterMapM f = some r →
      ∀ b, b ∈ r ↔ ∃ a ∈ l, f a = some (some b)
  | [], r, h, b => by
    cases h
    simp
  | a :: l, r, h, b => by
    rw [List.filterMapM_cons] at h
    cases ha : f a with
    | none => simp [ha] at h
    | some o =>
      cases o with
      | none =>
        simp only [ha, Option.pure_def, Option.bind_eq_bind, Option.bind_some] at h
        rw [mem_of_filterMapM h b]
        simp [ha]
      | some c =>
        simp only [ha, Option.pure_def, Option.bind_eq_bind, Option.bind_some] at h
        cases hl : l.filterMapM f with
        | none => simp [hl] at h
        | some r' =>
          simp only [hl, Option.bind_some, Option.some.injEq] at h
          subst h
          rw [List.mem_cons, mem_of_filterMapM hl b]
          simp [ha, eq_comm]

end Machine
