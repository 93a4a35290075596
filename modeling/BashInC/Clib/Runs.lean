import Mathlib.Data.Option.Basic

/-!
Machines that take a step for each input, show something in it, and stop or go on.
A step may be left open. `Refines` relates the states of two machines of which the
first takes every step that the second has; `Refines.trace` carries this over to
whole runs.
-/
namespace Clib.Runs
variable {ι κ σ τ ε : Type*}

/-- What a step shows, with the state that it goes on from; `none` where it is left open. -/
abbrev Machine (ι σ ε : Type*) := ι → σ → Option (ε × Option σ)

/-- What a machine shows on a sequence of inputs, until it stops; `none` when it comes to a step left open. -/
def trace (M : Machine ι σ ε) : σ → List ι → Option (List ε)
  | _, [] => some []
  | s, i :: is =>
    match M i s with
    | none => none
    | some (e, none) => some [e]
    | some (e, some s) => (trace M s is).map (e :: ·)

/-- From related states `M` takes every step of `N`, to related states, for an input that counts as the same. -/
structure Refines (M : Machine ι σ ε) (N : Machine κ τ ε) (input : ι → κ) (R : σ → τ → Prop) : Prop where
  step : ∀ {i s t e t'}, R s t → N (input i) t = some (e, t') → ∃ s', M i s = some (e, s') ∧ Option.Rel R s' t'

/-- What the refined machine shows, the refining one shows. -/
theorem Refines.trace {M : Machine ι σ ε} {N : Machine κ τ ε} {input : ι → κ} {R : σ → τ → Prop}
    (refines : Refines M N input R) {s : σ} {t : τ} (related : R s t) {is : List ι} {es : List ε}
    (ran : Runs.trace N t (is.map input) = some es) : Runs.trace M s is = some es := by
  induction is generalizing s t es with
  | nil => exact ran
  | cons i is ih =>
    rw [List.map_cons, Runs.trace] at ran
    cases stepped : N (input i) t with
    | none => simp [stepped] at ran
    | some next =>
      obtain ⟨e, t'⟩ := next
      obtain ⟨s', taken, still⟩ := refines.step related stepped
      rw [Runs.trace, taken]
      cases still with
      | none => simpa [stepped] using ran
      | some still =>
        simp only [stepped, Option.map_eq_some_iff] at ran
        obtain ⟨rest, later, rfl⟩ := ran
        simp [ih still later]

/-- A machine with no open step has a run on all inputs. -/
theorem trace_isSome {M : Machine ι σ ε} (total : ∀ i s, (M i s).isSome) (s : σ) (is : List ι) : (trace M s is).isSome := by
  induction is generalizing s with
  | nil => rfl
  | cons i is ih =>
    obtain ⟨⟨e, s'⟩, taken⟩ := Option.isSome_iff_exists.mp (total i s)
    rw [trace, taken]
    cases s' with
    | none => rfl
    | some s' => simpa using ih s'

/-- What holds of everything that a step shows, holds of what a run shows. -/
theorem trace_forall {M : Machine ι σ ε} {P : ε → Prop} (each : ∀ i s e s', M i s = some (e, s') → P e) {s : σ} {is : List ι}
    {es : List ε} (ran : trace M s is = some es) : ∀ e ∈ es, P e := by
  induction is generalizing s es with
  | nil =>
    cases ran
    simp
  | cons i is ih =>
    rw [trace] at ran
    cases taken : M i s with
    | none => simp [taken] at ran
    | some next =>
      obtain ⟨e, s'⟩ := next
      have here := each i s e s' taken
      cases s' with
      | none =>
        rw [taken] at ran
        cases ran
        simpa using here
      | some s' =>
        simp only [taken, Option.map_eq_some_iff] at ran
        obtain ⟨rest, later, rfl⟩ := ran
        rw [List.forall_mem_cons]
        exact ⟨here, ih later⟩

end Clib.Runs
