import Mathlib.Data.List.Induction

/-!
Computations that show events on their way to a value, or halt before it, and the
monitors that watch them. A monitor reads the events one by one and refuses what
must not come. `Watched` says what a computation does to a monitor; it has one rule
for each way to build a computation, and `Watched.iterate` for a loop.
-/
namespace Clib.Traces
universe u
variable {ε η σ : Type*} {α β : Type u}

/-- The events that have been shown, and the value, or why there is none. -/
structure Run (ε η α : Type*) where
  events : List ε
  result : Except η α

/-- The second computation starts from the value of the first, unless that halts. -/
def Run.bind (x : Run ε η α) (f : α → Run ε η β) : Run ε η β :=
  match x.result with
  | .error h => ⟨x.events, .error h⟩
  | .ok a => ⟨x.events ++ (f a).events, (f a).result⟩

instance : Monad (Run ε η) where
  pure a := ⟨[], .ok a⟩
  bind := Run.bind

def emit (events : List ε) : Run ε η PUnit.{u + 1} := ⟨events, .ok .unit⟩

def halt (h : η) : Run ε η α := ⟨[], .error h⟩

/-- The value of one computation behind another. -/
theorem bind_result_ok {x : Run ε η α} {f : α → Run ε η β} {b : β} :
    (x >>= f).result = .ok b ↔ ∃ a, x.result = .ok a ∧ (f a).result = .ok b := by
  change (x.bind f).result = .ok b ↔ _
  unfold Run.bind
  cases result : x.result <;> simp

theorem emit_bind_result (events : List ε) (f : PUnit → Run ε η α) : (emit events >>= f).result = (f .unit).result := rfl

/-- Only what follows on the value of a computation makes a difference. -/
theorem Run.bind_congr {x : Run ε η α} {f g : α → Run ε η β} (same : ∀ a, x.result = .ok a → f a = g a) :
    x >>= f = x >>= g := by
  change x.bind f = x.bind g
  unfold Run.bind
  cases result : x.result with
  | error h => rfl
  | ok a => simp only [same a result]

/-- A loop that has been run for some rounds. -/
def iterate (round : α → Run ε η α) : Nat → α → Run ε η α
  | 0, a => pure a
  | n + 1, a => do
    let a ← round a
    iterate round n a

/-- A monitor on some events; `none` once it has refused one. -/
def replay (δ : σ → ε → Option σ) : σ → List ε → Option σ := List.foldlM δ

/-- The monitor follows the computation from `s`, to a state that fits its value or the reason to halt. -/
def Watched (δ : σ → ε → Option σ) (s : σ) (x : Run ε η α) (value : α → σ → Prop) (halted : η → σ → Prop) : Prop :=
  ∃ t, replay δ s x.events = some t ∧
    match x.result with
    | .ok a => value a t
    | .error h => halted h t

variable {δ : σ → ε → Option σ} {s : σ} {value : α → σ → Prop} {halted : η → σ → Prop}

@[simp] theorem replay_nil : replay δ s [] = some s := rfl

theorem replay_cons (e : ε) (es : List ε) : replay δ s (e :: es) = (δ s e).bind (replay δ · es) := List.foldlM_cons

theorem replay_append (es es' : List ε) : replay δ s (es ++ es') = (replay δ s es).bind (replay δ · es') :=
  List.foldlM_append

/-- What is true at first, and stays true with every event, is true behind all of them. -/
theorem replay_invariant {P : σ → List ε → Prop} {es : List ε} {t : σ} (ran : replay δ s es = some t) (start : P s [])
    (step : ∀ s shown e s', P s shown → δ s e = some s' → P s' (shown ++ [e])) : P t es := by
  induction es using List.reverseRecOn generalizing t with
  | nil =>
    cases ran
    exact start
  | append_singleton es e ih =>
    rw [replay_append, Option.bind_eq_some_iff] at ran
    obtain ⟨s', before, taken⟩ := ran
    rw [replay_cons, Option.bind_eq_some_iff] at taken
    obtain ⟨t', taken, same⟩ := taken
    cases same
    exact step s' es e t (ih before) taken

theorem watched_pure {a : α} (fits : value a s) : Watched δ s (pure a : Run ε η α) value halted := ⟨s, rfl, fits⟩

theorem watched_halt {h : η} (fits : halted h s) : Watched δ s (halt h : Run ε η α) value halted := ⟨s, rfl, fits⟩

/-- One computation behind the other. -/
theorem Watched.bind {x : Run ε η α} {f : α → Run ε η β} {value' : β → σ → Prop} (watched : Watched δ s x value halted)
    (next : ∀ a t, value a t → Watched δ t (f a) value' halted) : Watched δ s (x >>= f) value' halted := by
  obtain ⟨t, shown, ends⟩ := watched
  change Watched δ s (x.bind f) value' halted
  unfold Run.bind
  cases result : x.result with
  | error h =>
    rw [result] at ends
    exact ⟨t, shown, ends⟩
  | ok a =>
    rw [result] at ends
    obtain ⟨t', shown', ends'⟩ := next a t ends
    refine ⟨t', ?_, ends'⟩
    rw [replay_append, shown, Option.bind_some, shown']

/-- Events that the monitor follows, with a computation behind them. -/
theorem watched_emit {es : List ε} {f : PUnit → Run ε η α} {t : σ} (shown : replay δ s es = some t)
    (next : Watched δ t (f .unit) value halted) : Watched δ s (emit es >>= f) value halted := by
  have emitted : Watched δ s (emit es : Run ε η PUnit) (fun _ t' => t' = t) halted := ⟨t, shown, rfl⟩
  apply emitted.bind
  rintro ⟨⟩ t' rfl
  exact next

/-- A loop keeps what each of its rounds does. -/
theorem Watched.iterate {round : α → Run ε η α}
    (each : ∀ a s, value a s → Watched δ s (round a) value halted) (n : Nat) {a : α} (fits : value a s) :
    Watched δ s (iterate round n a) value halted := by
  induction n generalizing s a with
  | zero => exact watched_pure fits
  | succ n ih => exact Watched.bind (each a s fits) fun a t fits => ih fits

end Clib.Traces
