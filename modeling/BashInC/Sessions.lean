import BashInC.Commands

/-!
Sessions: sequences of rounds of the main loop. What a line assigns is decided by
its words (`assignmentIn`), and only an assignment changes the variable list or
stores into the arrays of `def_var` (`step_vars`, `step_stores`).
-/
namespace BashInC.Sessions
open Clib.Fields Clib.Strings Clib.Buffers BashInC.IoHelpers BashInC.Expansion BashInC.Variables
open BashInC.Echo BashInC.System BashInC.Listing BashInC.Files BashInC.Mysh BashInC.Commands
variable {W : Type*}

/-- The rounds on a sequence of lines, each with what the stack holds: until the shell exits, or has no
    defined behaviour any more. -/
def rounds (k : Kernel W) : Shell W → List (Residue × List Byte) → List (Round (Shell W))
  | _, [] => []
  | s, (stack, line) :: rest =>
    let round := step k stack line s
    round :: match round.outcome with
      | .next s => rounds k s rest
      | _ => []

/-- The state after a sequence of lines, if the shell still runs. -/
def after (k : Kernel W) : Shell W → List (Residue × List Byte) → Option (Shell W)
  | s, [] => some s
  | s, (stack, line) :: rest =>
    match (step k stack line s).outcome with
    | .next s => after k s rest
    | _ => none

theorem after_singleton_iff {k : Kernel W} {s s' : Shell W} {stack : Residue} {line : List Byte} :
    after k s [(stack, line)] = some s' ↔ (step k stack line s).outcome = .next s' := by
  unfold after
  cases (step k stack line s).outcome <;> simp [after]

theorem reachable_after {k : Kernel W} {s s' : Shell W} {lines : List (Residue × List Byte)} (reached : Reachable k s)
    (short : ∀ l ∈ lines, l.2.length ≤ MAX_STR_LEN) (ran : after k s lines = some s') : Reachable k s' := by
  induction lines generalizing s with
  | nil => exact Option.some.inj ran ▸ reached
  | cons line lines ih =>
    rw [after] at ran
    split at ran
    · next next => exact ih (.step reached (short line (by simp)) next) (fun l member => short l (by simp [member])) ran
    · cases ran

/-! ### Assignments -/

/-- The assignment that a line with these words makes, if it makes one. -/
def assignmentIn : List (List Byte) → Option (CStr × CStr)
  | [] => none
  | cmd :: _ => if cmd ≠ lit "exit" ∧ chr '=' ∈ cmd then assignmentOf cmd else none

/-- A store into an array of `def_var`. -/
def intoDefVar : Event → Bool
  | .store .nameBuffer _ | .store .new_val _ => true
  | _ => false

private theorem intoDefVar_visible {e : Event} (seen : e.visible = true) : intoDefVar e = false := by
  cases e with
  | store array range => simp [Event.visible] at seen
  | _ => rfl

private theorem filter_shown {events : List Event} (seen : ∀ e ∈ events, e.visible = true) :
    events.filter intoDefVar = [] := by
  rw [List.filter_eq_nil_iff]
  intro e member
  simp [intoDefVar_visible (seen e member)]

private theorem filter_defVarEvents (call : DefVar) : (defVarEvents call).filter intoDefVar = defVarEvents call := by
  rw [List.filter_eq_self, defVarEvents, List.forall_mem_append, List.forall_mem_map, List.forall_mem_map]
  constructor <;> intros <;> rfl

private theorem bn_ls_stores (k : Kernel W) (w : W) (mem : List Byte) (tokens : List (Option Nat)) :
    (bn_ls k w mem tokens).events.filter intoDefVar = [] := by
  obtain ⟨events, all, cases⟩ := bn_ls_cases k w mem tokens
  have none : events.filter intoDefVar = [] := by
    rw [List.filter_eq_nil_iff]
    intro e member
    have kind := all e member
    unfold own at kind
    split at kind <;> simp_all [intoDefVar]
  rcases cases with ⟨message, ran⟩ | ⟨path, depth, filter, ran⟩
  · rw [ran, List.filter_append, none, filter_shown (visible_display_error _ _)]
    rfl
  · rw [ran, List.filter_append, none, filter_shown (list_directory_visible k w path depth filter)]
    rfl

private theorem call_builtin_stores (k : Kernel W) (stack : Residue) (s : Shell W) (builtin_fn : Builtin) :
    (call_builtin k stack s builtin_fn).1.events.filter intoDefVar = [] := by
  cases builtin_fn with
  | bn_echo =>
    have copied : ∀ ranges : List Range, (ranges.map (Event.store .final)).filter intoDefVar = [] := by
      intro ranges
      rw [List.filter_eq_nil_iff, List.forall_mem_map]
      intro range member
      simp [intoDefVar]
    simp [call_builtin, echoEvents, copied, intoDefVar, display_message]
  | word_count => exact filter_shown (word_count_visible _ _ _ _)
  | cat => exact filter_shown (cat_visible _ _ _ _)
  | cd => exact filter_shown (cd_visible _ _ _ _)
  | pwd => exact filter_shown (pwd_visible _ _ _)
  | bn_ls => exact bn_ls_stores ..

/-- What a command stores into the arrays of `def_var`, and the variable list it leaves. -/
private theorem command_assigns (k : Kernel W) (stack : Residue) {s : Shell W} {region post : List Byte} {first : Nat}
    {ptrs : List Nat} {tokens : List (Option Nat)} {cmd : List Byte} {args : List (List Byte)}
    (t : Tokens s region post first ptrs tokens cmd args) :
    let done := command k stack s first
    done.1.filter intoDefVar = (match assignmentIn (cmd :: args) with
      | none => []
      | some (name, val) => defVarEvents (def_var s.vars name val)) ∧
    ∀ s', done.2 = some s' → s'.vars = match assignmentIn (cmd :: args) with
      | none => s.vars
      | some (name, val) => (def_var s.vars name val).vars := by
  have noNul : 0 ∉ cmd := laid_noNul t.laid cmd (by simp)
  simp only [command, t.texts.1, exit_iff noNul, assignmentIn]
  by_cases leaves : cmd = lit "exit"
  · simp [leaves]
  · by_cases assigns : chr '=' ∈ cmd
    · obtain ⟨pre, tail, placed, rfl⟩ := t.placed
      obtain ⟨mem, assigned⟩ := assignment_words placed noNul
      simp only [leaves, ↓reduceIte, assigns, not_false_eq_true, and_self, assigned, ne_eq]
      cases assignmentOf cmd with
      | none => simp
      | some call => simpa using filter_defVarEvents _
    · simp only [leaves, ↓reduceIte, assigns, and_false]
      cases check_builtin cmd with
      | none => simpa using filter_shown (visible_display_error _ _)
      | some builtin_fn =>
        have failed := filter_shown (visible_display_error (lit "ERROR: Builtin failed: ")
          (cstr (call_builtin k stack s builtin_fn).2 first))
        dsimp only
        rw [List.filter_append, call_builtin_stores]
        split_ifs <;> simp [failed]

/-- What a round on a line stores into the arrays of `def_var`, and the variable list it leaves. -/
theorem step_assigns (k : Kernel W) (stack : Residue) {s : Shell W} (sized : s.Sized) {line : List Byte}
    (short : line.length ≤ MAX_STR_LEN) :
    (step k stack line s).events.filter intoDefVar = (match assignmentIn (words (CStr.of line)) with
      | none => []
      | some (name, val) => defVarEvents (def_var s.vars name val)) ∧
    ∀ s', (step k stack line s).outcome = .next s' → s'.vars = match assignmentIn (words (CStr.of line)) with
      | none => s.vars
      | some (name, val) => (def_var s.vars name val).vars := by
  have shownPrompt := filter_shown (visible_display_message prompt)
  by_cases input : line = []
  · subst input
    have newline := filter_shown (visible_display_message (lit "\n"))
    simp [step_eof, shownPrompt, newline, CStr.of, words, assignmentIn]
  · have ran := step_tokens k stack sized short input
    cases isWords : words (CStr.of line) with
    | nil =>
      rw [isWords] at ran
      rw [ran]
      constructor
      · exact shownPrompt
      · intro s' next
        rw [← Outcome.next.inj next]
        rfl
    | cons cmd args =>
      rw [isWords] at ran
      obtain ⟨region, post, first, ptrs, tokens, ran⟩ := ran
      obtain ⟨stores, list⟩ := command_assigns k stack tokens
      rw [tokenized_vars] at stores list
      rw [ran]
      constructor
      · rw [List.filter_append, shownPrompt, stores, List.nil_append]
      · intro s' next
        exact list s' (outcome_eq_next_iff.mp next).2

/-- The stores of `def_var` stay in `char nameBuffer[128]` and `char new_val[1024]`. -/
def DefVarInBounds (events : List Event) : Prop := ∀ e ∈ events, intoDefVar e = true → e.InBounds

/-- The assignment of a line, if it makes one, fits the buffers of `def_var`. -/
def AssignmentFits (m : Env) (line : List Byte) : Prop :=
  match assignmentIn (words (CStr.of line)) with
  | none => True
  | some (_, val) => Fits m val

instance (m : Env) (line : List Byte) : Decidable (AssignmentFits m line) := by
  unfold AssignmentFits; split <;> infer_instance

/-- Every assignment of a session fits under the variables it meets. -/
def AssignmentsFit (k : Kernel W) : Shell W → List (Residue × List Byte) → Prop
  | _, [] => True
  | s, (stack, line) :: rest =>
    AssignmentFits (get_var s.vars) line ∧
      match (step k stack line s).outcome with
      | .next s => AssignmentsFit k s rest
      | _ => True

instance decidableAssignmentsFit (k : Kernel W) : ∀ (s : Shell W) (lines : List (Residue × List Byte)),
    Decidable (AssignmentsFit k s lines)
  | _, [] => inferInstanceAs (Decidable True)
  | s, (stack, line) :: rest =>
    have : Decidable (match (step k stack line s).outcome with
        | .next s => AssignmentsFit k s rest
        | _ => True) :=
      match (step k stack line s).outcome with
      | .next s => decidableAssignmentsFit k s rest
      | .exit | .undefined => inferInstanceAs (Decidable True)
    inferInstanceAs (Decidable (AssignmentFits (get_var s.vars) line ∧ _))

/-- The assignment of one line stays in the buffers exactly when it fits. -/
theorem step_defVar_inBounds_iff {k : Kernel W} {stack : Residue} {s : Shell W} (sized : s.Sized)
    {line : List Byte} (short : line.length ≤ MAX_STR_LEN) :
    DefVarInBounds (step k stack line s).events ↔ AssignmentFits (get_var s.vars) line := by
  have stores := (step_assigns k stack sized short).1
  have split : DefVarInBounds (step k stack line s).events ↔
      ∀ e ∈ (step k stack line s).events.filter intoDefVar, e.InBounds := by
    simp only [DefVarInBounds, List.mem_filter, and_imp]
  rw [split, stores, AssignmentFits]
  cases assignmentIn (words (CStr.of line)) with
  | none => simp
  | some call => exact (defVarEvents_inBounds _).trans (def_var_inBounds_iff _ _ _)

/-- The variable list after a round: what the assignment of the line makes of it, which has fitted. -/
theorem step_next_vars {k : Kernel W} {stack : Residue} {s s' : Shell W} (sized : s.Sized) {line : List Byte}
    (short : line.length ≤ MAX_STR_LEN) (next : (step k stack line s).outcome = .next s') :
    match assignmentIn (words (CStr.of line)) with
    | none => s'.vars = s.vars
    | some (name, val) => Fits (get_var s.vars) val ∧ s'.vars = (def_var s.vars name val).vars := by
  have list := (step_assigns k stack sized short).2 s' next
  have inBounds : DefVarInBounds (step k stack line s).events := by
    intro e member _
    rcases List.mem_append.mp member with prompt | body
    · exact e.inBounds_of_visible (visible_display_message _ e prompt)
    · exact (step_eq_next_iff.mp next).1 e body
  have fits := (step_defVar_inBounds_iff sized short).mp inBounds
  unfold AssignmentFits at fits
  cases assigns : assignmentIn (words (CStr.of line)) with
  | none => simpa [assigns] using list
  | some call =>
    rw [assigns] at fits list
    exact ⟨fits, list⟩

/-- No variable has the empty name. -/
theorem reachable_unnamed {k : Kernel W} {s : Shell W} (reached : Reachable k s) : get_var s.vars [] = none := by
  induction reached with
  | start stack w => rfl
  | @step s s' stack line reached short next ih =>
    have list := step_next_vars (reachable_sized reached) short next
    cases assigns : assignmentIn (words (CStr.of line)) with
    | none =>
      rw [assigns] at list
      exact list ▸ ih
    | some call =>
      obtain ⟨name, val⟩ := call
      rw [assigns] at list
      obtain ⟨fits, list⟩ := list
      cases isWords : words (CStr.of line) with
      | nil => simp [isWords, assignmentIn] at assigns
      | cons cmd args =>
        rw [isWords, assignmentIn] at assigns
        split_ifs at assigns
        have member : cmd ∈ words (CStr.of line) := by simp [isWords]
        have noNul : 0 ∉ cmd := fun nul => (CStr.of line).2 ((fields_sublist member).subset nul)
        obtain ⟨lead, -, -, named, -⟩ := assignmentOf_eq_some noNul assigns
        rw [list, get_var_def_var name fits, if_neg (Ne.symm named)]
        exact ih

private theorem rounds_defVar_inBounds_iff {k : Kernel W} {s : Shell W} (sized : s.Sized)
    {lines : List (Residue × List Byte)} (short : ∀ l ∈ lines, l.2.length ≤ MAX_STR_LEN) :
    (∀ round ∈ rounds k s lines, DefVarInBounds round.events) ↔ AssignmentsFit k s lines := by
  induction lines generalizing s with
  | nil => simp [rounds, AssignmentsFit]
  | cons line lines ih =>
    obtain ⟨stack, line⟩ := line
    have here : line.length ≤ MAX_STR_LEN := short (stack, line) (by simp)
    rw [rounds, AssignmentsFit, List.forall_mem_cons, step_defVar_inBounds_iff sized here]
    refine and_congr_right fun _ => ?_
    cases next : (step k stack line s).outcome with
    | next s' => exact ih (sized_step sized here next) fun l member => short l (by simp [member])
    | exit => simp
    | undefined => simp

/-- In a session that starts without variables, every store of `def_var` stays in its buffers exactly when
    every assignment fits under the variables it meets. -/
theorem session_def_var_inBounds_iff (k : Kernel W) (stack : Residue) (w : W) {lines : List (Residue × List Byte)}
    (short : ∀ l ∈ lines, l.2.length ≤ MAX_STR_LEN) :
    (∀ round ∈ rounds k (start stack w) lines, DefVarInBounds round.events) ↔
      AssignmentsFit k (start stack w) lines :=
  rounds_defVar_inBounds_iff (reachable_sized (Reachable.start (k := k) stack w)) short

/-- An array of zeros. -/
def zeros : Residue := ⟨List.replicate MAX_STR_LEN 0, List.length_replicate⟩

/-- The lines of a session typed on a terminal. -/
def typed (lines : List (List Byte)) : List (Residue × List Byte) := lines.map fun line => (zeros, line ++ [chr '\n'])

/-- A session that does not end leads to a reachable state. -/
theorem reachable_session {lines : List (Residue × List Byte)} (short : ∀ l ∈ lines, l.2.length ≤ MAX_STR_LEN)
    (runs : (after bare (start zeros ()) lines).isSome = true) :
    ∃ s, after bare (start zeros ()) lines = some s ∧ Reachable bare s := by
  obtain ⟨s, ran⟩ := Option.isSome_iff_exists.mp runs
  exact ⟨s, ran, reachable_after (.start zeros ()) short ran⟩

/-- What is found of the state after a session, by running it. -/
theorem of_after (P : Shell Unit → Prop) [DecidablePred P] {lines : List (Residue × List Byte)} {s : Shell Unit}
    (ran : after bare (start zeros ()) lines = some s)
    (holds : (after bare (start zeros ()) lines).all (fun s => decide (P s)) = true) : P s := by
  rw [ran, Option.all_some, decide_eq_true_eq] at holds
  exact holds

/-- A session whose third line refers to what the second has made of the first. -/
def referring : List (Residue × List Byte) := typed [lit "x=ab", lit "y=$x$x", lit "y=$y$z"]

theorem session_def_var_inBounds_referring : AssignmentsFit bare (start zeros ()) referring ∧
    ∀ round ∈ rounds bare (start zeros ()) referring, DefVarInBounds round.events := by
  have fit : AssignmentsFit bare (start zeros ()) referring := by decide +kernel
  exact ⟨fit, (session_def_var_inBounds_iff bare zeros () (by decide)).mpr fit⟩

/-- A value of 16 bytes, repeated eight times by each of two more lines. -/
def eightfold : List (Residue × List Byte) :=
  typed [lit "x=aaaaaaaaaaaaaaaa", lit "x=$x$x$x$x$x$x$x$x", lit "x=$x$x$x$x$x$x$x$x"]

instance (events : List Event) : Decidable (DefVarInBounds events) := by
  unfold DefVarInBounds; infer_instance

theorem session_def_var_overflows : ¬ ∀ lines : List (Residue × List Byte), (∀ l ∈ lines, l.2.length ≤ MAX_STR_LEN) →
    ∀ round ∈ rounds bare (start zeros ()) lines, DefVarInBounds round.events := by
  intro inBounds
  have short : ∀ l ∈ eightfold, l.2.length ≤ MAX_STR_LEN := by decide +kernel
  have overflows : ¬ ∀ round ∈ rounds bare (start zeros ()) eightfold, DefVarInBounds round.events := by decide +kernel
  exact overflows (inBounds eightfold short)

/-! ### Echo lines -/

/-- The call of `bn_echo` on a line. -/
def echo_call (stack : Residue) (line : List Byte) (s : Shell W) : EchoCall :=
  let s := tokenized { s with input_buf := fill s.input_buf line }
  bn_echo s.vars stack s.input_buf s.token_arr

/-- On a line whose first word is `echo`, a round is the call of `bn_echo`. The call stays in `final` exactly
    when what the line commits to fits, and then it prints the first 127 bytes of the echoed words. -/
private theorem step_echo (k : Kernel W) (stack : Residue) {s : Shell W} (sized : s.Sized) {line : List Byte}
    (short : line.length ≤ MAX_STR_LEN) {args : List (List Byte)} (echo : words (CStr.of line) = lit "echo" :: args) :
    (step k stack line s).events = display_message prompt ++ echoEvents (echo_call stack line s) ∧
      ((echo_call stack line s).InBounds ↔ (committed (get_var s.vars) args).length ≤ 127) ∧
      ((echo_call stack line s).InBounds → (echo_call stack line s).printed = (joined (get_var s.vars) args).take 127) := by
  have input : line ≠ [] := by
    rintro rfl
    simp [CStr.of, words] at echo
  have ran := step_tokens k stack sized short input
  rw [echo] at ran
  obtain ⟨region, post, first, ptrs, tokens, ran⟩ := ran
  have spec := bn_echo_spec s.vars stack tokens.laid (fun w member => tokens.nonempty w (by simp [member])) post s.token_arr
  rw [← tokens.mem, ← tokens.arr] at spec
  obtain ⟨bounds, printed, -⟩ := spec
  refine ⟨?_, bounds, printed⟩
  have notExit : ¬ (List.take 4 (lit "echo") = lit "exit" ∧ (lit "echo").getD 4 0 = 0) := by decide
  have noSign : chr '=' ∉ lit "echo" := by decide
  have known : check_builtin (lit "echo") = some .bn_echo := by decide
  rw [ran]
  simp only [command, tokens.texts.1, notExit, noSign, known, ↓reduceIte, call_builtin]
  simp [echo_call]

/-- Every copy into `final` stays at indices up to 126, the terminator at an index up to 127, and an
    expansion of more than 127 bytes is printed as its first 127: exactly when what the line commits to, its
    expansion up to the last separator, lone `$` or text in front of a `$`, has at most 127 bytes. -/
theorem echo_line_safe_iff {k : Kernel W} {s : Shell W} (reached : Reachable k s) (stack : Residue) {line : List Byte}
    (short : line.length ≤ MAX_STR_LEN) {args : List (List Byte)} (echo : words (CStr.of line) = lit "echo" :: args) :
    (step k stack line s).events = display_message prompt ++ echoEvents (echo_call stack line s) ∧
      ((echo_call stack line s).InBounds ∧ (127 < (joined (get_var s.vars) args).length →
          (echo_call stack line s).printed = (joined (get_var s.vars) args).take 127) ↔
        (committed (get_var s.vars) args).length ≤ 127) := by
  obtain ⟨events, bounds, printed⟩ := step_echo k stack (reachable_sized reached) short echo
  refine ⟨events, ?_⟩
  constructor
  · rintro ⟨inBounds, -⟩
    exact bounds.mp inBounds
  · intro fits
    have inBounds := bounds.mpr fits
    exact ⟨inBounds, fun _ => printed inBounds⟩

theorem echo_line_safe_text :
    (step bare zeros (lit "echo a $x$\n") (start zeros ())).events =
        display_message prompt ++ echoEvents (echo_call zeros (lit "echo a $x$\n") (start zeros ())) ∧
      ((echo_call zeros (lit "echo a $x$\n") (start zeros ())).InBounds ∧
          (127 < (joined (get_var []) [lit "a", lit "$x$"]).length →
            (echo_call zeros (lit "echo a $x$\n") (start zeros ())).printed =
              (joined (get_var []) [lit "a", lit "$x$"]).take 127) ↔
        (committed (get_var []) [lit "a", lit "$x$"]).length ≤ 127) :=
  echo_line_safe_iff (k := bare) (.start zeros ()) zeros (by decide) (by decide +kernel)

/-- A value of 64 bytes. -/
def longValue : List (Residue × List Byte) :=
  typed [lit "x=aaaaaaaaaaaaaaaa", lit "x=$x$x$x$x"]

/-- Two values of 64 bytes are clipped at index 127; the separator behind them moves the index on, and the
    text behind that is copied out of `final`. -/
theorem echo_line_overflows : ¬ ∀ s : Shell Unit, Reachable bare s → ∀ (stack : Residue) (line : List Byte),
    line.length ≤ MAX_STR_LEN → ∀ args, words (CStr.of line) = lit "echo" :: args →
      (echo_call stack line s).InBounds := by
  intro inBounds
  obtain ⟨s, ran, reached⟩ := @reachable_session longValue (by decide +kernel) (by decide +kernel)
  have overflows := of_after (fun s => ¬ (echo_call zeros (lit "echo $x$x b\n") s).InBounds) ran (by decide +kernel)
  exact overflows (inBounds s reached zeros (lit "echo $x$x b\n") (by decide) [lit "$x$x", lit "b"] (by decide +kernel))

/-! ### Leftovers -/

/-- On a line whose words are settled two states with the same variables and the same system show the same and stay
    alike, whatever else they hold; also those behind a read that has failed or found too much. -/
theorem step_view_sized {k : Kernel W} {s s' : Shell W} (sized : s.Sized) (sized' : s'.Sized) (same : view s = view s')
    (stack stack' : Residue) {line : List Byte} (short : line.length ≤ MAX_STR_LEN)
    (settled : Settled k (view s) (words (CStr.of line))) :
    observe (step k stack line s) = observe (step k stack' line s') ∧
      (step k stack line s).outcome ≠ .undefined := by
  by_cases input : line = []
  · subst input
    simp [step_eof, observe, map]
  · obtain ⟨round, isRound⟩ := Option.isSome_iff_exists.mp ((line_round_isSome_iff k _ _).mpr settled)
    have here := step_words stack sized short input isRound
    rw [same] at isRound
    have there := step_words stack' sized' short input isRound
    refine ⟨here.trans there.symm, fun undefined => line_round_defined isRound ?_⟩
    have := congrArg Round.outcome here
    rw [observe, undefined] at this
    exact this.symm

/-- Two states with the same variables and the same system print the same on a line whose words are
    settled, and go on with the same variables and the same system, whatever earlier lines have left in
    `input_buf` and `token_arr` and whatever the stack holds. -/
theorem step_same_view {k : Kernel W} {s s' : Shell W} (reached : Reachable k s) (reached' : Reachable k s')
    (same : view s = view s') (stack stack' : Residue) {line : List Byte} (short : line.length ≤ MAX_STR_LEN)
    (settled : Settled k (view s) (words (CStr.of line))) :
    observe (step k stack line s) = observe (step k stack' line s') ∧
      (step k stack line s).outcome ≠ .undefined :=
  step_view_sized (reachable_sized reached) (reachable_sized reached') same stack stack' short settled

/-- A session of three words, which leaves four tokens behind. -/
def threeWords : List (Residue × List Byte) := typed [lit "echo a b c"]

private theorem after_threeWords : ∃ s, after bare (start zeros ()) threeWords = some s ∧ Reachable bare s ∧
    view (start zeros ()) = view s := by
  obtain ⟨s, ran, reached⟩ := @reachable_session threeWords (by decide +kernel) (by decide +kernel)
  have noVars := of_after (fun s => s.vars = []) ran (by decide +kernel)
  exact ⟨s, ran, reached, by rw [view, view, noVars]; rfl⟩

theorem step_same_view_three_words : ∃ s : Shell Unit, Reachable bare s ∧
    observe (step bare zeros (lit "ls --rec --d 1\n") (start zeros ())) =
      observe (step bare zeros (lit "ls --rec --d 1\n") s) := by
  obtain ⟨s, -, reached, same⟩ := after_threeWords
  exact ⟨s, reached, (step_same_view (.start zeros ()) reached same zeros zeros (by decide) (by decide +kernel)).1⟩

/-- `ls --f` steps over the NULL behind its flag, to the last token of the line before. -/
theorem ls_reads_leftovers : ¬ ∀ s s' : Shell Unit, Reachable bare s → Reachable bare s' → view s = view s' →
    ∀ line : List Byte, line.length ≤ MAX_STR_LEN → ∀ stack : Residue,
      observe (step bare stack line s) = observe (step bare stack line s') := by
  intro same
  obtain ⟨s, ran, reached, sameView⟩ := after_threeWords
  have differ := of_after (fun s => (observe (step bare zeros (lit "ls --f\n") (start zeros ()))).events ≠
    (observe (step bare zeros (lit "ls --f\n") s)).events) ran (by decide +kernel)
  exact differ (congrArg Round.events (same _ s (.start zeros ()) reached sameView (lit "ls --f\n") (by decide) zeros))

end BashInC.Sessions
