import BashInC.Echo
import BashInC.Files
import BashInC.Listing

/-!
The main loop of the shell for one line of input: what `main` does once
`get_input` has put the line into `input_buf`. A round of the loop is a list of
events and what comes after it; a round that leaves one of the fixed-size arrays
has no defined outcome. `input_buf` and `token_arr` are kept from one round to
the next, as in `main`.
-/
namespace BashInC.Mysh
open Clib.Fields Clib.Strings Clib.Buffers BashInC.IoHelpers BashInC.Expansion BashInC.Variables
open BashInC.Echo BashInC.System BashInC.Listing BashInC.Files
variable {W : Type*}

/-! ### Builtins -/

/-- The search of `check_builtin` in a table of names; the function at the index behind the last name
    stands for every other command. -/
def lookup_builtin {α : Type*} (builtins : List (List Byte)) (fns : List (Option α)) (cmd : List Byte) : Option α :=
  fns.getD (builtins.findIdx fun name => name.take MAX_STR_LEN == cmd.take MAX_STR_LEN) none

theorem lookup_builtin_nil {α : Type*} (fn : Option α) (fns : List (Option α)) (cmd : List Byte) :
    lookup_builtin [] (fn :: fns) cmd = fn := rfl

/-- A name shorter than what `strncmp` compares is found by itself only. -/
theorem lookup_builtin_cons {α : Type*} {name : List Byte} (short : name.length < MAX_STR_LEN) (builtins : List (List Byte))
    (fn : Option α) (fns : List (Option α)) (cmd : List Byte) :
    lookup_builtin (name :: builtins) (fn :: fns) cmd = if cmd = name then fn else lookup_builtin builtins fns cmd := by
  have whole : name.take MAX_STR_LEN = name := List.take_of_length_le (Nat.le_of_lt short)
  unfold lookup_builtin
  rw [List.findIdx_cons, whole]
  by_cases same : cmd = name
  · simp [same, whole]
  · have other : (name == cmd.take MAX_STR_LEN) = false := by
      rw [beq_eq_false_iff_ne]
      intro front
      apply same
      have cut := congrArg List.length front
      rw [List.length_take] at cut
      rw [front, List.take_of_length_le (by omega)]
    simp [same, other]

inductive Builtin
  | bn_echo | word_count | cat | cd | pwd | bn_ls
  deriving DecidableEq

def BUILTINS : List (List Byte) := [lit "echo", lit "wc", lit "cat", lit "cd", lit "pwd", lit "ls"]

def BUILTINS_FN : List (Option Builtin) :=
  [some .bn_echo, some .word_count, some .cat, some .cd, some .pwd, some .bn_ls, none]

def check_builtin (cmd : List Byte) : Option Builtin := lookup_builtin BUILTINS BUILTINS_FN cmd

theorem check_builtin_eq (cmd : List Byte) : check_builtin cmd =
    if cmd = lit "echo" then some .bn_echo
    else if cmd = lit "wc" then some .word_count
    else if cmd = lit "cat" then some .cat
    else if cmd = lit "cd" then some .cd
    else if cmd = lit "pwd" then some .pwd
    else if cmd = lit "ls" then some .bn_ls
    else none := by
  unfold check_builtin BUILTINS BUILTINS_FN
  rw [lookup_builtin_cons (by decide), lookup_builtin_cons (by decide), lookup_builtin_cons (by decide),
    lookup_builtin_cons (by decide), lookup_builtin_cons (by decide), lookup_builtin_cons (by decide), lookup_builtin_nil]

theorem check_builtin_mem {cmd : List Byte} {builtin_fn : Builtin} (known : check_builtin cmd = some builtin_fn) :
    cmd ∈ BUILTINS := by
  rw [check_builtin_eq] at known
  unfold BUILTINS
  split_ifs at known <;> simp_all

/-! ### Rounds -/

/-- The variables of `main`, the variable list and the state of the system. -/
structure Shell (W : Type*) where
  input_buf : List Byte
  token_arr : List (Option Nat)
  vars : List Variable
  world : W

/-- What comes after a round: the next one, the end of the shell, or anything. -/
inductive Outcome (σ : Type*)
  | next (s : σ)
  | exit
  | undefined
  deriving DecidableEq

structure Round (σ : Type*) where
  events : List Event
  outcome : Outcome σ
  deriving DecidableEq

/-- The events of a call of `bn_echo`. -/
def echoEvents (call : EchoCall) : List Event :=
  call.copies.map (.store .final) ++ .store .final (call.terminator, 1) :: .stdout call.printed ::
    display_message (lit "\n")

/-- The string at `tokens[i]`, `none` for NULL. -/
def arg (mem : List Byte) (tokens : List (Option Nat)) (i : Nat) : Option (List Byte) :=
  (tokens.getD i none).map (cstr mem)

/-- `builtin_fn(token_arr)`: its effect, and the tokens as it leaves them. -/
def call_builtin (k : Kernel W) (stack : Residue) (s : Shell W) : Builtin → Effect W × List Byte :=
  let name := (arg s.input_buf s.token_arr 0).getD []
  let arg := arg s.input_buf s.token_arr 1
  fun
  | .bn_echo =>
    let call := bn_echo s.vars stack s.input_buf s.token_arr
    (⟨0, echoEvents call, s.world⟩, call.mem)
  | .word_count => (word_count k s.world name arg, s.input_buf)
  | .cat => (cat k s.world name arg, s.input_buf)
  | .cd => (cd k s.world name arg, s.input_buf)
  | .pwd => (pwd k s.world stack, s.input_buf)
  | .bn_ls => (bn_ls k s.world s.input_buf s.token_arr, s.input_buf)

/-- The ranges that a call of `def_var` writes. -/
def defVarEvents (call : DefVar) : List Event :=
  call.nameWrites.map (.store .nameBuffer) ++ call.valWrites.map (.store .new_val)

/-- The command of a line whose first token contains a `=`. -/
def assignment (s : Shell W) (token : Nat) : List Event × Shell W :=
  let name := strtok_r (lit "=") s.input_buf token
  let val := strtok_r [] name.mem name.save
  match name.token, val.token with
  | some name, some value =>
    let call := def_var s.vars (CStr.of (cstr val.mem name)) (CStr.of (cstr val.mem value))
    (defVarEvents call, { s with input_buf := val.mem, vars := call.vars })
  | _, _ => ([], { s with input_buf := val.mem })

/-- The command of a line with a first token; `none` for the state when `main` returns. -/
def command (k : Kernel W) (stack : Residue) (s : Shell W) (token : Nat) : List Event × Option (Shell W) :=
  let cmd := cstr s.input_buf token
  if cmd.take 4 = lit "exit" ∧ cmd.getD 4 0 = 0 then ([], none)
  else if chr '=' ∈ cmd then
    let (events, s) := assignment s token
    (events, some s)
  else
    match check_builtin cmd with
    | some builtin_fn =>
      let (effect, mem) := call_builtin k stack s builtin_fn
      let failed := if effect.ret = -1 then display_error (lit "ERROR: Builtin failed: ") (cstr mem token) else []
      (effect.events ++ failed, some { s with input_buf := mem, world := effect.world })
    | none => (display_error (lit "ERROR: Unknown command: ") cmd, some s)

/-- What `main` does behind `get_input`, which has returned `ret`. -/
def main_body (k : Kernel W) (stack : Residue) (ret : Int) (s : Shell W) : List Event × Option (Shell W) :=
  let tokenized := tokenize_input s.input_buf s.token_arr
  let s := { s with input_buf := tokenized.mem, token_arr := tokenized.tokens }
  if ret = 0 then (display_message (lit "\n"), none)
  else if ret = -1 then ([], some s)
  else if tokenized.token_count = 0 then ([], some s)
  else
    match s.token_arr with
    | some token :: _ => command k stack s token
    | _ => ([], some s)

/-- The outcome of what `main` has done: it is defined when nothing has left its array. -/
def outcome (events : List Event) (after : Option (Shell W)) : Outcome (Shell W) :=
  if ∀ e ∈ events, e.InBounds then
    match after with
    | some s => .next s
    | none => .exit
  else .undefined

def prompt : List Byte := lit "mysh$ "

/-- `input_buf` once `get_input` has read at most `MAX_STR_LEN` bytes. -/
def fill (input_buf line : List Byte) : List Byte := line ++ 0 :: input_buf.drop (line.length + 1)

/-- A round of the main loop on a line of at most `MAX_STR_LEN` bytes. -/
def step (k : Kernel W) (stack : Residue) (line : List Byte) (s : Shell W) : Round (Shell W) :=
  let (events, after) := main_body k stack line.length { s with input_buf := fill s.input_buf line }
  ⟨display_message prompt ++ events, outcome events after⟩

/-- The state in which `main` enters the loop. -/
def start (stack : Residue) (w : W) : Shell W where
  input_buf := stack.1 ++ [0]
  token_arr := List.replicate MAX_STR_LEN none
  vars := []
  world := w

/-- The states in which the loop reads a line, when every line has at most `MAX_STR_LEN` bytes. -/
inductive Reachable (k : Kernel W) : Shell W → Prop
  | start (stack : Residue) (w : W) : Reachable k (start stack w)
  | step {s s' : Shell W} {stack : Residue} {line : List Byte} : Reachable k s → line.length ≤ MAX_STR_LEN →
      (step k stack line s).outcome = .next s' → Reachable k s'

theorem outcome_eq_next_iff {events : List Event} {after : Option (Shell W)} {s : Shell W} :
    outcome events after = .next s ↔ (∀ e ∈ events, e.InBounds) ∧ after = some s := by
  unfold outcome
  by_cases inBounds : ∀ e ∈ events, e.InBounds
  · rw [if_pos inBounds, and_iff_right inBounds]
    cases after <;> simp
  · rw [if_neg inBounds]
    simp [inBounds]

theorem outcome_next {events : List Event} (inBounds : ∀ e ∈ events, e.InBounds) (s : Shell W) :
    outcome events (some s) = .next s := outcome_eq_next_iff.mpr ⟨inBounds, rfl⟩

theorem step_eq_next_iff {k : Kernel W} {stack : Residue} {line : List Byte} {s s' : Shell W} :
    (step k stack line s).outcome = .next s' ↔
      (∀ e ∈ (main_body k stack line.length { s with input_buf := fill s.input_buf line }).1, e.InBounds) ∧
        (main_body k stack line.length { s with input_buf := fill s.input_buf line }).2 = some s' :=
  outcome_eq_next_iff

/-! ### The arrays of `main` -/

/-- The arrays have the sizes they are declared with. -/
def Shell.Sized (s : Shell W) : Prop := s.input_buf.length = MAX_STR_LEN + 1 ∧ s.token_arr.length = MAX_STR_LEN

private theorem sized_command {k : Kernel W} {stack : Residue} {s s' : Shell W} {token : Nat} (sized : s.Sized)
    (next : (command k stack s token).2 = some s') : s'.Sized := by
  unfold command at next
  dsimp only at next
  split_ifs at next
  · simp only [Option.some.injEq] at next
    subst next
    unfold assignment
    dsimp only
    split <;> simpa [Shell.Sized] using sized
  · split at next
    · next builtin_fn _ =>
      simp only [Option.some.injEq] at next
      subst next
      refine ⟨?_, sized.2⟩
      cases builtin_fn <;> simp only [call_builtin, length_bn_echo] <;> exact sized.1
    · simp only [Option.some.injEq] at next
      exact next ▸ sized

theorem sized_main_body {k : Kernel W} {stack : Residue} {ret : Int} {s s' : Shell W} (sized : s.Sized)
    (next : (main_body k stack ret s).2 = some s') : s'.Sized := by
  obtain ⟨mem, tokens⟩ := length_tokenize_input s.input_buf s.token_arr
  have tokenized : ({ s with
      input_buf := (tokenize_input s.input_buf s.token_arr).mem
      token_arr := (tokenize_input s.input_buf s.token_arr).tokens } : Shell W).Sized :=
    ⟨mem.trans sized.1, tokens.trans sized.2⟩
  unfold main_body at next
  dsimp only at next
  split_ifs at next
  · simp only [Option.some.injEq] at next
    exact next ▸ tokenized
  · simp only [Option.some.injEq] at next
    exact next ▸ tokenized
  · split at next
    · exact sized_command tokenized next
    · simp only [Option.some.injEq] at next
      exact next ▸ tokenized

theorem length_fill {input_buf line : List Byte} (size : input_buf.length = MAX_STR_LEN + 1)
    (short : line.length ≤ MAX_STR_LEN) : (fill input_buf line).length = MAX_STR_LEN + 1 := by
  simp only [fill, List.length_append, List.length_cons, List.length_drop]
  omega

theorem sized_step {k : Kernel W} {stack : Residue} {line : List Byte} {s s' : Shell W} (sized : s.Sized)
    (short : line.length ≤ MAX_STR_LEN) (next : (step k stack line s).outcome = .next s') : s'.Sized := by
  obtain ⟨-, body⟩ := step_eq_next_iff.mp next
  exact sized_main_body (s := { s with input_buf := fill s.input_buf line })
    ⟨length_fill sized.1 short, sized.2⟩ body

theorem reachable_sized {k : Kernel W} {s : Shell W} (reached : Reachable k s) : s.Sized := by
  induction reached with
  | start stack w => exact ⟨by simp [start, stack.2], by simp [start]⟩
  | step _ short next ih => exact sized_step ih short next

end BashInC.Mysh
