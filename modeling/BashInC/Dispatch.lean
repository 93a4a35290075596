import BashInC.Commands

/-!
The dispatch of commands in the shell of milestone 4, as the actions of the
process: the table of builtins, in which the names "cd" and "ls" are one, and
`external`, which ends the shell behind the child. `dispatched_iff` says which
commands come to their function all the same.
-/
namespace BashInC.Dispatch
open Clib.Strings BashInC.IoHelpers BashInC.Mysh BashInC.Commands

inductive Builtin
  | bn_echo | word_count | cat | cd | bn_ls
  deriving DecidableEq

/-- `"cd" "ls"` without a comma is one literal. -/
def BUILTINS : List (List Byte) := [lit "echo", lit "wc", lit "cat", lit "cd" ++ lit "ls"]

def BUILTINS_FN : List (Option Builtin) := [some .bn_echo, some .word_count, some .cat, some .cd, some .bn_ls, none]

def check_builtin (cmd : List Byte) : Option Builtin := lookup_builtin BUILTINS BUILTINS_FN cmd

/-- What a process does. -/
inductive Action
  | exit (status : Int)
  | def_var (token : List Byte)
  | builtin_fn (fn : Builtin)
  | display_error (pre_str str : List Byte)
  | fork
  | perror (str : List Byte)
  | execvp (tokens : List (List Byte))
  | waitpid
  | free (token : List Byte)
  deriving DecidableEq

/-- The actions up to the next line, and whether the process comes to it. -/
structure Course where
  actions : List Action
  returns : Bool
  deriving DecidableEq

/-- `external(tokens, token_count)`, when `fork` returns `pid`. In the child `execvp` comes back only when it
    cannot run the command. -/
def external (pid : Int) (tokens : List (List Byte)) : Course :=
  if tokens.length = 0 then ⟨[], true⟩
  else if pid = -1 then ⟨[.fork, .perror (lit "fork failed")], true⟩
  else if pid = 0 then ⟨[.fork, .execvp tokens, .exit 1], false⟩
  else ⟨[.fork, .waitpid, .exit 0], false⟩

/-- What `main` does with the tokens of a line, when each builtin returns `ret` of it. -/
def command (pid : Int) (ret : Builtin → Int) : List (List Byte) → Course
  | [] => ⟨[], true⟩
  | cmd :: args =>
    if cmd.take 4 = lit "exit" ∧ cmd.getD 4 0 = 0 then ⟨[.exit 0], false⟩
    else if chr '=' ∈ cmd then ⟨[.def_var cmd], true⟩
    else
      let course : Course := match check_builtin cmd with
        | some fn =>
          ⟨.builtin_fn fn :: if ret fn = -1 then [.display_error (lit "ERROR: Builtin failed: ") cmd] else [], true⟩
        | none => external pid (cmd :: args)
      if course.returns then ⟨course.actions ++ (cmd :: args).map .free, true⟩ else course

/-- The builtin among the actions of a course. -/
def Action.builtin : Action → Option Builtin
  | .builtin_fn fn => some fn
  | _ => none

/-- The functions that implement the commands. -/
def implementing (cmd : List Byte) : Option Builtin :=
  if cmd = lit "echo" then some .bn_echo
  else if cmd = lit "wc" then some .word_count
  else if cmd = lit "cat" then some .cat
  else if cmd = lit "cd" then some .cd
  else if cmd = lit "ls" then some .bn_ls
  else none

/-- A command that a function implements is a call of that function and of no other one; every other command
    is no builtin, and the shell comes back from it to the next line. -/
def Dispatched (cmd : List Byte) : Prop :=
  match implementing cmd with
  | some fn => ∀ pid ret args, (command pid ret (cmd :: args)).actions.filterMap Action.builtin = [fn]
  | none => check_builtin cmd = none ∧ ∀ pid ret args, 0 < pid → (command pid ret (cmd :: args)).returns = true

/-- A name that is not in the table is found where the table has the function of `ls`. -/
theorem check_builtin_eq (cmd : List Byte) : check_builtin cmd =
    if cmd = lit "echo" then some .bn_echo
    else if cmd = lit "wc" then some .word_count
    else if cmd = lit "cat" then some .cat
    else if cmd = lit "cdls" then some .cd
    else some .bn_ls := by
  unfold check_builtin BUILTINS BUILTINS_FN
  rw [lookup_builtin_cons (by decide), lookup_builtin_cons (by decide), lookup_builtin_cons (by decide),
    lookup_builtin_cons (by decide), lookup_builtin_nil]
  rfl

/-- A command of the table is a call of the function found for it. -/
private theorem command_builtin {cmd : List Byte} (notExit : ¬ (cmd.take 4 = lit "exit" ∧ cmd.getD 4 0 = 0))
    (noSign : chr '=' ∉ cmd) {fn : Builtin} (found : check_builtin cmd = some fn) (pid : Int) (ret : Builtin → Int)
    (args : List (List Byte)) : (command pid ret (cmd :: args)).actions.filterMap Action.builtin = [fn] := by
  have frees : ((cmd :: args).map Action.free).filterMap Action.builtin = [] := by
    rw [List.filterMap_map, List.filterMap_eq_nil_iff]
    intro token _
    rfl
  simp only [command, if_neg notExit, if_neg noSign, found, ↓reduceIte, List.filterMap_append, frees, List.append_nil]
  split <;> rfl

/-- Exactly four commands are dispatched to the function that implements them, and none to `external`. -/
theorem dispatched_iff {cmd : CStr} (notExit : cmd.1 ≠ lit "exit") (noSign : chr '=' ∉ cmd.1) :
    Dispatched cmd.1 ↔ cmd.1 ∈ [lit "echo", lit "wc", lit "cat", lit "ls"] := by
  have runs : ¬ (cmd.1.take 4 = lit "exit" ∧ cmd.1.getD 4 0 = 0) := by rwa [exit_iff cmd.2]
  constructor
  · intro dispatched
    unfold Dispatched implementing at dispatched
    split_ifs at dispatched with echo wc cat cd ls
    · simp [echo]
    · simp [wc]
    · simp [cat]
    · -- `cd` is found behind the table, where `ls` is
      have found : check_builtin cmd.1 = some .bn_ls := by
        rw [check_builtin_eq, cd]
        decide
      have called := dispatched 1 (fun _ => 0) []
      rw [command_builtin runs noSign found] at called
      exact absurd called (by decide)
    · simp [ls]
    · obtain ⟨missing, -⟩ := dispatched
      rw [check_builtin_eq] at missing
      split_ifs at missing
  · intro known
    simp only [List.mem_cons, List.not_mem_nil, or_false] at known
    unfold Dispatched
    rcases known with same | same | same | same
    all_goals
      rw [same] at runs noSign ⊢
      intro pid ret args
      apply command_builtin runs noSign
      decide

theorem dispatched_wc : Dispatched (lit "wc") ↔ lit "wc" ∈ [lit "echo", lit "wc", lit "cat", lit "ls"] :=
  @dispatched_iff ⟨lit "wc", by decide⟩ (by decide) (by decide)

theorem cd_lists : ¬ ∀ cmd : CStr, cmd.1.length ≤ MAX_STR_LEN → cmd.1 ≠ lit "exit" → chr '=' ∉ cmd.1 → Dispatched cmd.1 := by
  intro dispatched
  have cd := dispatched ⟨lit "cd", by decide⟩ (by decide) (by decide) (by decide)
  have called : (command 1 (fun _ => 0) [lit "cd"]).actions.filterMap Action.builtin = [.cd] := cd 1 (fun _ => 0) []
  exact absurd called (by decide)

end BashInC.Dispatch
