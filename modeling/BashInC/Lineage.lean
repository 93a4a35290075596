import BashInC.Milestones
import BashInC.Refinement
import BashInC.Traversal

/-!
The shells of the first two milestones, which have the main loop of milestone 3 around
other commands. Milestone 3 writes what milestone 2 writes just on those inputs of
which no line that is reached begins with one of its new commands
(`milestone2_kept`), and what milestone 1 writes, byte for byte, when there are no
assignments and no references either (`milestone1_kept`).
-/
namespace BashInC.Lineage
open Clib.Fields Clib.Strings Clib.Streams Clib.Runs BashInC.IoHelpers BashInC.Expansion BashInC.Variables
open BashInC.Echo BashInC.System BashInC.Mysh BashInC.Commands BashInC.Sessions BashInC.Input BashInC.Descriptors
open BashInC.Refinement BashInC.Files BashInC.Traversal
open BashInC.Listing hiding shown
variable {W : Type*}

/-! ### The main loop -/

/-- What `main` does with the first token of a line. -/
abbrev Command (W : Type*) := Residue → Shell W → Nat → List Event × Option (Shell W)

/-- What `main` does behind `get_input`, around any command. -/
def main_body (command : Command W) (stack : Residue) (ret : Int) (s : Shell W) : List Event × Option (Shell W) :=
  let tokenized := tokenize_input s.input_buf s.token_arr
  let s := { s with input_buf := tokenized.mem, token_arr := tokenized.tokens }
  if ret = 0 then (display_message (lit "\n"), none)
  else if ret = -1 then ([], some s)
  else if tokenized.token_count = 0 then ([], some s)
  else
    match s.token_arr with
    | some token :: _ => command stack s token
    | _ => ([], some s)

/-- The body of `while (1)` in `main`. -/
def main_round (command : Command W) (bufsiz : Nat) (stack : Residue) (m : Main W) : Round (Main W) :=
  let input := get_input bufsiz m.stdin m.shell.input_buf
  let (events, after) := main_body command stack input.ret { m.shell with input_buf := input.in_ptr }
  let events := input.events ++ events
  ⟨display_message prompt ++ events, map (Main.mk · input.stdin) (outcome events after)⟩

theorem main_round_milestone3 (k : Kernel W) (bufsiz : Nat) (stack : Residue) (m : Main W) :
    main_round (Mysh.command k) bufsiz stack m = Input.main_round k bufsiz stack m := rfl

/-! ### The commands -/

inductive Builtin
  | bn_echo
  deriving DecidableEq

def BUILTINS : List (List Byte) := [lit "echo"]

def BUILTINS_FN : List (Option Builtin) := [some .bn_echo, none]

def check_builtin (cmd : List Byte) : Option Builtin := lookup_builtin BUILTINS BUILTINS_FN cmd

theorem check_builtin_eq (cmd : List Byte) : check_builtin cmd = if cmd = lit "echo" then some .bn_echo else none := by
  unfold check_builtin BUILTINS BUILTINS_FN
  rw [lookup_builtin_cons (by decide), lookup_builtin_nil]

/-- Milestone 1 has no variables; its `echo` returns 0. -/
def Milestone1.command : Command W := fun _ s token =>
  let cmd := cstr s.input_buf token
  if cmd.take 4 = lit "exit" ∧ cmd.getD 4 0 = 0 then ([], none)
  else
    match check_builtin cmd with
    | some .bn_echo => (Milestones.Milestone1.bn_echo s.input_buf s.token_arr, some s)
    | none => (display_error (lit "ERROR: Unknown command: ") cmd, some s)

/-- Milestone 2 has the `def_var` and the `echo` of milestone 3, which returns 0. -/
def Milestone2.command : Command W := fun stack s token =>
  let cmd := cstr s.input_buf token
  if cmd.take 4 = lit "exit" ∧ cmd.getD 4 0 = 0 then ([], none)
  else if chr '=' ∈ cmd then
    let (events, s) := assignment s token
    (events, some s)
  else
    match check_builtin cmd with
    | some .bn_echo =>
      let call := bn_echo s.vars stack s.input_buf s.token_arr
      (echoEvents call, some { s with input_buf := call.mem })
    | none => (display_error (lit "ERROR: Unknown command: ") cmd, some s)

/-! ### Rounds -/

/-- The input behind one `read`. -/
def behind (stdin : Stdin) : Stdin := { stdin with deliveries := (read (MAX_STR_LEN + 1) stdin.deliveries).2 }

private theorem main_body_idle {ret : Int} {s : Shell W}
    (idle : ret = 0 ∨ ret = -1 ∨ (tokenize_input s.input_buf s.token_arr).token_count = 0) (command command' : Command W)
    (stack : Residue) : main_body command stack ret s = main_body command' stack ret s := by
  unfold main_body
  rcases idle with eof | error | blank
  · simp [eof]
  · simp [error]
  · simp [blank]

section
variable {bufsiz : Nat} {stack : Residue} {m : Main W} (sized : m.shell.Sized)
include sized

/-- The tokens of a line that has been read. -/
private theorem filled_words {bytes : List Byte} (short : bytes.length ≤ MAX_STR_LEN) :
    let s := { m.shell with input_buf := fill m.shell.input_buf bytes }
    (tokenized s).Sized ∧ (tokenize_input s.input_buf s.token_arr).token_count = (words (CStr.of bytes)).length ∧
      ∀ cmd args, words (CStr.of bytes) = cmd :: args →
        ∃ region post first ptrs, Tokens (tokenized s) region post first ptrs s.token_arr cmd args := by
  intro s
  obtain ⟨post, filled, bound⟩ := fill_text m.shell.input_buf bytes
  obtain ⟨count, found⟩ := @tokenized_words _ s _ _ filled (CStr.of bytes).2 (bound.trans short) sized.2
  obtain ⟨mem, tokens⟩ := length_tokenize_input s.input_buf s.token_arr
  refine ⟨⟨mem.trans (length_fill sized.1 short), tokens.trans sized.2⟩, count, fun cmd args isWords => ?_⟩
  obtain ⟨region, first, ptrs, laid⟩ := found cmd args isWords
  exact ⟨region, post, first, ptrs, laid⟩

/-- Without words the command does not matter. -/
private theorem main_round_idle (idle : commandWords m.stdin = []) (command command' : Command W) :
    main_round command bufsiz stack m = main_round command' bufsiz stack m := by
  have body : main_body command stack (get_input bufsiz m.stdin m.shell.input_buf).ret
        { m.shell with input_buf := (get_input bufsiz m.stdin m.shell.input_buf).in_ptr } =
      main_body command' stack (get_input bufsiz m.stdin m.shell.input_buf).ret
        { m.shell with input_buf := (get_input bufsiz m.stdin m.shell.input_buf).in_ptr } := by
    apply main_body_idle
    rcases commandWords_cases m.stdin with ⟨bytes, later, got, short, isWords⟩ | ⟨refused, -⟩
    · obtain ⟨-, count, -⟩ := filled_words sized short
      rw [get_input_command sized got short]
      rw [← isWords, idle] at count
      exact .inr (.inr count)
    · rcases got : read (MAX_STR_LEN + 1) m.stdin.deliveries with ⟨bytes, later⟩
      cases bytes with
      | none => simp [get_input, got]
      | some bytes =>
        have long : bytes.length > MAX_STR_LEN := refused bytes (by rw [got])
        simp [get_input, got, long]
  simp only [main_round, body]

/-- With words it is run on their tokens. -/
private theorem main_round_runs {cmd : List Byte} {args : List (List Byte)} (isWords : commandWords m.stdin = cmd :: args) :
    ∃ (s : Shell W) (region post : List Byte) (first : Nat) (ptrs : List Nat) (tokens : List (Option Nat)),
      Tokens s region post first ptrs tokens cmd args ∧ s.Sized ∧ ∀ command : Command W, main_round command bufsiz stack m =
        ⟨display_message prompt ++ (command stack s first).1,
          map (Main.mk · (behind m.stdin)) (outcome (command stack s first).1 (command stack s first).2)⟩ := by
  rcases commandWords_cases m.stdin with ⟨bytes, later, got, short, same⟩ | ⟨-, none⟩
  · rw [same] at isWords
    obtain ⟨size, count, found⟩ := filled_words sized short
    obtain ⟨region, post, first, ptrs, tokens⟩ := found cmd args isWords
    refine ⟨_, region, post, first, ptrs, _, tokens, size, fun command => ?_⟩
    have input : bytes ≠ [] := by
      rintro rfl
      cases isWords
    have positive := List.length_pos_of_ne_nil input
    have notEof : ¬ (bytes.length : Int) = 0 := by omega
    have notError : ¬ (bytes.length : Int) = -1 := by omega
    have slots : (tokenize_input (fill m.shell.input_buf bytes) m.shell.token_arr).tokens =
        tokenArray (first :: ptrs) m.shell.token_arr := tokens.arr
    rw [isWords] at count
    have body : main_body command stack bytes.length { m.shell with input_buf := fill m.shell.input_buf bytes } =
        command stack (tokenized { m.shell with input_buf := fill m.shell.input_buf bytes }) first := by
      unfold main_body
      simp only [notEof, notError, count, List.length_cons, Nat.add_one_ne_zero, ↓reduceIte, slots, tokenArray, List.map_cons,
        List.cons_append]
      rw [tokenized, slots, tokenArray]
      rfl
    simp only [main_round, get_input_command sized got short, body, List.nil_append, behind, got]
  · rw [none] at isWords
    cases isWords

end

/-! ### Runs -/

/-- What a shell with these commands shows. -/
def shell (command : Command W) (bufsiz : Nat) : Machine Residue (Main W) Shown :=
  fun stack m => some (shown (main_round command bufsiz stack m))

theorem shell_milestone3 (k : Kernel W) (bufsiz : Nat) : shell (Mysh.command k) bufsiz = process k bufsiz := rfl

/-- A machine whose steps are left open on lines other than these. -/
def within {ι σ ε : Type*} (lines : List (List Byte) → Prop) [DecidablePred lines] (stdin : σ → Stdin) (M : Machine ι σ ε) :
    Machine ι σ ε :=
  fun i s => if lines (commandWords (stdin s)) then M i s else none

/-- The commands that milestone 3 has added. -/
def added : List (List Byte) := [lit "wc", lit "cat", lit "cd", lit "pwd", lit "ls"]

/-- A line that does not begin with a new command. -/
def Shared (ws : List (List Byte)) : Prop := ∀ cmd ∈ ws.head?, cmd ∉ added

instance (ws : List (List Byte)) : Decidable (Shared ws) :=
  decidable_of_iff (ws.head?.all fun cmd => !added.contains cmd) (by cases h : ws.head? <;> simp [Shared, h])

/-- What a shell shows as long as its rounds are not left open. -/
private theorem trace_within {ι σ ε : Type*} {lines : List (List Byte) → Prop} [DecidablePred lines] {stdin : σ → Stdin}
    {M : Machine ι σ ε} {s : σ} {is : List ι} {es : List ε} (ran : trace (within lines stdin M) s is = some es) :
    trace M s is = some es := by
  have refines : Refines M (within lines stdin M) id Eq := by
    constructor
    rintro i s _ e t' rfl stepped
    obtain ⟨-, stepped⟩ := Option.ite_none_right_eq_some.mp stepped
    refine ⟨t', stepped, ?_⟩
    cases t' with
    | none => exact .none
    | some t' => exact .some rfl
  exact refines.trace rfl (by rwa [List.map_id])

/-- Shells with lines to come. -/
def waiting (lines : List (List Byte)) : Main Unit := ⟨start zeros (), pending lines⟩

private theorem waiting_sized (lines : List (List Byte)) : (waiting lines).shell.Sized :=
  reachable_sized (Reachable.start (k := bare) zeros ())

/-! ### Bytes -/

def stderrBytes (events : List Event) : List Byte :=
  events.flatMap fun
    | .stderr bytes => bytes
    | _ => []

@[simp] theorem stderrBytes_append (events more : List Event) :
    stderrBytes (events ++ more) = stderrBytes events ++ stderrBytes more := List.flatMap_append

@[simp] theorem stderrBytes_display_message (str : List Byte) : stderrBytes (display_message str) = [] := rfl

@[simp] theorem stdoutBytes_display_error (pre_str str : List Byte) : stdoutBytes (display_error pre_str str) = [] := rfl

/-- The bytes that a round writes, and what becomes of the shell. -/
structure Written where
  stdout : List Byte
  stderr : List Byte
  outcome : Outcome Unit
  deriving DecidableEq

def Written.of (e : Shown) : Written := ⟨stdoutBytes e.1, stderrBytes e.1, e.2⟩

def inBytes {ι σ : Type*} (M : Machine ι σ Shown) : Machine ι σ Written :=
  fun i s => (M i s).map fun done => (.of done.1, done.2)

private theorem stderrBytes_visible (events : List Event) : stderrBytes (visible events) = stderrBytes events := by
  induction events with
  | nil => rfl
  | cons e events ih =>
    rw [← List.singleton_append, visible_append, stderrBytes_append, stderrBytes_append, ih]
    cases e <;> rfl

private theorem written_shown {σ : Type*} (round : Round σ) : Written.of (shown round).1 =
    ⟨stdoutBytes round.events, stderrBytes round.events, map (fun _ => ()) round.outcome⟩ := by
  simp only [Written.of, shown, stdoutBytes_visible, stderrBytes_visible]

private theorem inBytes_shell (command : Command W) (bufsiz : Nat) (stack : Residue) (m : Main W) :
    inBytes (shell command bufsiz) stack m = some (⟨stdoutBytes (main_round command bufsiz stack m).events,
      stderrBytes (main_round command bufsiz stack m).events, map (fun _ => ()) (main_round command bufsiz stack m).outcome⟩,
      state (main_round command bufsiz stack m).outcome) := by
  simp only [inBytes, shell, Option.map_some, written_shown]
  rfl

/-! ### Milestone 2 -/

/-- The table of milestone 3 has the same functions for the other commands. -/
private theorem command_shared (k : Kernel W) (stack : Residue) {s : Shell W} {region post : List Byte} {first : Nat}
    {ptrs : List Nat} {tokens : List (Option Nat)} {cmd : List Byte} {args : List (List Byte)}
    (t : Tokens s region post first ptrs tokens cmd args) (old : cmd ∉ added) :
    Milestone2.command stack s first = Mysh.command k stack s first := by
  simp only [added, List.mem_cons, List.not_mem_nil, or_false, not_or] at old
  obtain ⟨notWc, notCat, notCd, notPwd, notLs⟩ := old
  have known : Mysh.check_builtin cmd = if cmd = lit "echo" then some .bn_echo else none := by
    rw [Mysh.check_builtin_eq, if_neg notWc, if_neg notCat, if_neg notCd, if_neg notPwd, if_neg notLs]
  unfold Milestone2.command Mysh.command
  simp only [t.texts.1, known, check_builtin_eq]
  by_cases echo : cmd = lit "echo"
  · simp [echo, call_builtin]
  · simp [echo]

/-- A round on a line that does not begin with a new command is the same in both. -/
private theorem main_round_shared (k : Kernel W) (bufsiz : Nat) (stack : Residue) {m : Main W} (sized : m.shell.Sized)
    (shared : Shared (commandWords m.stdin)) :
    main_round Milestone2.command bufsiz stack m = main_round (Mysh.command k) bufsiz stack m := by
  cases isWords : commandWords m.stdin with
  | nil => exact main_round_idle sized isWords _ _
  | cons cmd args =>
    obtain ⟨s, region, post, first, ptrs, tokens, laid, -, ran⟩ := @main_round_runs _ bufsiz stack m sized _ _ isWords
    have old : cmd ∉ added := by
      rw [isWords] at shared
      exact shared cmd rfl
    rw [ran, ran, command_shared k stack laid old]

/-- Bytes that do not begin as the report of an unknown command does. -/
private def Foreign (bytes : List Byte) : Prop := bytes = [] ∨ 8 ≤ bytes.length ∧ bytes.take 8 ≠ lit "ERROR: U"

private theorem Foreign.append {bytes more : List Byte} (foreign : Foreign bytes) (behind : Foreign more) :
    Foreign (bytes ++ more) := by
  rcases foreign with rfl | ⟨long, other⟩
  · exact behind
  · refine .inr ⟨?_, ?_⟩
    · rw [List.length_append]
      omega
    · rwa [List.take_append_of_le_length long]

/-- A report begins with its first text. -/
private theorem stderrBytes_display_error (pre_str str : List Byte) : stderrBytes (display_error pre_str str) =
    strnlenBytes pre_str MAX_STR_LEN ++ (strnlenBytes str MAX_STR_LEN ++ lit "\n") := by
  simp [display_error, stderrBytes]

private theorem foreign_error {pre_str : List Byte} (long : 8 ≤ (strnlenBytes pre_str MAX_STR_LEN).length)
    (other : (strnlenBytes pre_str MAX_STR_LEN).take 8 ≠ lit "ERROR: U") (str : List Byte) :
    Foreign (stderrBytes (display_error pre_str str)) := by
  refine .inr ⟨?_, ?_⟩
  · rw [stderrBytes_display_error, List.length_append]
    omega
  · rwa [stderrBytes_display_error, List.take_append_of_le_length long]

private theorem stderrBytes_quiet {events : List Event} (quiet : ∀ e ∈ events, ∀ bytes, e ≠ .stderr bytes) :
    stderrBytes events = [] := by
  refine List.flatMap_eq_nil_iff.mpr fun e member => ?_
  cases e with
  | stderr bytes => exact absurd rfl (quiet _ member bytes)
  | _ => rfl

private theorem foreign_listing (k : Kernel W) (w : W) (path : List Byte) (depth : Int) (filter : List Byte) :
    Foreign (stderrBytes (list_directory k w path depth filter).events) := by
  rw [list_directory_walk, Walk.effect]
  generalize (walk k w path depth).visits = visits
  induction visits with
  | nil => exact .inl rfl
  | cons visit visits ih =>
    rw [List.flatMap_cons, stderrBytes_append]
    refine .append ?_ ih
    cases visit with
    | entry d_name =>
      refine .inl (stderrBytes_quiet fun e member bytes => ?_)
      obtain ⟨printed, rfl⟩ := mem_printName member
      simp
    | opendir path opened =>
      cases opened with
      | true => exact .inl rfl
      | false => exact @foreign_error (lit "Invalid path") (by decide) (by decide) (lit "one")
    | closedir => exact .inl rfl

private theorem foreign_bn_ls (k : Kernel W) (w : W) (mem : List Byte) (tokens : List (Option Nat)) :
    Foreign (stderrBytes (bn_ls k w mem tokens).events) := by
  obtain ⟨events, all, ran⟩ := bn_ls_request k w mem tokens
  have quiet : stderrBytes events = [] := by
    refine stderrBytes_quiet fun e member bytes same => ?_
    have kind := all e member
    simp [same, own] at kind
  have messages : ∀ message, request mem tokens = .error message → message ∈ [lit "Invalid depth value",
      lit "Invalid use of --d: --rec flag not provided", lit "Too many arguments: ls takes a single path"] := by
    intro message failed
    unfold request ls_depth at failed
    grind
  rw [ran]
  cases asked : request mem tokens with
  | ok listing => simpa [quiet] using foreign_listing k w listing.1 listing.2.1 listing.2.2
  | error message =>
    have known := messages message asked
    simp only [List.mem_cons, List.not_mem_nil, or_false] at known
    simp only [stderrBytes_append, quiet, List.nil_append]
    rcases known with rfl | rfl | rfl <;> exact foreign_error (by decide) (by decide) (lit "-1")

private theorem foreign_with_file (k : Kernel W) (w : W) (name : List Byte) (arg : Option (List Byte))
    {use : List Byte → List Event} (quiet : ∀ content, ∀ e ∈ use content, ∀ bytes, e ≠ .stderr bytes) :
    Foreign (stderrBytes (with_file k w name arg use).events) := by
  unfold with_file
  split
  · exact foreign_error (by decide) (by decide) name
  · split
    · exact @foreign_error (lit "ERROR: Cannot open file") (by decide) (by decide) name
    · next content _ _ => exact .inl (show stderrBytes (use content) = [] from stderrBytes_quiet (quiet content))

/-- What a builtin other than `echo` reports is not that its name is unknown. -/
private theorem foreign_call_builtin (k : Kernel W) (stack : Residue) (s : Shell W) {builtin_fn : Mysh.Builtin}
    (other : builtin_fn ≠ .bn_echo) : Foreign (stderrBytes (call_builtin k stack s builtin_fn).1.events) := by
  cases builtin_fn with
  | bn_echo => exact absurd rfl other
  | word_count =>
    apply foreign_with_file
    simp [display_message]
  | cat =>
    apply foreign_with_file
    intro content e member bytes same
    rcases List.mem_append.mp member with loop | newline
    · obtain ⟨read, rfl⟩ := mem_cat_loop loop
      cases same
    · simp [display_message, same] at newline
  | cd =>
    simp only [call_builtin, Files.cd]
    split
    · exact foreign_error (by decide) (by decide) _
    · split
      · exact foreign_error (by decide) (by decide) _
      · exact .inl rfl
  | pwd =>
    simp only [call_builtin, Files.pwd]
    split
    · exact .inl rfl
    · exact foreign_error (by decide) (by decide) _
  | bn_ls => exact foreign_bn_ls k s.world s.input_buf s.token_arr

/-- On a new command milestone 2 reports an error that milestone 3 does not. -/
private theorem command_added (k : Kernel W) (stack : Residue) {s : Shell W} {region post : List Byte} {first : Nat}
    {ptrs : List Nat} {tokens : List (Option Nat)} {cmd : List Byte} {args : List (List Byte)}
    (t : Tokens s region post first ptrs tokens cmd args) (new : cmd ∈ added) :
    stderrBytes (Milestone2.command stack s first).1 ≠ stderrBytes (Mysh.command k stack s first).1 := by
  have unlike : ∀ builtin_fn, Mysh.check_builtin cmd = some builtin_fn → builtin_fn ≠ .bn_echo := by
    simp only [added, List.mem_cons, List.not_mem_nil, or_false] at new
    rcases new with rfl | rfl | rfl | rfl | rfl <;> decide
  obtain ⟨builtin_fn, known⟩ : ∃ builtin_fn, Mysh.check_builtin cmd = some builtin_fn := by
    simp only [added, List.mem_cons, List.not_mem_nil, or_false] at new
    rcases new with rfl | rfl | rfl | rfl | rfl <;> exact ⟨_, rfl⟩
  have stays : ¬ (cmd.take 4 = lit "exit" ∧ cmd.getD 4 0 = 0) ∧ chr '=' ∉ cmd ∧ check_builtin cmd = none := by
    simp only [added, List.mem_cons, List.not_mem_nil, or_false] at new
    rcases new with rfl | rfl | rfl | rfl | rfl <;> decide
  obtain ⟨runs, noSign, unknown⟩ := stays
  have foreign : Foreign (stderrBytes (Mysh.command k stack s first).1) := by
    simp only [Mysh.command, t.texts.1, runs, noSign, known, ↓reduceIte, stderrBytes_append]
    refine .append (foreign_call_builtin k stack s (unlike builtin_fn known)) ?_
    split
    · exact foreign_error (by decide) (by decide) _
    · exact .inl rfl
  intro same
  rw [← same] at foreign
  simp only [Milestone2.command, t.texts.1, runs, noSign, unknown, ↓reduceIte, stderrBytes_display_error] at foreign
  rcases foreign with none | ⟨-, other⟩
  · exact absurd none (by simp [lit])
  · exact other (by rw [List.take_append_of_le_length (by decide)]; decide)

/-- A run begins with what its first step shows. -/
private theorem trace_cons {ι σ ε : Type*} {M : Machine ι σ ε} (total : ∀ i s, (M i s).isSome) {i : ι} {s : σ} {e : ε}
    {next : Option σ} (taken : M i s = some (e, next)) (is : List ι) : ∃ rest, trace M s (i :: is) = some (e :: rest) := by
  rw [trace, taken]
  cases next with
  | none => exact ⟨[], rfl⟩
  | some s' =>
    obtain ⟨rest, ran⟩ := Option.isSome_iff_exists.mp (trace_isSome total s' is)
    exact ⟨rest, by simp [ran]⟩

private theorem trace_inBytes {ι σ : Type*} (M : Machine ι σ Shown) (s : σ) (is : List ι) :
    trace (inBytes M) s is = (trace M s is).map (List.map Written.of) := by
  induction is generalizing s with
  | nil => rfl
  | cons i is ih =>
    rw [trace, trace, inBytes]
    rcases M i s with _ | ⟨e, _ | s'⟩
    · rfl
    · rfl
    · simp only [Option.map_some, ih, Option.map_map]
      rfl

private theorem shell_total (command : Command W) (bufsiz : Nat) (stack : Residue) (m : Main W) :
    (inBytes (shell command bufsiz) stack m).isSome := by
  rw [inBytes_shell]
  rfl

section
variable (k : Kernel W) (bufsiz : Nat) {m : Main W} (sized : m.shell.Sized) {residues : List Residue}
include sized

private theorem shown_kept (shared : (trace (within Shared Main.stdin (shell Milestone2.command bufsiz)) m residues).isSome) :
    trace (shell (Mysh.command k) bufsiz) m residues = trace (shell Milestone2.command bufsiz) m residues := by
  obtain ⟨es, ran⟩ := Option.isSome_iff_exists.mp shared
  have refines : Refines (shell (Mysh.command k) bufsiz) (within Shared Main.stdin (shell Milestone2.command bufsiz)) id
      (fun m m' => m.shell.Sized ∧ m = m') := by
    constructor
    rintro stack m _ e m' ⟨sized, rfl⟩ stepped
    obtain ⟨here, stepped⟩ := Option.ite_none_right_eq_some.mp stepped
    rw [shell, id_eq, main_round_shared k bufsiz stack sized here] at stepped
    refine ⟨m', stepped, ?_⟩
    cases m' with
    | none => exact .none
    | some m' =>
      refine .some ⟨?_, rfl⟩
      simp only [shown, state, Option.some.injEq, Prod.mk.injEq] at stepped
      obtain ⟨-, next⟩ := stepped
      split at next
      · next m'' outcome =>
        cases next
        exact sized_main_round sized outcome
      · cases next
  rw [trace_within ran, refines.trace ⟨sized, rfl⟩ (by rwa [List.map_id])]

/-- The bytes differ in the round on the first line that begins with a new command. -/
private theorem shared_of_bytes (same : trace (inBytes (shell (Mysh.command k) bufsiz)) m residues =
      trace (inBytes (shell Milestone2.command bufsiz)) m residues) :
    (trace (within Shared Main.stdin (shell Milestone2.command bufsiz)) m residues).isSome := by
  induction residues generalizing m with
  | nil => rfl
  | cons stack residues ih =>
    by_cases shared : Shared (commandWords m.stdin)
    · have round := main_round_shared k bufsiz stack sized shared
      rw [trace, trace, inBytes_shell, inBytes_shell, ← round] at same
      rw [trace, within, if_pos shared, shell]
      simp only [shown] at same ⊢
      cases next : (main_round Milestone2.command bufsiz stack m).outcome with
      | next m' =>
        simp only [next, state] at same ⊢
        rw [Option.isSome_map]
        apply ih
        · rw [round] at next
          exact sized_main_round sized next
        · exact Option.map_injective (List.cons_injective) same
      | exit => rfl
      | undefined => rfl
    · exfalso
      cases isWords : commandWords m.stdin with
      | nil => exact shared (by simp [isWords, Shared])
      | cons cmd args =>
        have new : cmd ∈ added := by
          rw [isWords] at shared
          simpa [Shared] using shared
        obtain ⟨s, region, post, first, ptrs, tokens, laid, -, ran⟩ := @main_round_runs _ bufsiz stack m sized _ _ isWords
        obtain ⟨rest, begins⟩ := trace_cons (shell_total (Mysh.command k) bufsiz) (inBytes_shell _ bufsiz stack m) residues
        obtain ⟨rest', begins'⟩ := trace_cons (shell_total Milestone2.command bufsiz) (inBytes_shell _ bufsiz stack m) residues
        rw [begins, begins', Option.some.injEq, List.cons.injEq, Written.mk.injEq, ran, ran] at same
        have errors := same.1.2.1
        rw [stderrBytes_append, stderrBytes_append, List.append_cancel_left_eq] at errors
        exact command_added k stack laid new errors.symm

end

/-- Milestone 3 shows, and writes byte for byte, what milestone 2 does exactly as long as no line that it comes to
    begins with a new command. -/
theorem milestone2_kept (k : Kernel W) (bufsiz : Nat) {m : Main W} (sized : m.shell.Sized) (residues : List Residue) :
    (trace (shell (Mysh.command k) bufsiz) m residues = trace (shell Milestone2.command bufsiz) m residues ↔
        (trace (within Shared Main.stdin (shell Milestone2.command bufsiz)) m residues).isSome) ∧
      (trace (inBytes (shell (Mysh.command k) bufsiz)) m residues = trace (inBytes (shell Milestone2.command bufsiz)) m residues ↔
        (trace (within Shared Main.stdin (shell Milestone2.command bufsiz)) m residues).isSome) := by
  have inBytes_of_shown : trace (shell (Mysh.command k) bufsiz) m residues = trace (shell Milestone2.command bufsiz) m residues →
      trace (inBytes (shell (Mysh.command k) bufsiz)) m residues =
        trace (inBytes (shell Milestone2.command bufsiz)) m residues := by
    intro same
    rw [trace_inBytes, trace_inBytes, same]
  refine ⟨⟨fun same => shared_of_bytes k bufsiz sized (inBytes_of_shown same), shown_kept k bufsiz sized⟩,
    shared_of_bytes k bufsiz sized, fun shared => inBytes_of_shown (shown_kept k bufsiz sized shared)⟩

theorem milestone2_kept_assigned :
    trace (shell (Mysh.command bare) 1024) (waiting [lit "x=a\n", lit "echo $x$x\n", lit "w\n"]) (List.replicate 4 zeros) =
      trace (shell Milestone2.command 1024) (waiting [lit "x=a\n", lit "echo $x$x\n", lit "w\n"]) (List.replicate 4 zeros) :=
  (milestone2_kept bare 1024 (waiting_sized _) _).1.mpr (by decide +kernel)

/-! ### Milestone 1 -/

/-- A shell that only echoes, on its input. -/
def echoing (bufsiz : Nat) : Machine Unit Stdin Written := fun _ stdin =>
  match read (MAX_STR_LEN + 1) stdin.deliveries with
  | (none, later) => some (⟨prompt, [], .next ()⟩, some { stdin with deliveries := later })
  | (some bytes, later) =>
    let later := { stdin with deliveries := later }
    if bytes.length > MAX_STR_LEN then
      some (⟨prompt, tooLong, .next ()⟩, some (skipThrough (chr '\n') bufsiz (later.size + 1) later))
    else if bytes = [] then some (⟨prompt ++ lit "\n", [], .exit⟩, none)
    else
      match words (CStr.of bytes) with
      | [] => some (⟨prompt, [], .next ()⟩, some later)
      | cmd :: args =>
        if cmd = lit "exit" then some (⟨prompt, [], .exit⟩, none)
        else if cmd = lit "echo" then
          some (⟨prompt ++ ([chr ' '].intercalate args ++ lit "\n"), [], .next ()⟩, some later)
        else some (⟨prompt, lit "ERROR: Unknown command: " ++ cmd ++ lit "\n", .next ()⟩, some later)

section
variable {bufsiz : Nat} {stdin : Stdin}

/-- Without words a round of any session shows what the echoing shell shows. -/
private theorem spec_round_idle (k : Kernel W) (v : View W) (idle : commandWords stdin = []) :
    ∃ round next, spec_round k bufsiz ⟨v, stdin⟩ = some round ∧ (state round.outcome).map Session.stdin = next ∧
      echoing bufsiz () stdin = some (.of (shown round).1, next) := by
  have prompted : stdoutBytes (display_message prompt) = prompt := by decide
  have newline : stdoutBytes (display_message (lit "\n")) = lit "\n" := by decide
  have refusal : stdoutBytes [.stderr tooLong] = [] ∧ stderrBytes [.stderr tooLong] = tooLong := ⟨rfl, by decide⟩
  rcases commandWords_cases stdin with ⟨bytes, later, got, short, isWords⟩ | ⟨refused, -⟩
  · rw [isWords] at idle
    have fits : ¬ bytes.length > MAX_STR_LEN := by omega
    simp only [spec_round, echoing, got, if_neg fits]
    by_cases ended : bytes = []
    · rw [if_pos ended, if_pos ended]
      refine ⟨_, none, rfl, rfl, ?_⟩
      simp [written_shown, map, prompted, newline]
    · rw [if_neg ended, if_neg ended, idle]
      refine ⟨_, some { stdin with deliveries := later }, rfl, rfl, ?_⟩
      simp [written_shown, map, prompted]
  · rcases got : read (MAX_STR_LEN + 1) stdin.deliveries with ⟨bytes, later⟩
    simp only [spec_round, echoing, got]
    cases bytes with
    | none =>
      refine ⟨_, some { stdin with deliveries := later }, rfl, rfl, ?_⟩
      simp [written_shown, map, prompted]
    | some bytes =>
      have long : bytes.length > MAX_STR_LEN := refused bytes (by rw [got])
      dsimp only
      rw [if_pos long, if_pos long]
      refine ⟨_, some _, rfl, rfl, ?_⟩
      simp [written_shown, map, prompted, refusal]

variable {cmd : List Byte} {args : List (List Byte)} (isWords : commandWords stdin = cmd :: args)
include isWords

/-- The line is as long as its words. -/
private theorem words_short : ([chr ' '].intercalate args).length ≤ 127 ∧
    ∀ w ∈ cmd :: args, w.length ≤ MAX_STR_LEN ∧ 0 ∉ w := by
  rcases commandWords_cases stdin with ⟨bytes, later, -, short, same⟩ | ⟨-, none⟩
  · rw [same] at isWords
    have inLine : (CStr.of bytes).1.length ≤ bytes.length := (List.takeWhile_sublist _).length_le
    have all := Milestones.length_args_le isWords
    unfold MAX_STR_LEN at short
    refine ⟨by omega, fun w member => ?_⟩
    have part : w.Sublist (CStr.of bytes).1 := fields_sublist (show w ∈ words (CStr.of bytes) by rw [isWords]; exact member)
    have length := part.length_le
    exact ⟨by unfold MAX_STR_LEN; omega, fun nul => (CStr.of bytes).2 (part.subset nul)⟩
  · rw [none] at isWords
    cases isWords

private theorem spec_round_runs (k : Kernel W) (v : View W) : spec_round k bufsiz ⟨v, stdin⟩ =
    (line_round k v (cmd :: args)).map fun round =>
      ⟨display_message prompt ++ round.events, map (Session.mk · (behind stdin)) round.outcome⟩ := by
  rcases commandWords_cases stdin with ⟨bytes, later, got, short, same⟩ | ⟨-, none⟩
  · have fits : ¬ bytes.length > MAX_STR_LEN := by omega
    rw [same] at isWords
    have input : bytes ≠ [] := by
      rintro rfl
      cases isWords
    simp only [spec_round, behind, got, if_neg fits, if_neg input, isWords]
  · rw [none] at isWords
    cases isWords

private theorem echoing_runs : echoing bufsiz () stdin =
    if cmd = lit "exit" then some (⟨prompt, [], .exit⟩, none)
    else if cmd = lit "echo" then
      some (⟨prompt ++ ([chr ' '].intercalate args ++ lit "\n"), [], .next ()⟩, some (behind stdin))
    else some (⟨prompt, lit "ERROR: Unknown command: " ++ cmd ++ lit "\n", .next ()⟩, some (behind stdin)) := by
  rcases commandWords_cases stdin with ⟨bytes, later, got, short, same⟩ | ⟨-, none⟩
  · have fits : ¬ bytes.length > MAX_STR_LEN := by omega
    rw [same] at isWords
    have input : bytes ≠ [] := by
      rintro rfl
      cases isWords
    simp only [echoing, behind, got, if_neg fits, if_neg input, isWords]
  · rw [none] at isWords
    cases isWords

private theorem unknown_bytes : stderrBytes (display_error (lit "ERROR: Unknown command: ") cmd) =
    lit "ERROR: Unknown command: " ++ cmd ++ lit "\n" := by
  obtain ⟨short, noNul⟩ := (words_short isWords).2 cmd (by simp)
  have front : strnlenBytes (lit "ERROR: Unknown command: ") MAX_STR_LEN = lit "ERROR: Unknown command: " := by decide
  simp [display_error, stderrBytes, front, strnlenBytes_short noNul short]

end

/-- A shell that has come to this input. -/
def AtInput (m : Main W) (stdin : Stdin) : Prop := m.shell.Sized ∧ m.stdin = stdin

private theorem echoing_total (bufsiz : Nat) (u : Unit) (stdin : Stdin) : (echoing bufsiz u stdin).isSome := by
  cases isWords : commandWords stdin with
  | nil =>
    obtain ⟨round, next, -, -, ran⟩ := @spec_round_idle _ bufsiz stdin bare ⟨[], ()⟩ isWords
    simp [ran]
  | cons cmd args =>
    rw [echoing_runs isWords]
    split_ifs <;> rfl

/-- A round of milestone 3 writes what its session does, and leaves the shell at the input of that. -/
private theorem process_step {k : Kernel W} {bufsiz : Nat} (stack : Residue) {m : Main W} (sized : m.shell.Sized)
    {round : Round (Session W)} (spec : spec_round k bufsiz (session m) = some round) :
    ∃ m', inBytes (process k bufsiz) stack m = some (.of (shown round).1, m') ∧
      Option.Rel AtInput m' ((state round.outcome).map Session.stdin) := by
  obtain ⟨shows, leads⟩ := main_round_spec stack sized spec
  refine ⟨_, congrArg (fun e => some (Written.of e, _)) shows, ?_⟩
  rw [← leads, Option.map_map]
  dsimp only [shown]
  cases outcome : (Input.main_round k bufsiz stack m).outcome with
  | next m' => exact .some ⟨sized_main_round sized outcome, rfl⟩
  | exit => exact .none
  | undefined => exact .none

/-- Without words a shell of any milestone is at the input behind. -/
private theorem idle_refines {bufsiz : Nat} (k : Kernel W) (stack : Residue) {m : Main W} (sized : m.shell.Sized)
    (idle : commandWords m.stdin = []) {e : Written} {next : Option Stdin} (ran : echoing bufsiz () m.stdin = some (e, next)) :
    ∃ m', inBytes (process k bufsiz) stack m = some (e, m') ∧ Option.Rel AtInput m' next := by
  obtain ⟨round, next', spec, went, same⟩ := @spec_round_idle _ bufsiz m.stdin k (view m.shell) idle
  rw [ran] at same
  obtain ⟨rfl, rfl⟩ := Prod.mk.inj (Option.some.inj same)
  rw [← went]
  exact process_step stack sized spec

/-- What is written to stdout alone. -/
private theorem stdout_only {events : List Event} (only : ∀ e ∈ events, ∃ bytes, e = .stdout bytes) :
    stderrBytes events = [] ∧ ∀ e ∈ events, e.InBounds := by
  constructor
  · refine stderrBytes_quiet fun e member bytes same => ?_
    obtain ⟨printed, rfl⟩ := only e member
    cases same
  · intro e member
    obtain ⟨bytes, rfl⟩ := only e member
    trivial

private theorem mem_echo_loop {mem : List Byte} {tokens : List (Option Nat)} {first : Bool} {e : Event}
    (member : e ∈ Milestones.Milestone1.echo_loop mem first tokens) : ∃ bytes, e = .stdout bytes := by
  induction tokens generalizing first with
  | nil => cases member
  | cons token tokens ih =>
    cases token with
    | none => cases member
    | some token =>
      rw [Milestones.Milestone1.echo_loop, List.mem_append, List.mem_append] at member
      rcases member with (space | word) | later
      · cases first with
        | true => cases space
        | false => exact ⟨_, List.mem_singleton.mp space⟩
      · exact ⟨_, List.mem_singleton.mp word⟩
      · exact ih later

/-- The `echo` of milestone 1 writes the words with single spaces between them. -/
private theorem milestone1_echo {s : Shell W} {region post : List Byte} {first : Nat} {ptrs : List Nat}
    {tokens : List (Option Nat)} {cmd : List Byte} {args : List (List Byte)}
    (t : Tokens s region post first ptrs tokens cmd args) (short : ∀ w ∈ args, w.length ≤ MAX_STR_LEN) :
    stdoutBytes (Milestones.Milestone1.bn_echo s.input_buf s.token_arr) = [chr ' '].intercalate args ++ lit "\n" ∧
      stderrBytes (Milestones.Milestone1.bn_echo s.input_buf s.token_arr) = [] ∧
      ∀ e ∈ Milestones.Milestone1.bn_echo s.input_buf s.token_arr, e.InBounds := by
  have only : ∀ e ∈ Milestones.Milestone1.bn_echo s.input_buf s.token_arr, ∃ bytes, e = .stdout bytes := by
    intro e member
    rcases List.mem_append.mp member with loop | newline
    · exact mem_echo_loop loop
    · exact ⟨_, List.mem_singleton.mp newline⟩
  refine ⟨?_, stdout_only only⟩
  have texts : List.Forall₂ (fun ptr w => cstr s.input_buf ptr = w) ptrs args := by
    rw [← t.texts.2, List.forall₂_map_right_iff]
    exact List.forall₂_same.mpr fun _ _ => rfl
  have newline : stdoutBytes (display_message (lit "\n")) = lit "\n" := by decide
  have looped := Milestones.echo_loop_prints texts short (tokens.drop ((first :: ptrs).length + 1)) true
  rw [Milestones.Milestone1.bn_echo, t.arr, tokenArray, stdoutBytes_append, newline]
  simp only [List.map_cons, List.cons_append, List.drop_succ_cons, List.drop_zero]
  simp only [List.length_cons] at looped ⊢
  rw [looped]
  simp

private theorem milestone1_refines (bufsiz : Nat) :
    Refines (inBytes (shell (W := Unit) Milestone1.command bufsiz)) (echoing bufsiz) (fun _ => ()) AtInput := by
  constructor
  rintro stack m _ e next ⟨sized, rfl⟩ ran
  cases isWords : commandWords m.stdin with
  | nil =>
    have same := @main_round_idle _ bufsiz stack m sized isWords Milestone1.command (Mysh.command bare)
    have idle := idle_refines bare stack sized isWords ran
    simp only [inBytes, shell, same]
    exact idle
  | cons cmd args =>
    obtain ⟨s, region, post, first, ptrs, tokens, t, size, round⟩ := @main_round_runs _ bufsiz stack m sized _ _ isWords
    obtain ⟨short, each⟩ := words_short isWords
    obtain ⟨cmdShort, noNul⟩ := each cmd (by simp)
    rw [echoing_runs isWords] at ran
    have prompted : stdoutBytes (display_message prompt) = prompt := by decide
    rw [inBytes_shell, round]
    simp only [Milestone1.command, t.texts.1, exit_iff noNul, check_builtin_eq]
    by_cases leaves : cmd = lit "exit"
    · rw [if_pos leaves] at ran
      cases ran
      exact ⟨none, by simp [leaves, outcome, map, state, prompted], .none⟩
    · rw [if_neg leaves] at ran ⊢
      by_cases echo : cmd = lit "echo"
      · rw [if_pos echo] at ran
        cases ran
        obtain ⟨written, quiet, inBounds⟩ := milestone1_echo t (fun w member => (each w (by simp [member])).1)
        refine ⟨some ⟨s, behind m.stdin⟩, ?_, .some ⟨size, rfl⟩⟩
        simp only [echo, ↓reduceIte, outcome_next inBounds, map, state, stdoutBytes_append, stderrBytes_append, written,
          quiet, prompted]
        rfl
      · rw [if_neg echo] at ran
        cases ran
        have inBounds : ∀ e ∈ display_error (lit "ERROR: Unknown command: ") cmd, e.InBounds := by
          simp [display_error, Event.InBounds]
        refine ⟨some ⟨s, behind m.stdin⟩, ?_, .some ⟨size, rfl⟩⟩
        simp only [echo, ↓reduceIte, outcome_next inBounds, map, state, stdoutBytes_append, stderrBytes_append, prompted,
          unknown_bytes isWords, stdoutBytes_display_error, List.append_nil]
        rfl

/-- Whatever comes in, and in whatever pieces, milestone 1 is a shell that only echoes. -/
theorem milestone1_echoes (bufsiz : Nat) {m : Main Unit} (sized : m.shell.Sized) (residues : List Residue) :
    trace (inBytes (shell Milestone1.command bufsiz)) m residues =
      trace (echoing bufsiz) m.stdin (residues.map fun _ => ()) := by
  obtain ⟨es, ran⟩ := Option.isSome_iff_exists.mp (trace_isSome (echoing_total bufsiz) m.stdin (residues.map fun _ => ()))
  rw [ran]
  exact (milestone1_refines bufsiz).trace ⟨sized, rfl⟩ ran

theorem milestone1_echoes_words : trace (inBytes (shell Milestone1.command 1024))
      (waiting [lit " echo a  $b\n", lit "x=a\n", lit "exit\n"]) [zeros, zeros, zeros] =
    some [⟨lit "mysh$ a $b\n", [], .next ()⟩, ⟨prompt, lit "ERROR: Unknown command: x=a\n", .next ()⟩, ⟨prompt, [], .exit⟩] :=
  (milestone1_echoes 1024 (waiting_sized _) [zeros, zeros, zeros]).trans (by decide +kernel)

/-- A line without an assignment, a reference or a new command. -/
def Plain : List (List Byte) → Prop
  | [] => True
  | cmd :: args => cmd ∉ added ∧ chr '=' ∉ cmd ∧ (cmd = lit "echo" → ∀ w ∈ args, chr '$' ∉ w)

instance : ∀ ws, Decidable (Plain ws)
  | [] => inferInstanceAs (Decidable True)
  | _ :: _ => inferInstanceAs (Decidable (_ ∧ _ ∧ (_ → _)))

private theorem milestone3_refines (k : Kernel W) (bufsiz : Nat) : Refines (inBytes (process k bufsiz))
    (within Plain id (echoing bufsiz)) (fun _ => ()) AtInput := by
  constructor
  rintro stack m _ e next ⟨sized, rfl⟩ stepped
  obtain ⟨plain, ran⟩ := Option.ite_none_right_eq_some.mp stepped
  cases isWords : commandWords m.stdin with
  | nil => exact idle_refines k stack sized isWords ran
  | cons cmd args =>
    obtain ⟨short, each⟩ := words_short isWords
    have spec := @spec_round_runs _ bufsiz m.stdin _ _ isWords k (view m.shell)
    have prompted : stdoutBytes (display_message prompt) = prompt := by decide
    have newline : stdoutBytes (display_message (lit "\n")) = lit "\n" := by decide
    rw [id_eq, isWords] at plain
    obtain ⟨old, noSign, noDollar⟩ := plain
    simp only [added, List.mem_cons, List.not_mem_nil, or_false, not_or] at old
    obtain ⟨notWc, notCat, notCd, notPwd, notLs⟩ := old
    have known : Mysh.check_builtin cmd = if cmd = lit "echo" then some .bn_echo else none := by
      rw [Mysh.check_builtin_eq, if_neg notWc, if_neg notCat, if_neg notCd, if_neg notPwd, if_neg notLs]
    rw [echoing_runs isWords] at ran
    simp only [line_round, command_words, noSign, known, ↓reduceIte] at spec
    by_cases leaves : cmd = lit "exit"
    · rw [if_pos leaves] at ran spec
      cases ran
      have step := process_step stack sized spec
      simpa [written_shown, state, map, prompted] using step
    · rw [if_neg leaves] at ran spec
      by_cases echo : cmd = lit "echo"
      · rw [if_pos echo] at ran
        cases ran
        have joined' := Milestones.joined_plain (get_var m.shell.vars) (noDollar echo)
        have fits : (committed (get_var m.shell.vars) args).length ≤ 127 := by
          have := length_committed_le (get_var m.shell.vars) args
          rw [joined'] at this
          omega
        have written : stdoutBytes (.stdout ([chr ' '].intercalate args) :: display_message (lit "\n")) =
            [chr ' '].intercalate args ++ lit "\n" := congrArg _ newline
        have quiet : stderrBytes (.stdout ([chr ' '].intercalate args) :: display_message (lit "\n")) = [] := rfl
        simp only [echo, ↓reduceIte, builtin_words, view, fits, joined', List.take_of_length_le short] at spec
        have step := process_step stack sized spec
        simpa [written_shown, state, map, prompted, written, quiet] using step
      · rw [if_neg echo] at ran
        cases ran
        rw [if_neg echo] at spec
        have step := process_step stack sized spec
        simpa [written_shown, state, map, prompted, unknown_bytes isWords] using step

/-- Without assignments, references and new commands milestone 3 writes, byte for byte, what milestone 1 writes,
    whatever its variables are bound to. -/
theorem milestone1_kept (k : Kernel W) (bufsiz : Nat) {m : Main W} {m' : Main Unit} (sized : m.shell.Sized)
    (sized' : m'.shell.Sized) (same : m.stdin = m'.stdin) {residues residues' : List Residue}
    (asMany : residues.length = residues'.length)
    (plain : (trace (within Plain id (echoing bufsiz)) m.stdin (residues.map fun _ => ())).isSome) :
    trace (inBytes (shell (Mysh.command k) bufsiz)) m residues =
      trace (inBytes (shell Milestone1.command bufsiz)) m' residues' := by
  obtain ⟨es, ran⟩ := Option.isSome_iff_exists.mp plain
  have units : (residues.map fun _ => ()) = residues'.map fun _ => () := by
    rw [List.map_const', List.map_const', asMany]
  have echoed := trace_within ran
  rw [shell_milestone3, (milestone3_refines k bufsiz).trace ⟨sized, rfl⟩ ran]
  rw [units, same] at echoed
  exact ((milestone1_refines bufsiz).trace ⟨sized', rfl⟩ echoed).symm

theorem milestone1_kept_words :
    trace (inBytes (shell (Mysh.command bare) 1024)) (waiting [lit "echo a  b\n", lit "w x=a\n"]) [zeros, zeros, zeros] =
      trace (inBytes (shell Milestone1.command 1024)) (waiting [lit "echo a  b\n", lit "w x=a\n"]) [zeros, zeros, zeros] :=
  milestone1_kept bare 1024 (waiting_sized _) (waiting_sized _) rfl rfl (by decide +kernel)

end BashInC.Lineage
