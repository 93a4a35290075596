import BashInC.Counting
import BashInC.Input

/-!
The streams and directories that the shell holds open. Every level of a recursive
listing closes its directory again (`list_directory_open`), while `wc` and `cat`
keep the stream they have opened, so what a round leaves open is the file that
its command has opened as a stream (`main_round_open`): a session keeps its set of
open files exactly as long as no such command finds one (`session_open_iff`).
-/
namespace BashInC.Descriptors
open Clib.Strings Clib.Streams BashInC.IoHelpers BashInC.Echo BashInC.System BashInC.Listing BashInC.Files
open BashInC.Counting BashInC.Mysh BashInC.Commands BashInC.Sessions BashInC.Input
variable {W : Type*}

/-- The paths of the open streams and of the open directories, each the newest first. -/
structure OpenFiles where
  streams : List (List Byte)
  directories : List (List Byte)
  deriving DecidableEq

/-- A call of `list_directory` closes its own directory behind the calls that it makes, so what `closedir`
    closes is the newest one. -/
def OpenFiles.after (o : OpenFiles) : Event → OpenFiles
  | .fopen path true => { o with streams := path :: o.streams }
  | .opendir path true => { o with directories := path :: o.directories }
  | .closedir => { o with directories := o.directories.tail }
  | _ => o

/-- What is open after these events. -/
def OpenFiles.run (o : OpenFiles) (events : List Event) : OpenFiles := events.foldl OpenFiles.after o

theorem run_cons (o : OpenFiles) (e : Event) (events : List Event) : o.run (e :: events) = (o.after e).run events := rfl

theorem run_append (o : OpenFiles) (events more : List Event) : o.run (events ++ more) = (o.run events).run more :=
  List.foldl_append

/-- An event that opens and closes nothing. -/
def still : Event → Bool
  | .fopen _ true | .opendir _ true | .closedir => false
  | _ => true

theorem run_still {events : List Event} (all : ∀ e ∈ events, still e = true) (o : OpenFiles) : o.run events = o := by
  induction events with
  | nil => rfl
  | cons e events ih =>
    rw [List.forall_mem_cons] at all
    have same : o.after e = o := by
      cases e with
      | fopen path opened | opendir path opened =>
        cases opened with
        | false => rfl
        | true => simp [still] at all
      | closedir => simp [still] at all
      | _ => rfl
    rw [run_cons, same]
    exact ih all.2

private theorem still_display_message (str : List Byte) : ∀ e ∈ display_message str, still e = true := by
  simp [display_message, still]

private theorem still_display_error (pre_str str : List Byte) : ∀ e ∈ display_error pre_str str, still e = true := by
  simp [display_error, still]

private theorem still_stores (array : Local) (ranges : List Clib.Buffers.Range) :
    ∀ e ∈ ranges.map (Event.store array), still e = true := by
  rw [List.forall_mem_map]
  intro range member
  rfl

/-! ### Builtins -/

private theorem list_body_open {k : Kernel W} {recurse : W → List Byte → Effect W}
    (closes : ∀ w path o, OpenFiles.run o (recurse w path).events = o) (depth : Int) (w : W) (path filter : List Byte)
    (o : OpenFiles) : o.run (list_body k recurse depth w path filter).events = o := by
  have printed : ∀ d_name, ∀ e ∈ printName filter d_name, still e = true := by
    intro d_name e member
    obtain ⟨bytes, rfl⟩ := mem_printName member
    rfl
  have entry : ∀ (w : W) (d_name : List Byte) (o : OpenFiles),
      o.run (list_entry k recurse depth path filter w d_name).1 = o := by
    intro w d_name o
    by_cases flat : depth = -1 ∨ d_name = lit "." ∨ d_name = lit ".."
    · rw [list_entry_flat k recurse path filter w flat, run_still (printed d_name)]
    · rw [not_or] at flat
      rw [list_entry_deep k recurse path filter w flat.1 flat.2]
      dsimp only
      split
      · rw [run_append, run_still (printed d_name), closes]
      · exact run_still (printed d_name) o
  have entries : ∀ (names : List CStr) (w : W) (o : OpenFiles),
      o.run (list_entries k recurse depth path filter w names).1 = o := by
    intro names
    induction names with
    | nil =>
      intro w o
      rfl
    | cons d_name names ih =>
      intro w o
      simp only [list_entries]
      rw [run_append, entry, ih]
  unfold list_body
  split
  · rfl
  · split
    · next w' _ =>
      apply run_still
      rw [List.forall_mem_cons]
      exact ⟨rfl, still_display_error _ _⟩
    · next names w' _ =>
      have inside := entries names w' (o.after (.opendir path true))
      dsimp only
      rw [run_append, run_cons o (.opendir path true), inside]
      rfl

/-- A listing closes every directory that it opens. -/
theorem list_directory_open (k : Kernel W) (w : W) (path : List Byte) (depth : Int) (filter : List Byte) (o : OpenFiles) :
    o.run (list_directory k w path depth filter).events = o := by
  unfold list_directory
  generalize depth.toNat = levels
  induction levels generalizing depth w path o with
  | zero => exact list_body_open (fun _ _ _ => rfl) depth w path filter o
  | succ levels ih => exact list_body_open (fun w path o => ih w path (depth - 1) o) depth w path filter o

private theorem still_own {e : Event} (kind : own e = true) : still e = true := by
  unfold own at kind
  split at kind <;> first | rfl | cases kind

private theorem bn_ls_open (k : Kernel W) (w : W) (mem : List Byte) (tokens : List (Option Nat)) (o : OpenFiles) :
    o.run (bn_ls k w mem tokens).events = o := by
  obtain ⟨events, all, cases⟩ := bn_ls_cases k w mem tokens
  have quiet : ∀ e ∈ events, still e = true := fun e member => still_own (all e member)
  rcases cases with ⟨message, ran⟩ | ⟨path, depth, filter, ran⟩
  · rw [ran, run_append, run_still quiet, run_still (still_display_error _ _)]
  · rw [ran, run_append, run_still quiet, list_directory_open]

private theorem still_cat_loop (fuel : Nat) (content : List Byte) : ∀ e ∈ cat_loop fuel content, still e = true := by
  intro e member
  obtain ⟨bytes, rfl⟩ := mem_cat_loop member
  rfl

/-- The file that is opened as a stream for this argument. -/
def streamFor (k : Kernel W) (w : W) (arg : Option (List Byte)) : Option (List Byte) :=
  arg.filter fun path => (k.fopen w path).1.isSome

/-- `wc` and `cat` leave the stream open that they have opened. -/
private theorem with_file_open (k : Kernel W) (w : W) (name : List Byte) (arg : Option (List Byte)) {use : List Byte → List Event}
    (quiet : ∀ content, ∀ e ∈ use content, still e = true) (o : OpenFiles) :
    o.run (with_file k w name arg use).events = { o with streams := (streamFor k w arg).toList ++ o.streams } := by
  cases arg with
  | none => exact run_still (still_display_error _ _) o
  | some path =>
    rcases opened : k.fopen w path with ⟨content, w'⟩
    cases content with
    | none =>
      simp only [with_file, opened, streamFor, Option.filter, Option.isSome_none]
      apply run_still
      rw [List.forall_mem_cons]
      exact ⟨rfl, still_display_error _ _⟩
    | some content =>
      simp only [with_file, opened, streamFor, Option.filter, Option.isSome_some]
      rw [run_cons, run_still (quiet content)]
      rfl

/-! ### Rounds -/

/-- The file that the command of a line with these words opens as a stream: that of a `wc` or `cat`. -/
def streamOf (k : Kernel W) (w : W) : List (List Byte) → Option (List Byte)
  | [] => none
  | cmd :: args => if cmd = lit "wc" ∨ cmd = lit "cat" then streamFor k w args.head? else none

private theorem streamOf_other (k : Kernel W) (w : W) {cmd : List Byte} (other : ¬ (cmd = lit "wc" ∨ cmd = lit "cat"))
    (args : List (List Byte)) : streamOf k w (cmd :: args) = none := if_neg other

/-- A builtin leaves open what it has opened as a stream. -/
private theorem call_builtin_open (k : Kernel W) (stack : Residue) {s : Shell W} {region post : List Byte} {first : Nat}
    {ptrs : List Nat} {tokens : List (Option Nat)} {cmd : List Byte} {args : List (List Byte)}
    (t : Tokens s region post first ptrs tokens cmd args) {builtin_fn : Builtin} (known : check_builtin cmd = some builtin_fn)
    (o : OpenFiles) :
    o.run (call_builtin k stack s builtin_fn).1.events =
      { o with streams := (streamOf k s.world (cmd :: args)).toList ++ o.streams } := by
  have newline := still_display_message (lit "\n")
  simp only [call_builtin, t.arg_zero, t.arg_one, Option.getD_some]
  rw [check_builtin_eq] at known
  split_ifs at known with echo wc cat cd pwd ls <;> cases known
  · have call : ∀ e ∈ echoEvents (bn_echo s.vars stack s.input_buf s.token_arr), still e = true := by
      rw [echoEvents, List.forall_mem_append, List.forall_mem_cons, List.forall_mem_cons]
      exact ⟨still_stores _ _, rfl, rfl, newline⟩
    rw [run_still call, echo, streamOf_other k s.world (by decide)]
    rfl
  · rw [streamOf, if_pos (.inl wc)]
    apply with_file_open
    intro content
    rw [List.forall_mem_append]
    exact ⟨still_display_message _, newline⟩
  · rw [streamOf, if_pos (.inr cat)]
    apply with_file_open
    intro content
    rw [List.forall_mem_append]
    exact ⟨still_cat_loop _ _, newline⟩
  · have call : ∀ e ∈ (Files.cd k s.world cmd args.head?).events, still e = true := by
      unfold Files.cd
      split
      · exact still_display_error _ _
      · split
        · exact still_display_error _ _
        · simp
    rw [run_still call, cd, streamOf_other k s.world (by decide)]
    rfl
  · have call : ∀ e ∈ (Files.pwd k s.world stack).events, still e = true := by
      unfold Files.pwd
      split
      · rw [List.forall_mem_append]
        exact ⟨still_display_message _, newline⟩
      · exact still_display_error _ _
    rw [run_still call, pwd, streamOf_other k s.world (by decide)]
    rfl
  · rw [bn_ls_open, ls, streamOf_other k s.world (by decide)]
    rfl

/-- A command leaves open what it has opened as a stream. -/
private theorem command_open (k : Kernel W) (stack : Residue) {s : Shell W} {region post : List Byte} {first : Nat}
    {ptrs : List Nat} {tokens : List (Option Nat)} {cmd : List Byte} {args : List (List Byte)}
    (t : Tokens s region post first ptrs tokens cmd args) (o : OpenFiles) :
    o.run (command k stack s first).1 = { o with streams := (streamOf k s.world (cmd :: args)).toList ++ o.streams } := by
  have noNul : 0 ∉ cmd := laid_noNul t.laid cmd (by simp)
  simp only [command, t.texts.1, exit_iff noNul]
  split_ifs with leaves assigns
  · rw [leaves, streamOf_other k s.world (by decide)]
    rfl
  · obtain ⟨pre, tail, placed, rfl⟩ := t.placed
    obtain ⟨mem, assigned⟩ := assignment_words placed noNul
    have other : ¬ (cmd = lit "wc" ∨ cmd = lit "cat") := by
      rintro (rfl | rfl) <;> exact absurd assigns (by decide)
    have stores : ∀ call, ∀ e ∈ defVarEvents call, still e = true := by
      intro call
      rw [defVarEvents, List.forall_mem_append]
      exact ⟨still_stores _ _, still_stores _ _⟩
    rw [assigned, streamOf_other k s.world other]
    cases assignmentOf cmd with
    | none => rfl
    | some call => exact run_still (stores _) o
  · cases known : check_builtin cmd with
    | none =>
      have other : ¬ (cmd = lit "wc" ∨ cmd = lit "cat") := by
        rintro (rfl | rfl) <;> exact absurd known (by decide)
      rw [streamOf_other k s.world other]
      exact run_still (still_display_error _ _) o
    | some builtin_fn =>
      dsimp only
      rw [run_append, call_builtin_open k stack t known]
      apply run_still
      split
      · exact still_display_error _ _
      · simp

/-- A round leaves open what its command has opened as a stream. -/
theorem step_open (k : Kernel W) (stack : Residue) {s : Shell W} (sized : s.Sized) {line : List Byte}
    (short : line.length ≤ MAX_STR_LEN) (o : OpenFiles) :
    o.run (step k stack line s).events =
      { o with streams := (streamOf k s.world (words (CStr.of line))).toList ++ o.streams } := by
  have shownPrompt := still_display_message prompt
  by_cases input : line = []
  · subst input
    rw [step_eof, run_append, run_still shownPrompt, run_still (still_display_message _)]
    rfl
  · have ran := step_tokens k stack sized short input
    cases isWords : words (CStr.of line) with
    | nil =>
      rw [isWords] at ran
      rw [ran, run_still shownPrompt]
      rfl
    | cons cmd args =>
      rw [isWords] at ran
      obtain ⟨region, post, first, ptrs, tokens, ran⟩ := ran
      rw [ran, run_append, run_still shownPrompt, command_open k stack tokens]
      rfl

/-! ### Sessions -/

/-- The words of the command that a round is about to read; none when `read` fails or finds too much. -/
def commandWords (stdin : Stdin) : List (List Byte) :=
  match (read (MAX_STR_LEN + 1) stdin.deliveries).1 with
  | some bytes => if bytes.length ≤ MAX_STR_LEN then words (CStr.of bytes) else []
  | none => []

/-- A round reads a command, or `get_input` returns -1. -/
theorem commandWords_cases (stdin : Stdin) :
    (∃ bytes later, read (MAX_STR_LEN + 1) stdin.deliveries = (some bytes, later) ∧ bytes.length ≤ MAX_STR_LEN ∧
        commandWords stdin = words (CStr.of bytes)) ∨
      (∀ bytes, (read (MAX_STR_LEN + 1) stdin.deliveries).1 = some bytes → MAX_STR_LEN < bytes.length) ∧
        commandWords stdin = [] := by
  unfold commandWords
  rcases read (MAX_STR_LEN + 1) stdin.deliveries with ⟨bytes, later⟩
  cases bytes with
  | none => exact .inr ⟨by simp, rfl⟩
  | some bytes =>
    by_cases short : bytes.length ≤ MAX_STR_LEN
    · exact .inl ⟨bytes, later, rfl, short, if_pos short⟩
    · refine .inr ⟨?_, if_neg short⟩
      intro bytes' same
      obtain rfl := Option.some.inj same
      exact Nat.lt_of_not_le short

/-- A round of the main loop keeps the sizes of the arrays. -/
theorem sized_main_round {k : Kernel W} {bufsiz : Nat} {stack : Residue} {m m' : Main W} (sized : m.shell.Sized)
    (next : (main_round k bufsiz stack m).outcome = .next m') : m'.shell.Sized := by
  rcases commandWords_cases m.stdin with ⟨bytes, later, got, short, -⟩ | ⟨refused, -⟩
  · rw [main_round_command sized got short] at next
    obtain ⟨s', isNext, rfl⟩ := map_eq_next_iff.mp next
    exact sized_step sized short isNext
  · obtain ⟨more, in_ptr, stdin, -, size, round⟩ := @main_round_refused _ k bufsiz stack m sized refused
    rw [round] at next
    obtain rfl := Outcome.next.inj next
    exact ⟨size, by simpa using sized.2⟩

/-- A round of the main loop leaves open what its command has opened as a stream. -/
theorem main_round_open (k : Kernel W) (bufsiz : Nat) (stack : Residue) {m : Main W} (sized : m.shell.Sized) (o : OpenFiles) :
    o.run (main_round k bufsiz stack m).events =
      { o with streams := (streamOf k m.shell.world (commandWords m.stdin)).toList ++ o.streams } := by
  rcases commandWords_cases m.stdin with ⟨bytes, later, got, short, isWords⟩ | ⟨refused, nothing⟩
  · rw [main_round_command sized got short, isWords]
    exact step_open k stack sized short o
  · obtain ⟨more, in_ptr, stdin, message, size, round⟩ := @main_round_refused _ k bufsiz stack m sized refused
    have quiet : ∀ e ∈ more, still e = true := by
      rcases message with rfl | rfl <;> simp [still]
    rw [round, nothing, run_append, run_still (still_display_message prompt), run_still quiet]
    rfl

/-- What is open at first, and after each of these rounds. -/
def openStates (o : OpenFiles) : List (Round (Main W)) → List OpenFiles
  | [] => [o]
  | round :: rounds => o :: openStates (o.run round.events) rounds

private theorem mem_openStates (o : OpenFiles) (rounds : List (Round (Main W))) : o ∈ openStates o rounds := by
  cases rounds <;> simp [openStates]

/-- No command that the shell comes to is a `wc` or `cat` that finds its file. -/
def NoStreamOpened (k : Kernel W) (bufsiz : Nat) : List Residue → Main W → Prop
  | [], _ => True
  | stack :: residues, m =>
    streamOf k m.shell.world (commandWords m.stdin) = none ∧
      match (main_round k bufsiz stack m).outcome with
      | .next m => NoStreamOpened k bufsiz residues m
      | _ => True

private theorem openStates_iff {k : Kernel W} {bufsiz : Nat} {m : Main W} (sized : m.shell.Sized) (residues : List Residue)
    (o : OpenFiles) :
    (∀ o' ∈ openStates o (main_loop k bufsiz residues m), o' = o) ↔ NoStreamOpened k bufsiz residues m := by
  induction residues generalizing m with
  | nil => simp [openStates, main_loop, NoStreamOpened]
  | cons stack residues ih =>
    rw [main_loop, openStates, List.forall_mem_cons, and_iff_right rfl, NoStreamOpened, main_round_open k bufsiz stack sized o]
    cases stream : streamOf k m.shell.world (commandWords m.stdin) with
    | none =>
      rw [and_iff_right rfl]
      cases next : (main_round k bufsiz stack m).outcome with
      | next m' => exact ih (sized_main_round sized next)
      | exit => simp [openStates]
      | undefined => simp [openStates]
    | some path =>
      -- the stream is open behind this round
      simp only [reduceCtorEq, false_and, iff_false]
      intro same
      have streams := congrArg OpenFiles.streams (same _ (mem_openStates _ _))
      simp at streams

/-- In a session of any length on any input, whichever calls of the system fail, the same streams and
    directories are open after every line exactly as long as no `wc` or `cat` finds its file. -/
theorem session_open_iff (k : Kernel W) (bufsiz : Nat) (stack : Residue) (w : W) (stdin : Stdin) (residues : List Residue) :
    (∀ o ∈ openStates ⟨[], []⟩ (main_loop k bufsiz residues ⟨start stack w, stdin⟩), o = ⟨[], []⟩) ↔
      NoStreamOpened k bufsiz residues ⟨start stack w, stdin⟩ :=
  openStates_iff (reachable_sized (Reachable.start (k := k) stack w)) residues ⟨[], []⟩

/-- `cat` leaves its stream open. -/
theorem cat_stays_open : ¬ ∀ (stdin : Stdin) (residues : List Residue),
    ∀ o ∈ openStates ⟨[], []⟩ (main_loop (holding (lit "a")) 1024 residues ⟨start zeros (), stdin⟩), o = ⟨[], []⟩ := by
  intro same
  have leaks : ¬ ∀ o ∈ openStates ⟨[], []⟩
      (main_loop (holding (lit "a")) 1024 [zeros] ⟨start zeros (), pending [lit "cat f\n"]⟩), o = ⟨[], []⟩ := by
    decide +kernel
  exact leaks (same _ _)

end BashInC.Descriptors
