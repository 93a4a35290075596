import BashInC.Descriptors
import BashInC.Failures
import BashInC.Traversal
import BashInC.Tree

/-!
The strings that the shell hands to its output helpers, which write no more than
`MAX_STR_LEN` bytes of a string. Each function has the list of what it hands over
beside its events, and it writes exactly what the helpers write for that
(`main_round_outputs`). Every other caller keeps to the limit, so nothing is cut in
a session exactly as long as no `ls` comes to a matching name that is longer
(`session_whole_iff`). `cat` keeps to it as well, but a piece of a file is no string
when it contains a NUL (`cat_whole_iff`).
-/
namespace BashInC.Output
open Clib.Strings Clib.Numbers Clib.Streams Clib.Pieces BashInC.IoHelpers BashInC.Echo BashInC.System BashInC.Listing
open BashInC.Files BashInC.Counting BashInC.Mysh BashInC.Commands BashInC.Sessions BashInC.Failures BashInC.Input
open BashInC.Descriptors BashInC.Traversal BashInC.Tree
variable {W : Type*}

theorem strnlenBytes_eq_iff (str : List Byte) (limit : Nat) :
    strnlenBytes str limit = (CStr.of str).1 ↔ (CStr.of str).1.length ≤ limit := List.take_eq_self_iff ..

private theorem length_of_le {str : List Byte} {limit : Nat} (short : str.length ≤ limit) : (CStr.of str).1.length ≤ limit :=
  (List.takeWhile_sublist _).length_le.trans short

/-! ### `cat` -/

/-- Of each piece of a file `cat` writes the bytes in front of the first NUL. -/
private theorem cat_writes (k : Kernel W) {w w' : W} (name : List Byte) {path content : List Byte}
    (opened : k.fopen w path = (some content, w')) :
    stdoutBytes (cat k w name (some path)).events =
      (pieces (· == chr '\n') 127 content).flatMap (fun chunk => (CStr.of chunk).1) ++ lit "\n" := by
  have newline : stdoutBytes (display_message (lit "\n")) = lit "\n" := by decide
  have piecewise : ∀ chunks : List (List Byte), (∀ chunk ∈ chunks, chunk.length ≤ 127) →
      stdoutBytes (chunks.flatMap display_message) = chunks.flatMap fun chunk => (CStr.of chunk).1 := by
    intro chunks short
    induction chunks with
    | nil => rfl
    | cons chunk chunks ih =>
      rw [List.forall_mem_cons] at short
      have fits : (CStr.of chunk).1.length ≤ MAX_STR_LEN := length_of_le (Nat.le_succ_of_le short.1)
      rw [List.flatMap_cons, stdoutBytes_append, ih short.2, display_message, (strnlenBytes_eq_iff _ _).mpr fits]
      simp [stdoutBytes]
  simp only [cat, with_file, opened, cat_loop_pieces (Nat.lt_succ_self content.length)]
  rw [← List.singleton_append, stdoutBytes_append, stdoutBytes_append, newline,
    piecewise _ fun chunk member => (mem_pieces (by decide) member).2]
  rfl

/-- `cat` writes a file and a newline exactly when no byte of the file is a NUL. -/
theorem cat_whole_iff (k : Kernel W) {w w' : W} (name : List Byte) {path content : List Byte}
    (opened : k.fopen w path = (some content, w')) :
    stdoutBytes (cat k w name (some path)).events = content ++ lit "\n" ↔ 0 ∉ content := by
  have whole := flatten_pieces (p := (· == chr '\n')) (show 0 < 127 by decide) content
  rw [cat_writes k name opened, List.append_left_inj]
  constructor
  · intro same nul
    rw [← same, List.mem_flatMap] at nul
    obtain ⟨chunk, -, nul⟩ := nul
    exact (CStr.of chunk).2 nul
  · intro noNul
    have kept : ∀ chunk ∈ pieces (· == chr '\n') 127 content, (CStr.of chunk).1 = chunk := by
      intro chunk member
      apply takeWhile_noNul
      intro nul
      rw [← whole, List.mem_flatten] at noNul
      exact noNul ⟨chunk, member, nul⟩
    rw [List.flatMap_def, List.map_congr_left kept, List.map_id', whole]

theorem cat_whole_lines :
    stdoutBytes (cat (holding (lit "a\n\nb")) () (lit "cat") (some (lit "f"))).events = lit "a\n\nb" ++ lit "\n" ↔
      0 ∉ lit "a\n\nb" :=
  cat_whole_iff (holding (lit "a\n\nb")) (lit "cat") rfl

/-- What follows a NUL on its line is lost. -/
theorem cat_loses_bytes : ¬ ∀ content : List Byte,
    stdoutBytes (cat (holding content) () (lit "cat") (some (lit "f"))).events = content ++ lit "\n" := by
  intro whole
  have lost : stdoutBytes (cat (holding [chr 'a', 0, chr 'b']) () (lit "cat") (some (lit "f"))).events ≠
      [chr 'a', 0, chr 'b'] ++ lit "\n" := by decide +kernel
  exact lost (whole [chr 'a', 0, chr 'b'])

/-! ### Strings handed over -/

/-- A call of an output helper. -/
inductive Handed
  | display_message (str : List Byte)
  | display_error (pre_str str : List Byte)
  deriving DecidableEq

/-- What the helper writes. -/
def Handed.events : Handed → List Event
  | .display_message str => IoHelpers.display_message str
  | .display_error pre_str str => IoHelpers.display_error pre_str str

def Handed.strings : Handed → List (List Byte)
  | .display_message str => [str]
  | .display_error pre_str str => [pre_str, str]

/-- No string has more than `MAX_STR_LEN` bytes in front of its terminator, and the helper writes all of them. -/
def Handed.Whole (handed : Handed) : Prop :=
  ∀ str ∈ handed.strings, (CStr.of str).1.length ≤ MAX_STR_LEN ∧ strnlenBytes str MAX_STR_LEN = (CStr.of str).1

def with_file_handed (k : Kernel W) (w : W) (name : List Byte) (arg : Option (List Byte)) (use : List Byte → List Handed) :
    List Handed :=
  match arg with
  | none => [.display_error (lit "ERROR: No input source provided") name]
  | some path =>
    match (k.fopen w path).1 with
    | none => [.display_error (lit "ERROR: Cannot open file") name]
    | some content => use content

def word_count_handed (k : Kernel W) (w : W) (name : List Byte) (arg : Option (List Byte)) : List Handed :=
  with_file_handed k w name arg fun content =>
    [.display_message (wc_report (counted content)), .display_message (lit "\n")]

def cat_handed (k : Kernel W) (w : W) (name : List Byte) (arg : Option (List Byte)) : List Handed :=
  with_file_handed k w name arg fun content =>
    (pieces (· == chr '\n') 127 content).map .display_message ++ [.display_message (lit "\n")]

def cd_handed (k : Kernel W) (w : W) (name : List Byte) : Option (List Byte) → List Handed
  | none => [.display_error (lit "ERROR: Invalid path") name]
  | some path => if (k.chdir w path).1 then [] else [.display_error (lit "ERROR: Invalid path") name]

def pwd_handed (k : Kernel W) (w : W) (stack : List Byte) : List Handed :=
  match k.getcwd w 128 with
  | some path => [.display_message path, .display_message (lit "\n")]
  | none => [.display_error (lit "ERROR: Faileed to get current working directory") stack]

/-- What `list_directory` hands over at a visit. -/
def visit_handed (filter : List Byte) : Visit → List Handed
  | .entry d_name => if shown filter d_name then [.display_message d_name, .display_message (lit "\n")] else []
  | .opendir _ false => [.display_error (lit "Invalid path") (lit "one")]
  | .opendir _ true | .closedir => []

def bn_ls_handed (k : Kernel W) (w : W) (mem : List Byte) (tokens : List (Option Nat)) : List Handed :=
  match request mem tokens with
  | .error message => [.display_error message (lit "-1")]
  | .ok (path, depth, filter) => (walk k w path depth).visits.flatMap (visit_handed filter)

/-- What a builtin hands over; `echo` hands over its line as far as `final` holds it. -/
def builtin_handed (k : Kernel W) (stack : Residue) (s : Shell W) : Builtin → List Handed :=
  let name := (arg s.input_buf s.token_arr 0).getD []
  let arg := arg s.input_buf s.token_arr 1
  fun
  | .bn_echo =>
    [.display_message (bn_echo s.vars stack s.input_buf s.token_arr).printed, .display_message (lit "\n")]
  | .word_count => word_count_handed k s.world name arg
  | .cat => cat_handed k s.world name arg
  | .cd => cd_handed k s.world name arg
  | .pwd => pwd_handed k s.world stack
  | .bn_ls => bn_ls_handed k s.world s.input_buf s.token_arr

def command_handed (k : Kernel W) (stack : Residue) (s : Shell W) (token : Nat) : List Handed :=
  let cmd := cstr s.input_buf token
  if cmd.take 4 = lit "exit" ∧ cmd.getD 4 0 = 0 then []
  else if chr '=' ∈ cmd then []
  else
    match check_builtin cmd with
    | some builtin_fn =>
      let (effect, mem) := call_builtin k stack s builtin_fn
      builtin_handed k stack s builtin_fn ++
        if effect.ret = -1 then [.display_error (lit "ERROR: Builtin failed: ") (cstr mem token)] else []
    | none => [.display_error (lit "ERROR: Unknown command: ") cmd]

def main_body_handed (k : Kernel W) (stack : Residue) (ret : Int) (s : Shell W) : List Handed :=
  if ret = 0 then [.display_message (lit "\n")]
  else if ret = -1 then []
  else if (tokenize_input s.input_buf s.token_arr).token_count = 0 then []
  else
    match (tokenized s).token_arr with
    | some token :: _ => command_handed k stack (tokenized s) token
    | _ => []

/-- What `main` hands over behind the prompt in a round. -/
def main_round_handed (k : Kernel W) (bufsiz : Nat) (stack : Residue) (m : Main W) : List Handed :=
  let input := get_input bufsiz m.stdin m.shell.input_buf
  main_body_handed k stack input.ret { m.shell with input_buf := input.in_ptr }

/-- What the shell hands over in the rounds of `main`, as far as it makes them. -/
def main_handed (k : Kernel W) (bufsiz : Nat) : List Residue → Main W → List Handed
  | [], _ => []
  | stack :: residues, m =>
    .display_message prompt :: main_round_handed k bufsiz stack m ++
      match (main_round k bufsiz stack m).outcome with
      | .next m => main_handed k bufsiz residues m
      | _ => []

/-! ### What is written -/

private theorem outputs_display_message (str : List Byte) : outputs (display_message str) = display_message str := rfl

/-- What the helpers write for these calls. -/
def writes (handed : List Handed) : List Event := handed.flatMap Handed.events

private theorem writes_append (handed more : List Handed) : writes (handed ++ more) = writes handed ++ writes more :=
  List.flatMap_append

private theorem writes_cons (handed : Handed) (more : List Handed) : writes (handed :: more) = handed.events ++ writes more :=
  List.flatMap_cons

private theorem outputs_visits (filter : List Byte) (visits : List Visit) :
    outputs (visits.flatMap (Visit.events filter)) = writes (visits.flatMap (visit_handed filter)) := by
  induction visits with
  | nil => rfl
  | cons visit visits ih =>
    rw [List.flatMap_cons, List.flatMap_cons, outputs_append, writes_append, ih]
    cases visit with
    | entry d_name =>
      simp only [Visit.events, visit_handed, printName]
      by_cases seen : shown filter d_name
      · rw [if_pos seen, if_pos seen]
        rfl
      · rw [if_neg seen, if_neg seen]
        rfl
    | opendir path opened => cases opened <;> rfl
    | closedir => rfl

private theorem outputs_quiet {events : List Event} (quiet : ∀ e ∈ events, own e = true) : outputs events = [] := by
  unfold outputs
  rw [List.filter_eq_nil_iff]
  intro e member
  have kind := quiet e member
  cases e <;> simp [own] at kind ⊢

private theorem outputs_stores (array : Local) (ranges : List Clib.Buffers.Range) :
    outputs (ranges.map (Event.store array)) = [] := by
  unfold outputs
  rw [List.filter_eq_nil_iff, List.forall_mem_map]
  simp

private theorem outputs_bn_ls (k : Kernel W) (w : W) (mem : List Byte) (tokens : List (Option Nat)) :
    outputs (bn_ls k w mem tokens).events = writes (bn_ls_handed k w mem tokens) := by
  obtain ⟨events, quiet, ran⟩ := bn_ls_request k w mem tokens
  rw [ran, bn_ls_handed]
  cases request mem tokens with
  | error message =>
    dsimp only
    rw [outputs_append, outputs_quiet quiet]
    rfl
  | ok listing =>
    obtain ⟨path, depth, filter⟩ := listing
    dsimp only
    rw [outputs_append, outputs_quiet quiet, List.nil_append, list_directory_walk]
    exact outputs_visits filter _

private theorem outputs_with_file (k : Kernel W) (w : W) (name : List Byte) (arg : Option (List Byte))
    {use : List Byte → List Event} {handed : List Byte → List Handed}
    (each : ∀ content, outputs (use content) = writes (handed content)) :
    outputs (with_file k w name arg use).events = writes (with_file_handed k w name arg handed) := by
  cases arg with
  | none => rfl
  | some path =>
    unfold with_file with_file_handed
    dsimp only
    rcases k.fopen w path with ⟨content, w'⟩
    cases content with
    | none => rfl
    | some content => exact each content

private theorem outputs_cat (content : List Byte) :
    outputs (cat_loop (content.length + 1) content ++ display_message (lit "\n")) =
      writes ((pieces (· == chr '\n') 127 content).map .display_message ++ [.display_message (lit "\n")]) := by
  rw [cat_loop_pieces (Nat.lt_succ_self _), outputs_append, writes_append]
  congr 1
  induction pieces (· == chr '\n') 127 content with
  | nil => rfl
  | cons chunk chunks ih =>
    rw [List.flatMap_cons, List.map_cons, outputs_append, writes_cons, ih]
    rfl

private theorem outputs_echo (vars : List Variables.Variable) (stack : Residue) (mem : List Byte) (tokens : List (Option Nat)) :
    outputs (echoEvents (bn_echo vars stack mem tokens)) =
      writes [.display_message (bn_echo vars stack mem tokens).printed, .display_message (lit "\n")] := by
  have again : ∀ str : List Byte, strnlenBytes (strnlenBytes str MAX_STR_LEN) MAX_STR_LEN = strnlenBytes str MAX_STR_LEN := by
    intro str
    apply strnlenBytes_short
    · intro nul
      simpa using List.mem_takeWhile_imp (List.mem_of_mem_take nul)
    · exact List.length_take_le ..
  have printed : (Handed.display_message (bn_echo vars stack mem tokens).printed).events =
      [.stdout (bn_echo vars stack mem tokens).printed] := congrArg (fun bytes => [Event.stdout bytes]) (again _)
  rw [echoEvents, outputs_append, outputs_stores, writes_cons, printed]
  rfl

/-- A builtin writes what the helpers write for the strings that it hands over. -/
theorem outputs_call_builtin (k : Kernel W) (stack : Residue) (s : Shell W) (builtin_fn : Builtin) :
    outputs (call_builtin k stack s builtin_fn).1.events = writes (builtin_handed k stack s builtin_fn) := by
  cases builtin_fn with
  | bn_echo => exact outputs_echo s.vars stack s.input_buf s.token_arr
  | word_count => exact outputs_with_file k s.world _ _ fun content => rfl
  | cat => exact outputs_with_file k s.world _ _ outputs_cat
  | cd =>
    simp only [call_builtin, builtin_handed, Files.cd]
    cases arg s.input_buf s.token_arr 1 with
    | none => rfl
    | some path =>
      dsimp only [cd_handed]
      rcases k.chdir s.world path with ⟨changed, w⟩
      cases changed <;> rfl
  | pwd =>
    simp only [call_builtin, builtin_handed, Files.pwd, pwd_handed]
    cases k.getcwd s.world 128 <;> rfl
  | bn_ls => exact outputs_bn_ls k s.world s.input_buf s.token_arr

private theorem outputs_command (k : Kernel W) (stack : Residue) (s : Shell W) (token : Nat) :
    outputs (command k stack s token).1 = writes (command_handed k stack s token) := by
  simp only [command, command_handed]
  split_ifs with leaves assigns
  · rfl
  · unfold assignment
    dsimp only
    split
    · rw [defVarEvents, outputs_append, outputs_stores, outputs_stores]
      rfl
    · rfl
  · cases check_builtin (cstr s.input_buf token) with
    | none => rfl
    | some builtin_fn =>
      dsimp only
      rw [outputs_append, writes_append, outputs_call_builtin]
      split <;> rfl

private theorem outputs_main_body (k : Kernel W) (stack : Residue) (ret : Int) (s : Shell W) :
    outputs (main_body k stack ret s).1 = writes (main_body_handed k stack ret s) := by
  simp only [main_body, main_body_handed]
  split_ifs with eof error count
  · rfl
  · rfl
  · rfl
  · have run := outputs_command k stack (tokenized s)
    unfold tokenized at run ⊢
    dsimp only
    generalize (tokenize_input s.input_buf s.token_arr).tokens = slots at run ⊢
    cases slots with
    | nil => rfl
    | cons slot slots =>
      cases slot with
      | none => rfl
      | some token => exact run token

/-- A round writes the prompt, the message of `get_input`, and what the helpers write for the strings that `main`
    and its command hand over. -/
theorem main_round_outputs (k : Kernel W) (bufsiz : Nat) (stack : Residue) (m : Main W) :
    outputs (main_round k bufsiz stack m).events = display_message prompt ++
      (get_input bufsiz m.stdin m.shell.input_buf).events ++ writes (main_round_handed k bufsiz stack m) := by
  have own_message : outputs (get_input bufsiz m.stdin m.shell.input_buf).events =
      (get_input bufsiz m.stdin m.shell.input_buf).events := by
    unfold get_input
    rcases read (MAX_STR_LEN + 1) m.stdin.deliveries with ⟨bytes, later⟩
    cases bytes with
    | none => rfl
    | some bytes =>
      dsimp only
      split <;> rfl
  simp only [main_round]
  rw [outputs_append, outputs_append, own_message, outputs_main_body, outputs_display_message, List.append_assoc]
  rfl

/-! ### Bounds -/

theorem whole_iff (handed : Handed) : handed.Whole ↔ ∀ str ∈ handed.strings, (CStr.of str).1.length ≤ MAX_STR_LEN := by
  simp only [Handed.Whole, strnlenBytes_eq_iff, and_self]

private theorem whole_message {str : List Byte} (short : str.length ≤ MAX_STR_LEN) : (Handed.display_message str).Whole := by
  rw [whole_iff, Handed.strings, List.forall_mem_singleton]
  exact length_of_le short

private theorem whole_error {pre_str str : List Byte} (short : pre_str.length ≤ MAX_STR_LEN)
    (short' : str.length ≤ MAX_STR_LEN) : (Handed.display_error pre_str str).Whole := by
  rw [whole_iff, Handed.strings, List.forall_mem_cons, List.forall_mem_singleton]
  exact ⟨length_of_le short, length_of_le short'⟩

private theorem whole_newline : (Handed.display_message (lit "\n")).Whole := whole_message (by decide)

/-- The size of a file is an `off_t`, a `long`. -/
def FilesFit (k : Kernel W) : Prop :=
  ∀ w path content w', k.fopen w path = (some content, w') → (content.length : Int) ≤ LONG_MAX

section
variable {k : Kernel W} {name : List Byte} (short : name.length ≤ MAX_STR_LEN)
include short

private theorem with_file_whole (w : W) (arg : Option (List Byte)) {handed : List Byte → List Handed}
    (each : ∀ content path, (k.fopen w path).1 = some content → ∀ call ∈ handed content, call.Whole) :
    ∀ call ∈ with_file_handed k w name arg handed, call.Whole := by
  unfold with_file_handed
  split
  · rw [List.forall_mem_singleton]
    exact whole_error (by decide) short
  · split
    · rw [List.forall_mem_singleton]
      exact whole_error (by decide) short
    · next path _ content opened => exact each content path opened

/-- The report of `wc` fits. -/
private theorem word_count_whole (files : FilesFit k) (w : W) (arg : Option (List Byte)) :
    ∀ call ∈ word_count_handed k w name arg, call.Whole := by
  refine with_file_whole short w arg fun content path opened => ?_
  have size := files w path content _ (Prod.ext opened rfl)
  have report := @length_wc_report content LONG_MAX.toNat (by omega)
  rw [List.forall_mem_cons, List.forall_mem_singleton]
  exact ⟨whole_message (report.trans (by decide +kernel)), whole_newline⟩

/-- The pieces of `cat` fit. -/
private theorem cat_whole (w : W) (arg : Option (List Byte)) : ∀ call ∈ cat_handed k w name arg, call.Whole := by
  refine with_file_whole short w arg fun content path opened => ?_
  rw [List.forall_mem_append, List.forall_mem_map, List.forall_mem_singleton]
  refine ⟨fun chunk member => whole_message ?_, whole_newline⟩
  have fits := (mem_pieces (show 0 < 127 by decide) member).2
  exact fits.trans (by decide)

private theorem cd_whole (w : W) (arg : Option (List Byte)) : ∀ call ∈ cd_handed k w name arg, call.Whole := by
  have error : (Handed.display_error (lit "ERROR: Invalid path") name).Whole := whole_error (by decide) short
  cases arg with
  | none => simpa [cd_handed] using error
  | some path =>
    unfold cd_handed
    dsimp only
    split
    · simp
    · simpa using error

end

/-- A path that `getcwd` returns fits. -/
private theorem pwd_whole (k : Kernel W) (w : W) (stack : Residue) : ∀ call ∈ pwd_handed k w stack, call.Whole := by
  unfold pwd_handed
  split
  · next path told =>
    have fits : path.length < 128 := by simpa using (Option.filter_eq_some_iff.mp told).2
    rw [List.forall_mem_cons, List.forall_mem_singleton]
    refine ⟨whole_message ?_, whole_newline⟩
    rw [MAX_STR_LEN]
    omega
  · rw [List.forall_mem_singleton]
    exact whole_error (by decide) (Nat.le_of_eq stack.2)

/-- The matching names of the entries that an `ls` with these tokens comes to. -/
def requestedNames (k : Kernel W) (w : W) (mem : List Byte) (tokens : List (Option Nat)) : List (List Byte) :=
  match request mem tokens with
  | .error _ => []
  | .ok (path, depth, filter) => filtered filter (walk k w path depth).names

private theorem request_error {mem message : List Byte} {tokens : List (Option Nat)}
    (failed : request mem tokens = .error message) : message.length ≤ MAX_STR_LEN := by
  have depth : ∀ {recursive : Bool} {value : Option (List Byte)}, ls_depth recursive value = .error message →
      message = lit "Invalid depth value" ∨ message = lit "Invalid use of --d: --rec flag not provided" := by
    intro recursive value refused
    unfold ls_depth at refused
    grind
  unfold request at failed
  dsimp only at failed
  cases read : ls_depth (recursive_flag mem (tokens.drop 1)) (flag_value mem (lit "--d") (tokens.drop 1)) with
  | error refused =>
    rw [read] at failed
    obtain rfl := Except.error.inj failed
    rcases depth read with rfl | rfl <;> decide
  | ok depth =>
    rw [read] at failed
    dsimp only at failed
    split at failed
    · obtain rfl := Except.error.inj failed
      decide
    · cases failed

private theorem whole_name_iff (d_name : CStr) : (Handed.display_message d_name).Whole ↔ d_name.1.length ≤ MAX_STR_LEN := by
  have all : (CStr.of d_name).1 = d_name.1 := takeWhile_noNul d_name.2
  rw [whole_iff, Handed.strings, List.forall_mem_singleton, all]

/-- A listing hands over names that fit exactly when the matching names of its entries do. -/
private theorem visits_whole_iff (filter : List Byte) (visits : List Visit) :
    (∀ call ∈ visits.flatMap (visit_handed filter), call.Whole) ↔
      ∀ name ∈ filtered filter (visits.filterMap Visit.name), name.length ≤ MAX_STR_LEN := by
  induction visits with
  | nil => simp [filtered]
  | cons visit visits ih =>
    rw [List.flatMap_cons, List.forall_mem_append, ih, List.filterMap_cons]
    cases visit with
    | entry d_name =>
      by_cases inside : filter <:+: d_name.1
      · have seen := (shown_iff filter d_name).mpr inside
        simp [visit_handed, seen, Visit.name, filtered, inside, whole_name_iff, whole_newline]
      · have hidden : ¬ shown filter d_name := fun seen => inside ((shown_iff filter d_name).mp seen)
        simp [visit_handed, hidden, Visit.name, filtered, inside]
    | opendir path opened =>
      have error : (Handed.display_error (lit "Invalid path") (lit "one")).Whole := whole_error (by decide) (by decide)
      cases opened <;> simp [visit_handed, Visit.name, error]
    | closedir => simp [visit_handed, Visit.name]

private theorem bn_ls_whole_iff (k : Kernel W) (w : W) (mem : List Byte) (tokens : List (Option Nat)) :
    (∀ call ∈ bn_ls_handed k w mem tokens, call.Whole) ↔
      ∀ name ∈ requestedNames k w mem tokens, name.length ≤ MAX_STR_LEN := by
  unfold bn_ls_handed requestedNames
  cases asked : request mem tokens with
  | error message =>
    have error : (Handed.display_error message (lit "-1")).Whole := whole_error (request_error asked) (by decide)
    simp [error]
  | ok listing => exact visits_whole_iff ..

/-- Of the builtins, `ls` alone may hand over a string that does not fit. -/
private theorem builtin_whole_iff {k : Kernel W} (files : FilesFit k) (stack : Residue) (s : Shell W)
    (short : ((arg s.input_buf s.token_arr 0).getD []).length ≤ MAX_STR_LEN) (builtin_fn : Builtin) :
    (∀ call ∈ builtin_handed k stack s builtin_fn, call.Whole) ↔
      (builtin_fn = .bn_ls → ∀ name ∈ requestedNames k s.world s.input_buf s.token_arr, name.length ≤ MAX_STR_LEN) := by
  cases builtin_fn with
  | bn_echo =>
    have printed : (bn_echo s.vars stack s.input_buf s.token_arr).printed.length ≤ MAX_STR_LEN := List.length_take_le ..
    simpa [builtin_handed] using ⟨whole_message printed, whole_newline⟩
  | word_count => simpa [builtin_handed] using word_count_whole short files s.world _
  | cat => simpa [builtin_handed] using cat_whole short s.world _
  | cd => simpa [builtin_handed] using cd_whole short s.world _
  | pwd => simpa [builtin_handed] using pwd_whole k s.world stack
  | bn_ls => simpa [builtin_handed] using bn_ls_whole_iff k s.world s.input_buf s.token_arr

/-- The command of a line hands over strings that fit, unless it is an `ls`. -/
private theorem command_whole_iff {k : Kernel W} (files : FilesFit k) (stack : Residue) {s : Shell W} {region post : List Byte}
    {first : Nat} {ptrs : List Nat} {tokens : List (Option Nat)} {cmd : List Byte} {args : List (List Byte)}
    (t : Tokens s region post first ptrs tokens cmd args) :
    (∀ call ∈ command_handed k stack s first, call.Whole) ↔
      (cmd = lit "ls" → ∀ name ∈ requestedNames k s.world s.input_buf s.token_arr, name.length ≤ MAX_STR_LEN) := by
  have noNul : 0 ∉ cmd := laid_noNul t.laid cmd (by simp)
  simp only [command_handed, t.texts.1, exit_iff noNul]
  split_ifs with leaves assigns
  · rw [leaves]
    exact iff_of_true (by simp) fun same => absurd same (by decide)
  · refine iff_of_true (by simp) ?_
    rintro rfl
    exact absurd assigns (by decide)
  · cases known : check_builtin cmd with
    | none =>
      have error : (Handed.display_error (lit "ERROR: Unknown command: ") cmd).Whole := whole_error (by decide) t.short
      refine iff_of_true (by simpa using error) ?_
      rintro rfl
      exact absurd known (by decide)
    | some builtin_fn =>
      have isLs : builtin_fn = .bn_ls ↔ cmd = lit "ls" := by
        have only : ∀ name ∈ BUILTINS, check_builtin name = some .bn_ls → name = lit "ls" := by decide +kernel
        constructor
        · rintro rfl
          exact only cmd (check_builtin_mem known) known
        · rintro rfl
          exact Option.some.inj (known.symm.trans (by decide))
      have name : ((arg s.input_buf s.token_arr 0).getD []).length ≤ MAX_STR_LEN := by
        rw [t.arg_zero]
        exact t.short
      have error : ∀ call ∈ (if (call_builtin k stack s builtin_fn).1.ret = -1 then
            [Handed.display_error (lit "ERROR: Builtin failed: ") (cstr (call_builtin k stack s builtin_fn).2 first)]
          else []), call.Whole := by
        split
        · next failed =>
          rw [call_builtin_failed failed, t.texts.1, List.forall_mem_singleton]
          exact whole_error (by decide) t.short
        · simp
      dsimp only
      rw [List.forall_mem_append, and_iff_left error, builtin_whole_iff files stack s name, isLs]

/-! ### Sessions -/

/-- The names that the command of a round lists, when it is an `ls`. -/
def listedNames (k : Kernel W) (bufsiz : Nat) (m : Main W) : List (List Byte) :=
  let s := tokenized { m.shell with input_buf := (get_input bufsiz m.stdin m.shell.input_buf).in_ptr }
  if (commandWords m.stdin).head? = some (lit "ls") then requestedNames k s.world s.input_buf s.token_arr else []

/-- No `ls` that the shell comes to lists a matching name of more than `MAX_STR_LEN` bytes. -/
def NamesFit (k : Kernel W) (bufsiz : Nat) : List Residue → Main W → Prop
  | [], _ => True
  | stack :: residues, m =>
    (∀ name ∈ listedNames k bufsiz m, name.length ≤ MAX_STR_LEN) ∧
      match (main_round k bufsiz stack m).outcome with
      | .next m => NamesFit k bufsiz residues m
      | _ => True

private theorem get_input_refused {bufsiz : Nat} {stdin : Stdin} {in_ptr : List Byte}
    (refused : ∀ bytes, (read (MAX_STR_LEN + 1) stdin.deliveries).1 = some bytes → MAX_STR_LEN < bytes.length) :
    (get_input bufsiz stdin in_ptr).ret = -1 := by
  unfold get_input
  generalize read (MAX_STR_LEN + 1) stdin.deliveries = reading at refused ⊢
  obtain ⟨bytes, later⟩ := reading
  cases bytes with
  | none => rfl
  | some bytes =>
    have long : bytes.length > MAX_STR_LEN := refused bytes rfl
    simp only [long, ↓reduceIte]

private theorem main_round_whole_iff {k : Kernel W} (files : FilesFit k) (bufsiz : Nat) (stack : Residue) {m : Main W}
    (sized : m.shell.Sized) :
    (∀ call ∈ main_round_handed k bufsiz stack m, call.Whole) ↔
      ∀ name ∈ listedNames k bufsiz m, name.length ≤ MAX_STR_LEN := by
  rcases commandWords_cases m.stdin with ⟨bytes, later, got, short, isWords⟩ | ⟨refused, nothing⟩
  · simp only [main_round_handed, listedNames, get_input_command sized got short, isWords]
    by_cases input : bytes = []
    · subst input
      have none : words (CStr.of []) = [] := by decide
      simp [main_body_handed, none, whole_newline]
    · obtain ⟨post, filled, bound⟩ := fill_text m.shell.input_buf bytes
      obtain ⟨count, found⟩ := @tokenized_words _ { m.shell with input_buf := fill m.shell.input_buf bytes } _ _ filled
        (CStr.of bytes).2 (bound.trans short) sized.2
      have positive := List.length_pos_of_ne_nil input
      have notEof : (bytes.length : Int) ≠ 0 := by omega
      have notError : (bytes.length : Int) ≠ -1 := by omega
      simp only [main_body_handed, notEof, notError, ↓reduceIte, count]
      cases ws : words (CStr.of bytes) with
      | nil => simp
      | cons cmd args =>
        obtain ⟨region, first, ptrs, tokens⟩ := found cmd args ws
        have run := command_whole_iff files stack tokens
        generalize tokenized { m.shell with input_buf := fill m.shell.input_buf bytes } = s at tokens run ⊢
        have slots : s.token_arr = some first :: (tokenArray (first :: ptrs) m.shell.token_arr).tail := tokens.arr
        rw [slots] at run ⊢
        simp only [List.length_cons, Nat.add_one_ne_zero, ↓reduceIte, run, List.head?_cons, Option.some.injEq]
        by_cases ls : cmd = lit "ls" <;> simp [ls]
  · have error : ¬ (-1 : Int) = 0 := by decide
    simp only [main_round_handed, main_body_handed, get_input_refused refused, listedNames, nothing, error, ↓reduceIte]
    simp

private theorem main_whole_iff {k : Kernel W} (files : FilesFit k) (bufsiz : Nat) (residues : List Residue) {m : Main W}
    (sized : m.shell.Sized) : (∀ call ∈ main_handed k bufsiz residues m, call.Whole) ↔ NamesFit k bufsiz residues m := by
  have shownPrompt : (Handed.display_message prompt).Whole := whole_message (by decide)
  induction residues generalizing m with
  | nil => simp [main_handed, NamesFit]
  | cons stack residues ih =>
    rw [main_handed, NamesFit, List.cons_append, List.forall_mem_cons, and_iff_right shownPrompt, List.forall_mem_append,
      main_round_whole_iff files bufsiz stack sized]
    cases next : (main_round k bufsiz stack m).outcome with
    | next m' => exact and_congr_right fun _ => ih (sized_main_round sized next)
    | exit => simp
    | undefined => simp

/-- In a session of any length on any input, whatever the system answers, no string that `main` or a command hands to
    an output helper is cut exactly as long as no `ls` comes to a matching name of more than `MAX_STR_LEN` bytes. -/
theorem session_whole_iff {k : Kernel W} (files : FilesFit k) (bufsiz : Nat) (stack : Residue) (w : W) (stdin : Stdin)
    (residues : List Residue) :
    (∀ call ∈ main_handed k bufsiz residues ⟨start stack w, stdin⟩, call.Whole) ↔
      NamesFit k bufsiz residues ⟨start stack w, stdin⟩ :=
  main_whole_iff files bufsiz residues (reachable_sized (Reachable.start (k := k) stack w))

/-- A system in which every directory has one entry, with this name. -/
def naming (name : CStr) : Kernel Unit := { bare with opendir := fun _ _ => (some [name], ()) }

private theorem filesFit_naming (name : CStr) : FilesFit (naming name) := by
  rintro _ _ _ _ ⟨⟩

theorem session_whole_ls : (∀ call ∈ main_handed (naming ⟨lit "a", by decide⟩) 1024 [zeros, zeros]
      ⟨start zeros (), pending [lit "ls\n"]⟩, call.Whole) ↔
    NamesFit (naming ⟨lit "a", by decide⟩) 1024 [zeros, zeros] ⟨start zeros (), pending [lit "ls\n"]⟩ :=
  session_whole_iff (filesFit_naming _) 1024 zeros () _ _

/-- A file name of 129 bytes. -/
def longName : CStr := ⟨List.replicate 129 (chr 'a'), by decide +kernel⟩

/-- The last byte of a name of 129 bytes is not listed. -/
theorem ls_cuts_name : ¬ ∀ k : Kernel Unit, FilesFit k →
    (∀ w path entries w', k.opendir w path = (some entries, w') → ∀ name ∈ entries, name.1.length ≤ 255) →
      ∀ (stdin : Stdin) (residues : List Residue),
        ∀ call ∈ main_handed k 1024 residues ⟨start zeros (), stdin⟩, call.Whole := by
  intro whole
  have names : ∀ w path entries w', (naming longName).opendir w path = (some entries, w') →
      ∀ name ∈ entries, name.1.length ≤ 255 := by
    rintro _ _ _ _ ⟨⟩ name member
    rw [List.mem_singleton.mp member]
    decide +kernel
  have listed : Handed.display_message longName ∈
      main_handed (naming longName) 1024 [zeros] ⟨start zeros (), pending [lit "ls\n"]⟩ := by decide +kernel
  have fits := whole (naming longName) (filesFit_naming _) names _ _ _ listed
  exact absurd ((whole_name_iff longName).mp fits) (by decide +kernel)

end BashInC.Output
