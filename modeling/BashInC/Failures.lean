import BashInC.Sessions

/-!
How builtins report their failures. A builtin is to return -1 exactly when it has
written an error, so that the main loop adds its own message to exactly these.
`cd` and `pwd` return 1 with their errors, and `list_directory` drops the result
of the calls for the directories below its own; `builtin_uniform_iff` says for
which calls of the system this does not matter.
-/
namespace BashInC.Failures
open Clib.Strings BashInC.IoHelpers BashInC.Echo BashInC.System BashInC.Listing BashInC.Files BashInC.Mysh
open BashInC.Commands BashInC.Sessions
variable {W : Type*}

/-- An error message is among the events. -/
def reports (events : List Event) : Bool :=
  events.any fun
    | .stderr _ => true
    | _ => false

/-- A builtin returns -1 exactly when it has written an error. -/
def Uniform (effect : Effect W) : Prop := effect.ret = -1 ↔ reports effect.events = true

@[simp] theorem reports_append (events more : List Event) : reports (events ++ more) = (reports events || reports more) :=
  List.any_append

@[simp] theorem reports_display_message (str : List Byte) : reports (display_message str) = false := rfl

@[simp] theorem reports_display_error (pre_str str : List Byte) : reports (display_error pre_str str) = true := rfl

theorem reports_eq_false_iff {events : List Event} : reports events = false ↔ ∀ e ∈ events, ∀ bytes, e ≠ .stderr bytes := by
  rw [reports, List.any_eq_false]
  apply forall₂_congr
  intro e _
  cases e <;> simp

private theorem reports_stores (array : Local) (ranges : List Clib.Buffers.Range) :
    reports (ranges.map (Event.store array)) = false := by
  rw [reports_eq_false_iff, List.forall_mem_map]
  simp

/-! ### Listings -/

/-- Whether all the directories among some entries of one open, by `visit`, and the state that this leaves. -/
def entriesOpen (k : Kernel W) (visit : W → List Byte → Bool × W) (path : List Byte) : W → List CStr → Bool × W
  | w, [] => (true, w)
  | w, d_name :: entries =>
    if d_name.1 = lit "." ∨ d_name.1 = lit ".." then entriesOpen k visit path w entries
    else
      let full_path := entry_path path d_name
      let (st, w) := k.lstat w full_path
      if st = some .directory then
        let (here, w) := visit w full_path
        let (later, w) := entriesOpen k visit path w entries
        (here && later, w)
      else entriesOpen k visit path w entries

/-- Whether a directory and those fewer than `levels` levels below it open. -/
def levelsOpen (k : Kernel W) : Nat → W → List Byte → Bool × W
  | 0, w, _ => (true, w)
  | levels + 1, w, path =>
    match k.opendir w path with
    | (none, w) => (false, w)
    | (some entries, w) =>
      let (all, w) := entriesOpen k (levelsOpen k levels) path w entries
      (all, k.closedir w)

/-- If a directory opens, then those below it that a listing to the depth goes into do. -/
def BelowOpens (k : Kernel W) (depth : Int) (w : W) (path : List Byte) : Prop :=
  match k.opendir w path with
  | (none, _) => True
  | (some entries, w) => depth ≤ 0 ∨ (entriesOpen k (levelsOpen k (depth.toNat - 1)) path w entries).1 = true

private theorem reports_printName (filter d_name : List Byte) : reports (printName filter d_name) = false := by
  rw [reports_eq_false_iff]
  intro e member bytes
  obtain ⟨printed, rfl⟩ := mem_printName member
  simp

/-- The loop over the entries of a directory reports an error exactly when one that it goes into does not open. -/
private theorem list_entries_reports (k : Kernel W) {recurse : W → List Byte → Effect W} {visit : W → List Byte → Bool × W}
    (visits : ∀ w path, reports (recurse w path).events = !(visit w path).1 ∧ (recurse w path).world = (visit w path).2)
    {depth : Int} (deep : depth ≠ -1) (path filter : List Byte) (w : W) (entries : List CStr) :
    reports (list_entries k recurse depth path filter w entries).1 = !(entriesOpen k visit path w entries).1 ∧
      (list_entries k recurse depth path filter w entries).2 = (entriesOpen k visit path w entries).2 := by
  induction entries generalizing w with
  | nil => simp [list_entries, entriesOpen, reports]
  | cons d_name entries ih =>
    simp only [list_entries, entriesOpen]
    by_cases dots : d_name.1 = lit "." ∨ d_name.1 = lit ".."
    · rw [list_entry_flat k recurse path filter w (.inr dots), if_pos dots]
      simpa [reports_printName] using ih w
    · rw [list_entry_deep k recurse path filter w deep dots, if_neg dots]
      dsimp only
      by_cases directory : (k.lstat w (entry_path path d_name)).1 = some .directory
      · obtain ⟨errors, world⟩ := visits (k.lstat w (entry_path path d_name)).2 (entry_path path d_name)
        obtain ⟨later, state⟩ := ih (visit (k.lstat w (entry_path path d_name)).2 (entry_path path d_name)).2
        simp only [directory, ↓reduceIte, reports_append, reports_printName, errors, world, later, state]
        simp
      · simp only [directory, ↓reduceIte, reports_append, reports_printName, Bool.false_or]
        exact ih _

/-- The loop of a plain listing reports no error. -/
private theorem list_entries_flat_reports (k : Kernel W) (recurse : W → List Byte → Effect W) (path filter : List Byte)
    (w : W) (entries : List CStr) : reports (list_entries k recurse (-1) path filter w entries).1 = false := by
  induction entries generalizing w with
  | nil => rfl
  | cons d_name entries ih =>
    simp only [list_entries, list_entry_flat k recurse path filter w (.inl rfl), reports_append, reports_printName]
    exact ih w

private theorem reports_opened (path : List Byte) (opened : Bool) (events : List Event) :
    reports (.opendir path opened :: events) = reports events := rfl

private theorem reports_closed (events : List Event) : reports (events ++ [.closedir]) = reports events := by
  rw [reports_append]
  exact Bool.or_false _

/-- A recursive listing reports an error exactly when a directory that it goes into does not open. -/
private theorem list_directory_reports (k : Kernel W) (levels : Nat) (w : W) (path filter : List Byte) :
    reports (list_directory k w path levels filter).events = !(levelsOpen k levels w path).1 ∧
      (list_directory k w path levels filter).world = (levelsOpen k levels w path).2 := by
  induction levels generalizing w path with
  | zero => exact ⟨rfl, rfl⟩
  | succ levels ih =>
    have deep : ((levels + 1 : Nat) : Int) ≠ -1 := by omega
    have positive : ((levels + 1 : Nat) : Int) ≠ 0 := by omega
    have below : ((levels + 1 : Nat) : Int) - 1 = levels := by omega
    rw [list_directory_eq k w path (by omega) filter, below, list_body, if_neg positive, levelsOpen]
    rcases k.opendir w path with ⟨entries, w'⟩
    cases entries with
    | none => exact ⟨rfl, rfl⟩
    | some entries =>
      obtain ⟨errors, world⟩ := list_entries_reports k (fun w path => ih w path) deep path filter w' entries
      simp only [List.cons_append, reports_opened, reports_closed, errors, world, and_self]

/-- A listing is uniform exactly when the directories below its own open. -/
private theorem list_directory_uniform_iff (k : Kernel W) (w : W) (path : List Byte) {depth : Int} (valid : -1 ≤ depth)
    (filter : List Byte) : Uniform (list_directory k w path depth filter) ↔ BelowOpens k depth w path := by
  rw [list_directory_eq k w path valid filter, list_body, BelowOpens]
  by_cases stop : depth = 0
  · rw [if_pos stop]
    rcases k.opendir w path with ⟨entries, w'⟩
    cases entries <;> simp [Uniform, reports, stop]
  · rw [if_neg stop]
    rcases k.opendir w path with ⟨entries, w'⟩
    cases entries with
    | none => simp [Uniform, reports_opened]
    | some entries =>
      simp only [Uniform, List.cons_append, reports_opened, reports_closed]
      by_cases flat : depth = -1
      · subst flat
        simp [list_entries_flat_reports]
      · obtain ⟨levels, rfl⟩ : ∃ levels : Nat, depth = levels + 1 := ⟨(depth - 1).toNat, by omega⟩
        have below : ((levels : Int) + 1 - 1) = levels := by omega
        have inner : ((levels : Int) + 1).toNat - 1 = levels := by omega
        have positive : ¬ (levels : Int) + 1 ≤ 0 := by omega
        rw [below, inner, or_iff_right positive]
        have errors := (list_entries_reports k (fun w path => list_directory_reports k levels w path filter) flat path filter
          w' entries).1
        rw [errors]
        simp

/-! ### Builtins -/

/-- The call makes none of the failures that are not reported as the others are: `cd` has a directory to go
    to and goes there, `pwd` is told the directory, and `ls` opens all directories below its own. -/
def Unfailing (k : Kernel W) (s : Shell W) : Builtin → Prop
  | .bn_echo | .word_count | .cat => True
  | .cd =>
    match arg s.input_buf s.token_arr 1 with
    | none => False
    | some path => (k.chdir s.world path).1 = true
  | .pwd => (k.getcwd s.world 128).isSome
  | .bn_ls =>
    let tokens := s.token_arr.drop 1
    match ls_depth (recursive_flag s.input_buf tokens) (flag_value s.input_buf (lit "--d") tokens) with
    | .error _ => True
    | .ok depth =>
      match (scan_path s.input_buf false none tokens).2 with
      | .tooMany => True
      | .path path => BelowOpens k depth s.world (path.getD (lit "./"))

private theorem with_file_uniform (k : Kernel W) (w : W) (name : List Byte) (arg : Option (List Byte))
    {use : List Byte → List Event} (quiet : ∀ content, reports (use content) = false) :
    Uniform (with_file k w name arg use) := by
  cases arg with
  | none => simp [with_file, Uniform]
  | some path =>
    simp only [with_file]
    rcases k.fopen w path with ⟨content, w'⟩
    cases content with
    | none => exact ⟨fun _ => rfl, fun _ => rfl⟩
    | some content =>
      have opened : reports (.fopen path true :: use content) = reports (use content) := rfl
      simp [Uniform, opened, quiet]

private theorem reports_cat_loop (fuel : Nat) (content : List Byte) : reports (cat_loop fuel content) = false := by
  rw [reports_eq_false_iff]
  intro e member bytes
  obtain ⟨printed, rfl⟩ := mem_cat_loop member
  simp

private theorem reports_echoEvents (call : EchoCall) : reports (echoEvents call) = false := by
  rw [echoEvents, reports_append, reports_stores]
  rfl

private theorem reports_own {events : List Event} (all : ∀ e ∈ events, own e = true) : reports events = false := by
  rw [reports_eq_false_iff]
  rintro e member bytes rfl
  cases all _ member

/-- Of the builtins, `echo`, `wc` and `cat` are uniform whatever the system does. -/
private theorem call_builtin_uniform_iff (k : Kernel W) (stack : Residue) (s : Shell W) (builtin_fn : Builtin) :
    Uniform (call_builtin k stack s builtin_fn).1 ↔ Unfailing k s builtin_fn := by
  cases builtin_fn with
  | bn_echo => simp [call_builtin, Unfailing, Uniform, reports_echoEvents]
  | word_count =>
    refine iff_of_true (with_file_uniform k _ _ _ fun content => ?_) trivial
    simp
  | cat =>
    refine iff_of_true (with_file_uniform k _ _ _ fun content => ?_) trivial
    simp [reports_cat_loop]
  | cd =>
    simp only [call_builtin, Unfailing, cd]
    cases arg s.input_buf s.token_arr 1 with
    | none => simp [Uniform]
    | some path =>
      dsimp only
      rcases k.chdir s.world path with ⟨changed, w⟩
      cases changed <;> simp [Uniform, reports, display_error]
  | pwd =>
    simp only [call_builtin, Unfailing, pwd]
    cases k.getcwd s.world 128 <;> simp [Uniform]
  | bn_ls =>
    simp only [call_builtin, Unfailing, bn_ls]
    cases read : ls_depth (recursive_flag s.input_buf (s.token_arr.drop 1))
        (flag_value s.input_buf (lit "--d") (s.token_arr.drop 1)) with
    | error message => simp [Uniform]
    | ok depth =>
      have quiet := reports_own (own_scan_path s.input_buf false none (s.token_arr.drop 1))
      have copied := reports_own (own_copy_filter (flag_value s.input_buf (lit "--f") (s.token_arr.drop 1)))
      dsimp only
      generalize scan_path s.input_buf false none (s.token_arr.drop 1) = scanned at quiet
      obtain ⟨events, scan⟩ := scanned
      cases scan with
      | tooMany => simp [Uniform]
      | path path =>
        have listed := list_directory_uniform_iff k s.world (path.getD (lit "./")) (ls_depth_valid read)
          ((flag_value s.input_buf (lit "--f") (s.token_arr.drop 1)).getD [])
        dsimp only
        rw [← listed]
        simp only [Uniform, reports_append, copied, quiet, Bool.false_or]

/-- A builtin that returns -1 leaves the tokens as they are. -/
theorem call_builtin_failed {k : Kernel W} {stack : Residue} {s : Shell W} {builtin_fn : Builtin}
    (failed : (call_builtin k stack s builtin_fn).1.ret = -1) : (call_builtin k stack s builtin_fn).2 = s.input_buf := by
  cases builtin_fn with
  | bn_echo => simp [call_builtin] at failed
  | _ => rfl

/-- The main loop adds its message exactly when the builtin returns -1. -/
private theorem command_builtin (k : Kernel W) (stack : Residue) (s : Shell W) {token : Nat} {builtin_fn : Builtin}
    (known : check_builtin (cstr s.input_buf token) = some builtin_fn) :
    (command k stack s token).1 = (call_builtin k stack s builtin_fn).1.events ++
      if (call_builtin k stack s builtin_fn).1.ret = -1 then
        display_error (lit "ERROR: Builtin failed: ") (cstr s.input_buf token)
      else [] := by
  have plain : ∀ name ∈ BUILTINS, ¬ (name.take 4 = lit "exit" ∧ name.getD 4 0 = 0) ∧ chr '=' ∉ name := by decide +kernel
  have named := plain _ (check_builtin_mem known)
  rw [command, if_neg named.1, if_neg named.2, known]
  dsimp only
  by_cases failed : (call_builtin k stack s builtin_fn).1.ret = -1
  · rw [if_pos failed, if_pos failed, call_builtin_failed failed]
  · rw [if_neg failed, if_neg failed]

/-- Builtins report their failures uniformly exactly in the calls where `cd` and `pwd` do not fail and `ls`
    opens all directories below its own: there a builtin returns -1 if and only if it has written an error,
    and the main loop adds its message to exactly these errors. -/
theorem builtin_uniform_iff (k : Kernel W) (stack : Residue) (s : Shell W) (builtin_fn : Builtin) :
    let effect := (call_builtin k stack s builtin_fn).1
    (Uniform effect ↔ Unfailing k s builtin_fn) ∧
      ∀ token, check_builtin (cstr s.input_buf token) = some builtin_fn →
        ((command k stack s token).1 = effect.events ++
            (if reports effect.events then display_error (lit "ERROR: Builtin failed: ") (cstr s.input_buf token) else []) ↔
          Unfailing k s builtin_fn) := by
  intro effect
  have uniform := call_builtin_uniform_iff k stack s builtin_fn
  refine ⟨uniform, fun token known => ?_⟩
  rw [← uniform, command_builtin k stack s known, List.append_cancel_left_eq, Uniform]
  by_cases failed : effect.ret = -1
  · by_cases reported : reports effect.events = true <;> simp [effect, failed, reported, display_error]
  · by_cases reported : reports effect.events = true <;> simp [effect, failed, reported, display_error]

/-- The state in which the main loop runs the command of a line on a fresh stack. -/
def entered (line : List Byte) : Shell Unit := tokenized { start zeros () with input_buf := fill (zeros.1 ++ [0]) line }

theorem builtin_uniform_pwd :
    (Uniform (call_builtin bare zeros (entered (lit "pwd")) .pwd).1 ↔ Unfailing bare (entered (lit "pwd")) .pwd) ∧
      ((command bare zeros (entered (lit "pwd")) 0).1 = (call_builtin bare zeros (entered (lit "pwd")) .pwd).1.events ++
          (if reports (call_builtin bare zeros (entered (lit "pwd")) .pwd).1.events then
            display_error (lit "ERROR: Builtin failed: ") (cstr (entered (lit "pwd")).input_buf 0) else []) ↔
        Unfailing bare (entered (lit "pwd")) .pwd) := by
  obtain ⟨uniform, reported⟩ := builtin_uniform_iff bare zeros (entered (lit "pwd")) .pwd
  exact ⟨uniform, reported 0 (by decide +kernel)⟩

/-- A `cd` without a directory returns 1 with its error. -/
theorem cd_returns_one : ¬ ∀ (s : Shell Unit) (builtin_fn : Builtin), Uniform (call_builtin bare zeros s builtin_fn).1 := by
  intro uniform
  have failed : reports (call_builtin bare zeros (entered (lit "cd")) .cd).1.events = true ∧
      (call_builtin bare zeros (entered (lit "cd")) .cd).1.ret = 1 := by
    decide +kernel
  have error := (uniform (entered (lit "cd")) .cd).mpr failed.1
  rw [failed.2] at error
  cases error

end BashInC.Failures
