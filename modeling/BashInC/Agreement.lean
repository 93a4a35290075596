import BashInC.Sessions

/-!
The two expansions of the shell side by side: a word assigned to a variable that
is then echoed, and the word echoed itself. An assignment keeps the references
that `echo` drops, so the two agree exactly on the words whose references are all
bound, and on the lone `$` (`assigned_eq_echoed_iff`).
-/
namespace BashInC.Agreement
open Clib.Fields Clib.Strings BashInC.IoHelpers BashInC.Expansion BashInC.Variables
open BashInC.Echo BashInC.System BashInC.Mysh BashInC.Commands BashInC.Sessions
variable {W : Type*}

/-! ### The two expansions -/

/-- The pieces of a word: the text in front of the first `$`, and behind it the names that `echo` looks up,
    next to empty pieces. -/
private theorem splitOn_before (w : List Byte) :
    ∃ pieces, w.splitOn (chr '$') = before w :: pieces ∧ runs w = pieces.filter fun piece => !piece.isEmpty := by
  have plain : ∀ b ∈ before w, (b == chr '$') = false := by
    intro b member
    have := List.mem_takeWhile_imp member
    simpa [bne] using this
  have split : before w ++ w.dropWhile (· != chr '$') = w := List.takeWhile_append_dropWhile
  have ends := List.head?_dropWhile_not (· != chr '$') w
  have whole := List.splitOnP_eq_singleton plain
  unfold runs
  rw [among_dollar]
  cases rest : w.dropWhile (· != chr '$') with
  | nil =>
    rw [rest, List.append_nil] at split
    refine ⟨[], ?_, rfl⟩
    rw [split] at whole ⊢
    exact whole
  | cons d tail =>
    rw [rest] at split ends
    obtain rfl : d = chr '$' := by simpa using ends
    have sign : (chr '$' == chr '$') = true := by simp
    have joined := List.splitOnP_append_cons (p := (· == chr '$')) (before w) tail sign
    refine ⟨tail.splitOn (chr '$'), ?_, fields_cons_delim tail sign⟩
    rw [split, whole] at joined
    exact joined

private theorem nameByte_iff {b : Byte} :
    nameByte b = true ↔ among (lit "$") b = false ∧ among DELIMITERS b = false := by
  rw [among_dollar, show DELIMITERS = [chr ' ', chr '\t', chr '\n'] from rfl]
  simp [nameByte, among, and_assoc]

/-- In a word without whitespace every piece behind a `$` is a name. -/
private theorem assigned_pieces (m : Env) {w : List Byte} (plain : ∀ b ∈ w, among DELIMITERS b = false) :
    ∃ pieces, w.splitOn (chr '$') = before w :: pieces ∧ runs w = pieces.filter (fun piece => !piece.isEmpty) ∧
      assigned m w = before w ++ pieces.flatMap fun piece => (m piece).getD (chr '$' :: piece) := by
  obtain ⟨pieces, split, isRuns⟩ := splitOn_before w
  refine ⟨pieces, split, isRuns, ?_⟩
  have names : ∀ piece ∈ pieces, ∀ b ∈ piece, nameByte b = true := by
    intro piece member b inPiece
    have isRun : piece ∈ runs w := by
      rw [isRuns, List.mem_filter]
      cases piece with
      | nil => cases inPiece
      | cons => exact ⟨member, rfl⟩
    have notDollar := fields_plain isRun b inPiece
    have inWord : b ∈ w := (List.dropWhile_sublist _).subset ((fields_sublist isRun).subset inPiece)
    exact nameByte_iff.mpr ⟨notDollar, plain b inWord⟩
  have isReference : ∀ piece ∈ pieces, reference m piece = (m piece).getD (chr '$' :: piece) := by
    intro piece member
    have whole : piece.takeWhile nameByte = piece := List.takeWhile_eq_self_iff.mpr (names piece member)
    have nothing : piece.dropWhile nameByte = [] := List.dropWhile_eq_nil_iff.mpr (names piece member)
    rw [reference, whole, nothing, List.append_nil]
  unfold assigned
  rw [split]
  simp only [List.append_cancel_left_eq]
  exact List.flatMap_congr isReference

/-- Kept references and dropped ones make the same bytes only when there are none. -/
private theorem kept_eq_dropped_iff (m : Env) (unnamed : m [] = none) (pieces : List (List Byte)) :
    (pieces.flatMap fun piece => (m piece).getD (chr '$' :: piece)) =
        ((pieces.filter fun piece => !piece.isEmpty).flatMap fun piece => (m piece).getD []) ↔
      ∀ piece ∈ pieces, (m piece).isSome := by
  have shorter : ∀ pieces : List (List Byte),
      ((pieces.filter fun piece => !piece.isEmpty).flatMap fun piece => (m piece).getD []).length ≤
        (pieces.flatMap fun piece => (m piece).getD (chr '$' :: piece)).length := by
    intro pieces
    induction pieces with
    | nil => simp
    | cons piece pieces ih =>
      simp only [List.length_flatMap] at ih ⊢
      cases piece with
      | nil =>
        simp [unnamed]
        omega
      | cons b piece =>
        cases found : m (b :: piece) with
        | none =>
          simp [found]
          omega
        | some val => simpa [found] using ih
  induction pieces with
  | nil => simp
  | cons piece pieces ih =>
    have rest := shorter pieces
    simp only [List.length_flatMap] at rest
    cases found : m piece with
    | none =>
      simp only [List.forall_mem_cons, found, Option.isSome_none, Bool.false_eq_true, false_and, iff_false]
      intro same
      have lengths := congrArg List.length same
      cases piece with
      | nil =>
        simp [unnamed] at lengths
        omega
      | cons b piece =>
        simp [found] at lengths
        omega
    | some val =>
      cases piece with
      | nil => simp [unnamed] at found
      | cons b piece => simpa [found] using ih

/-- The names that a word refers to, one behind each `$`. -/
def named (w : List Byte) : List (List Byte) := (w.splitOn (chr '$')).tail

/-- On a word without whitespace an assignment and `echo` agree exactly when it is a lone `$` or each of its
    references has a value. -/
theorem assigned_eq_echoed_iff {m : Env} (unnamed : m [] = none) {w : List Byte}
    (plain : ∀ b ∈ w, among DELIMITERS b = false) :
    assigned m w = echoed m w ↔ w = [chr '$'] ∨ ∀ name ∈ named w, (m name).isSome := by
  obtain ⟨pieces, split, isRuns, isAssigned⟩ := assigned_pieces m plain
  by_cases lone : w = [chr '$']
  · subst lone
    have kept : assigned m [chr '$'] = [chr '$'] := by
      rw [assigned_cons_dollar]
      simp [unnamed]
    simp [kept, echoed]
  · rw [isAssigned, echoed, if_neg lone, isRuns, List.append_cancel_left_eq, kept_eq_dropped_iff m unnamed, named, split]
    simp [lone]

/-! ### The lines -/

/-- The line `y=w`. -/
def assignLine (y w : List Byte) : List Byte := y ++ chr '=' :: w ++ [chr '\n']

/-- The line `echo w`. -/
def echoLine (w : List Byte) : List Byte := lit "echo " ++ w ++ [chr '\n']

/-- What a round prints behind the prompt. -/
def printed {σ : Type*} (round : Round σ) : List Byte := (stdoutBytes round.events).drop prompt.length

/-- A non-empty string without whitespace and without NUL. -/
structure Word (w : List Byte) : Prop where
  nonempty : w ≠ []
  plain : ∀ b ∈ w, among DELIMITERS b = false
  noNul : 0 ∉ w

/-- A word that can be assigned to and referred to. -/
structure Name (y : List Byte) : Prop extends Word y where
  noSign : chr '=' ∉ y
  noDollar : chr '$' ∉ y

private theorem words_cons {w : List Byte} (word : Word w) {d : Byte} (delim : among DELIMITERS d = true)
    (rest : List Byte) : words (w ++ d :: rest) = w :: words rest := by
  unfold words
  rw [fields_append_cons _ _ delim, fields_single word.nonempty word.plain]
  rfl

private theorem words_line {w : List Byte} (word : Word w) : words (CStr.of (w ++ [chr '\n'])) = [w] := by
  have noNul : 0 ∉ w ++ [chr '\n'] := by
    simpa using ⟨word.noNul, by decide⟩
  rw [CStr.of_noNul noNul, words_cons word (by decide)]
  rfl

private theorem words_echoLine {w : List Byte} (word : Word w) : words (CStr.of (echoLine w)) = [lit "echo", w] := by
  have noNul : 0 ∉ echoLine w := by
    unfold echoLine
    simpa using ⟨by decide, word.noNul, by decide⟩
  have echo : Word (lit "echo") := ⟨by decide, by decide +kernel, by decide⟩
  rw [CStr.of_noNul noNul]
  show words (lit "echo" ++ chr ' ' :: (w ++ [chr '\n'])) = _
  rw [words_cons echo (by decide), words_cons word (by decide)]
  rfl

private theorem word_assignment {y w : List Byte} (name : Name y) (word : Word w) : Word (y ++ chr '=' :: w) := by
  refine ⟨by simp, ?_, ?_⟩
  · intro b member
    rcases List.mem_append.mp member with inName | inText
    · exact name.plain b inName
    · rcases List.mem_cons.mp inText with rfl | inWord
      · decide
      · exact word.plain b inWord
  · intro member
    rcases List.mem_append.mp member with inName | inText
    · exact name.noNul inName
    · rcases List.mem_cons.mp inText with sign | inWord
      · exact absurd sign (by decide)
      · exact word.noNul inWord

private theorem assignmentOf_assignment {y w : List Byte} (name : Name y) (word : Word w) :
    assignmentOf (y ++ chr '=' :: w) = some (⟨y, name.noNul⟩, ⟨w, word.noNul⟩) := by
  have plain : ∀ b ∈ y, among (lit "=") b = false := by
    intro b member
    rw [show lit "=" = [chr '='] from rfl, among_singleton, beq_eq_false_iff_ne]
    rintro rfl
    exact name.noSign member
  have split := @assignmentOf_text [] y w (by simp) name.nonempty plain (d := chr '=') (by decide)
  rw [List.nil_append, if_neg word.nonempty, CStr.of_noNul name.noNul, CStr.of_noNul word.noNul] at split
  exact split

/-! ### The rounds -/

private theorem printed_observe {round : Round (Shell W)} {events : List Event} {after : Outcome (View W)}
    (seen : observe round = ⟨display_message prompt ++ events, after⟩) : printed round = stdoutBytes events := by
  have events := congrArg Round.events seen
  have prompted : stdoutBytes (display_message prompt) = prompt := by decide
  rw [printed, ← stdoutBytes_visible]
  show (stdoutBytes (observe round).events).drop _ = _
  rw [events, stdoutBytes_append, prompted, List.drop_left]

/-- The line `echo w` prints the echoed word, as far as `final` holds it. -/
private theorem step_echoLine (k : Kernel W) (stack : Residue) {s : Shell W} (sized : s.Sized) {w : List Byte} (word : Word w)
    (short : (echoLine w).length ≤ MAX_STR_LEN) :
    printed (step k stack (echoLine w) s) = (echoed (get_var s.vars) w).take 127 ++ lit "\n" := by
  have few : (committed (get_var s.vars) [w]).length ≤ 127 := by
    have text : (before w).length ≤ w.length := (List.takeWhile_sublist _).length_le
    have size : (echoLine w).length = w.length + 6 := by simp [echoLine, lit]
    rw [size, MAX_STR_LEN] at short
    rw [committed, echoed]
    split
    · decide
    · simp
      omega
  have settled : line_round k (view s) (words (CStr.of (echoLine w))) = some
      ⟨.stdout ((joined (get_var s.vars) [w]).take 127) :: display_message (lit "\n"), .next (view s)⟩ := by
    have notExit : lit "echo" ≠ lit "exit" := by decide
    have noSign : chr '=' ∉ lit "echo" := by decide
    have known : check_builtin (lit "echo") = some .bn_echo := by decide
    rw [words_echoLine word, line_round, command_words, if_neg notExit, if_neg noSign, known]
    have few' : (committed (get_var (view s).vars) [w]).length ≤ 127 := few
    simp only [builtin_words, if_pos few', Option.map_some]
    simp [view]
  have input : echoLine w ≠ [] := by simp [echoLine]
  rw [printed_observe (step_words stack sized short input settled)]
  have newline : stdoutBytes (display_message (lit "\n")) = lit "\n" := by decide
  simp only [stdoutBytes, List.flatMap_cons] at newline ⊢
  rw [newline, joined]
  simp

/-- The line `y=w` prints nothing, and gives the name the assigned word. -/
private theorem step_assignLine (k : Kernel W) (stack : Residue) {s : Shell W} (sized : s.Sized) {y w : List Byte}
    (name : Name y) (word : Word w) (short : (assignLine y w).length ≤ MAX_STR_LEN) (fits : Fits (get_var s.vars) w) :
    ∃ s', (step k stack (assignLine y w) s).outcome = .next s' ∧ printed (step k stack (assignLine y w) s) = [] ∧
      get_var s'.vars y = some (assigned (get_var s.vars) w) := by
  have assignment := word_assignment name word
  have settled : line_round k (view s) (words (CStr.of (assignLine y w))) = some
      ⟨[], .next { view s with vars := (def_var s.vars ⟨y, name.noNul⟩ ⟨w, word.noNul⟩).vars }⟩ := by
    have sign : chr '=' ∈ y ++ chr '=' :: w := by simp
    have notExit : y ++ chr '=' :: w ≠ lit "exit" := by
      intro exit
      rw [exit] at sign
      exact absurd sign (by decide)
    have fits' : Fits (get_var (view s).vars) w := fits
    rw [assignLine, words_line assignment, line_round, command_words, if_neg notExit, if_pos sign,
      assignmentOf_assignment name word]
    simp only [if_pos fits']
    rfl
  have input : assignLine y w ≠ [] := by simp [assignLine]
  have seen := step_words stack sized short input settled
  obtain ⟨s', next, isView⟩ := map_eq_next_iff.mp (congrArg Round.outcome seen)
  refine ⟨s', next, ?_, ?_⟩
  · rw [printed_observe seen]
    rfl
  · have list : s'.vars = (def_var s.vars ⟨y, name.noNul⟩ ⟨w, word.noNul⟩).vars := congrArg View.vars isView
    rw [list, get_var_def_var _ fits, if_pos rfl]

/-- The names in a short word fit into `nameBuffer`. -/
private theorem namesFit_of_short {w : List Byte} (short : w.length < 128) : NamesFit w := by
  obtain ⟨pieces, split, isRuns⟩ := splitOn_before w
  intro name member
  rw [references, split, List.tail_cons, List.mem_map] at member
  obtain ⟨piece, inPieces, rfl⟩ := member
  have nameShort : (piece.takeWhile nameByte).length ≤ piece.length := (List.takeWhile_sublist _).length_le
  have pieceShort : piece.length ≤ w.length := by
    cases piece with
    | nil => simp
    | cons b piece =>
      have isRun : b :: piece ∈ runs w := by
        rw [isRuns, List.mem_filter]
        exact ⟨inPieces, rfl⟩
      exact ((fields_sublist isRun).trans (List.dropWhile_sublist _)).length_le
  omega

/-- Echoing a variable prints its value. -/
private theorem echoed_variable (m : Env) {y : List Byte} (name : Name y) :
    echoed m (chr '$' :: y) = (m y).getD [] := by
  have plain : ∀ b ∈ y, among (lit "$") b = false := by
    intro b member
    rw [among_dollar, beq_eq_false_iff_ne]
    rintro rfl
    exact name.noDollar member
  have notLone : chr '$' :: y ≠ [chr '$'] := by simpa using name.nonempty
  have isRun : runs (chr '$' :: y) = [y] := by
    rw [runs, List.dropWhile_cons_of_neg (by decide), fields_cons_delim _ (by decide), fields_single name.nonempty plain]
  rw [echoed, if_neg notLone, isRun, before, List.takeWhile_cons_of_neg (by decide)]
  simp

/-- A word without whitespace that is assigned to a name and echoed from there prints the same as the word
    echoed itself exactly when it is a lone `$` or each `$` in it stands in front of a name with a value. -/
theorem assign_then_echo_iff {k : Kernel W} {s : Shell W} (reached : Reachable k s) {y w : List Byte}
    (name : Name y) (word : Word w) (shortAssign : (assignLine y w).length ≤ MAX_STR_LEN)
    (shortName : (echoLine (chr '$' :: y)).length ≤ MAX_STR_LEN) (shortWord : (echoLine w).length ≤ MAX_STR_LEN)
    (keptFits : (assigned (get_var s.vars) w).length ≤ 127) (droppedFits : (echoed (get_var s.vars) w).length ≤ 127)
    (stack stack' stack'' : Residue) :
    ∃ s', (step k stack (assignLine y w) s).outcome = .next s' ∧
      (printed (step k stack (assignLine y w) s) ++ printed (step k stack' (echoLine (chr '$' :: y)) s') =
          printed (step k stack'' (echoLine w) s) ↔
        w = [chr '$'] ∨ ∀ name ∈ named w, (get_var s.vars name).isSome) := by
  have sized := reachable_sized reached
  have fits : Fits (get_var s.vars) w := by
    constructor
    · apply namesFit_of_short
      have size : (echoLine w).length = w.length + 6 := by simp [echoLine, lit]
      rw [size, MAX_STR_LEN] at shortWord
      omega
    · rw [← length_assigned]
      omega
  obtain ⟨s', next, silent, stored⟩ := step_assignLine k stack sized name word shortAssign fits
  refine ⟨s', next, ?_⟩
  have reference : Word (chr '$' :: y) := by
    refine ⟨by simp, ?_, ?_⟩
    · rw [List.forall_mem_cons]
      exact ⟨by decide, name.plain⟩
    · rw [List.mem_cons, not_or]
      exact ⟨by decide, name.noNul⟩
  rw [silent, step_echoLine k stack' (sized_step sized shortAssign next) reference shortName,
    step_echoLine k stack'' sized word shortWord, echoed_variable _ name, stored, Option.getD_some,
    List.nil_append, List.append_cancel_right_eq, List.take_of_length_le keptFits, List.take_of_length_le droppedFits]
  exact assigned_eq_echoed_iff (reachable_unnamed reached) word.plain

theorem assign_then_echo_bound : ∃ s : Shell Unit, Reachable bare s ∧ ∃ s',
    (step bare zeros (assignLine (lit "y") (lit "a$x$x")) s).outcome = .next s' ∧
      (printed (step bare zeros (assignLine (lit "y") (lit "a$x$x")) s) ++
            printed (step bare zeros (echoLine (lit "$y")) s') = printed (step bare zeros (echoLine (lit "a$x$x")) s) ↔
        lit "a$x$x" = [chr '$'] ∨ ∀ name ∈ named (lit "a$x$x"), (get_var s.vars name).isSome) := by
  obtain ⟨s, ran, reached⟩ := @reachable_session (typed [lit "x=bc"]) (by decide +kernel) (by decide +kernel)
  have fit := of_after (fun s => (assigned (get_var s.vars) (lit "a$x$x")).length ≤ 127 ∧
    (echoed (get_var s.vars) (lit "a$x$x")).length ≤ 127) ran (by decide +kernel)
  have name : Name (lit "y") := ⟨⟨by decide, by decide +kernel, by decide⟩, by decide, by decide⟩
  have word : Word (lit "a$x$x") := ⟨by decide, by decide +kernel, by decide⟩
  exact ⟨s, reached, assign_then_echo_iff reached name word (by decide) (by decide) (by decide) fit.1 fit.2
    zeros zeros zeros⟩

/-- An assignment keeps a reference to an unbound name, and `echo` drops it. -/
theorem assign_then_echo_unbound : ¬ ∀ s : Shell Unit, Reachable bare s → ∀ y w : List Byte, Name y → Word w →
    y ∉ references w → (assignLine y w).length ≤ MAX_STR_LEN → (echoLine (chr '$' :: y)).length ≤ MAX_STR_LEN →
    (echoLine w).length ≤ MAX_STR_LEN → (assigned (get_var s.vars) w).length ≤ 127 →
    (echoed (get_var s.vars) w).length ≤ 127 → ∀ stack stack' stack'' : Residue, ∀ s',
      (step bare stack (assignLine y w) s).outcome = .next s' →
        printed (step bare stack (assignLine y w) s) ++ printed (step bare stack' (echoLine (chr '$' :: y)) s') =
          printed (step bare stack'' (echoLine w) s) := by
  intro agree
  obtain ⟨s, ran, -⟩ := @reachable_session (typed [lit "y=$u"]) (by decide +kernel) (by decide +kernel)
  have next := after_singleton_iff.mp ran
  have name : Name (lit "y") := ⟨⟨by decide, by decide +kernel, by decide⟩, by decide, by decide⟩
  have word : Word (lit "$u") := ⟨by decide, by decide +kernel, by decide⟩
  have differ := of_after (fun s => printed (step bare zeros (assignLine (lit "y") (lit "$u")) (start zeros ())) ++
      printed (step bare zeros (echoLine (chr '$' :: lit "y")) s) ≠
    printed (step bare zeros (echoLine (lit "$u")) (start zeros ()))) ran (by decide +kernel)
  exact differ (agree (start zeros ()) (.start zeros ()) (lit "y") (lit "$u") name word (by decide) (by decide)
    (by decide) (by decide) (by decide) (by decide) zeros zeros zeros s next)

end BashInC.Agreement
