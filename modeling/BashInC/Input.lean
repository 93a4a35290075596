import BashInC.Agreement
import BashInC.Clib.Streams

/-!
The input of the shell. `get_input` takes a command to be what one `read`
returns, and skips with `getchar` up to the next newline when that is more than
`MAX_STR_LEN` bytes (`main_round_read`). The main loop over standard input is
compared with `turns`, which handles a list of texts one by one: when whole lines
are delivered the two are the same exactly as long as no line with one byte more
than `MAX_STR_LEN` is followed by another (`main_loop_lines_iff`).
-/
namespace BashInC.Input
open Clib.Strings Clib.Streams BashInC.IoHelpers BashInC.Echo BashInC.System BashInC.Mysh BashInC.Commands
open BashInC.Sessions BashInC.Agreement
variable {W : Type*}

/-! ### The main loop -/

/-- What `get_input` returns and leaves. -/
structure Received where
  ret : Int
  events : List Event
  in_ptr : List Byte
  stdin : Stdin

def tooLong : List Byte := lit "ERROR: input line too long\n"

def get_input (bufsiz : Nat) (stdin : Stdin) (in_ptr : List Byte) : Received :=
  match read (MAX_STR_LEN + 1) stdin.deliveries with
  | (none, deliveries) => ⟨-1, [], in_ptr.set 0 0, { stdin with deliveries := deliveries }⟩
  | (some bytes, deliveries) =>
    let stdin := { stdin with deliveries := deliveries }
    let in_ptr := bytes ++ in_ptr.drop bytes.length
    if bytes.length > MAX_STR_LEN then
      ⟨-1, [.stderr tooLong], in_ptr.set 0 0, skipThrough (chr '\n') bufsiz (stdin.size + 1) stdin⟩
    else ⟨bytes.length, [], in_ptr.set bytes.length 0, stdin⟩

/-- The state of the main loop. -/
structure Main (W : Type*) where
  shell : Shell W
  stdin : Stdin

/-- The body of `while (1)` in `main`. -/
def main_round (k : Kernel W) (bufsiz : Nat) (stack : Residue) (m : Main W) : Round (Main W) :=
  let input := get_input bufsiz m.stdin m.shell.input_buf
  let (events, after) := main_body k stack input.ret { m.shell with input_buf := input.in_ptr }
  let events := input.events ++ events
  ⟨display_message prompt ++ events, map (Main.mk · input.stdin) (outcome events after)⟩

/-- The rounds of `main`, one for each state of the stack, as far as the shell makes them. -/
def main_loop (k : Kernel W) (bufsiz : Nat) : List Residue → Main W → List (Round (Main W))
  | [], _ => []
  | stack :: residues, m =>
    let round := main_round k bufsiz stack m
    round :: match round.outcome with
      | .next m => main_loop k bufsiz residues m
      | _ => []

/-- The input behind a call of `get_input`, which does not depend on what `in_ptr` holds. -/
def left (bufsiz : Nat) (stdin : Stdin) : Stdin := (get_input bufsiz stdin []).stdin

/-! ### Texts one by one -/

/-- Standard input with these texts to come, each delivered by itself. -/
def pending (texts : List (List Byte)) : Stdin := ⟨texts.map some, [], false⟩

/-- The state behind a line that is too long: the variables and the system are as before it. -/
def refuse (line : List Byte) (s : Shell W) : Shell W :=
  { s with input_buf := (line.take (MAX_STR_LEN + 1)).set 0 0, token_arr := s.token_arr.set 0 none }

/-- A text of at most `MAX_STR_LEN` bytes is a command, a longer one is an error and nothing else. -/
def turn (k : Kernel W) (stack : Residue) (text : List Byte) (s : Shell W) : Round (Shell W) :=
  if text.length ≤ MAX_STR_LEN then step k stack text s
  else ⟨display_message prompt ++ [.stderr tooLong], .next (refuse text s)⟩

/-- A round that leaves this input. -/
def leaving (stdin : Stdin) (round : Round (Shell W)) : Round (Main W) :=
  ⟨round.events, map (Main.mk · stdin) round.outcome⟩

/-- The input behind a text, with these to come. Behind a text that `read` has just taken in whole before it is
    refused, `getchar` notices the end of the input when nothing is to come. -/
def afterText (text : List Byte) (texts : List (List Byte)) : Stdin :=
  ⟨texts.map some, [], decide (text.length = MAX_STR_LEN + 1 ∧ texts = [])⟩

/-- The rounds when every text is handled by itself, and then the end of the input. -/
def turns (k : Kernel W) : List Residue → Shell W → List (List Byte) → List (Round (Main W))
  | [], _, _ => []
  | stack :: _, s, [] => [leaving (pending []) (step k stack [] s)]
  | stack :: residues, s, text :: texts =>
    let round := turn k stack text s
    leaving (afterText text texts) round :: match round.outcome with
      | .next s => turns k residues s texts
      | _ => []

/-! ### Rounds -/

section
variable {k : Kernel W} {bufsiz : Nat} {stack : Residue} {s : Shell W}

private theorem set_fill {input_buf bytes : List Byte} (room : bytes.length < input_buf.length) :
    (bytes ++ input_buf.drop bytes.length).set bytes.length 0 = fill input_buf bytes := by
  rw [List.set_append_right _ _ (Nat.le_refl _), Nat.sub_self, List.drop_eq_getElem_cons room, List.set_cons_zero, fill]

/-- A read of at most `MAX_STR_LEN` bytes fills `input_buf`. -/
theorem get_input_command {m : Main W} (sized : m.shell.Sized) {bytes : List Byte} {later : Deliveries}
    (got : read (MAX_STR_LEN + 1) m.stdin.deliveries = (some bytes, later)) (short : bytes.length ≤ MAX_STR_LEN) :
    get_input bufsiz m.stdin m.shell.input_buf =
      ⟨bytes.length, [], fill m.shell.input_buf bytes, { m.stdin with deliveries := later }⟩ := by
  have room : bytes.length < m.shell.input_buf.length := by
    rw [sized.1]
    omega
  have fits : ¬ bytes.length > MAX_STR_LEN := by omega
  simp only [get_input, got, if_neg fits, set_fill room]

/-- A read of at most `MAX_STR_LEN` bytes is a command. -/
theorem main_round_command {m : Main W} (sized : m.shell.Sized) {bytes : List Byte} {later : Deliveries}
    (got : read (MAX_STR_LEN + 1) m.stdin.deliveries = (some bytes, later)) (short : bytes.length ≤ MAX_STR_LEN) :
    main_round k bufsiz stack m = ⟨(step k stack bytes m.shell).events,
      map (Main.mk · { m.stdin with deliveries := later }) (step k stack bytes m.shell).outcome⟩ := by
  simp only [main_round, get_input_command sized got short, List.nil_append]
  rfl

/-- Behind a failure of `get_input` the main loop finds no tokens in `input_buf`, and goes on. -/
private theorem main_body_refused (post : List Byte) :
    main_body k stack (-1) { s with input_buf := 0 :: post } =
      ([], some { s with input_buf := 0 :: post, token_arr := s.token_arr.set 0 none }) := by
  have nothing : strtok_r DELIMITERS (0 :: post) 0 = ⟨0 :: post, none, 0⟩ := strtok_r_end [] post DELIMITERS
  have empty : tokenize_input (0 :: post) s.token_arr = ⟨0, 0 :: post, s.token_arr.set 0 none, 0⟩ := by
    simp only [tokenize_input, nothing, eachToken]
  simp [main_body, empty]

/-- A round is the turn of what one read returns. -/
theorem main_round_read {m : Main W} (sized : m.shell.Sized) {text : List Byte} {later : Deliveries}
    (got : read (MAX_STR_LEN + 1) m.stdin.deliveries = (some text, later)) :
    main_round k bufsiz stack m = leaving (left bufsiz m.stdin) (turn k stack text m.shell) := by
  by_cases short : text.length ≤ MAX_STR_LEN
  · have fits : ¬ text.length > MAX_STR_LEN := by omega
    rw [main_round_command sized got short, turn, if_pos short, leaving, left]
    simp only [get_input, got, if_neg fits]
  · have long : text.length > MAX_STR_LEN := by omega
    have bound := length_read got
    have whole : text.take (MAX_STR_LEN + 1) = text := List.take_of_length_le bound
    have full : m.shell.input_buf.drop text.length = [] := by
      apply List.drop_eq_nil_of_le
      rw [sized.1]
      omega
    obtain ⟨b, rest, front⟩ := List.exists_cons_of_length_pos (show 0 < text.length by omega)
    have body := @main_body_refused _ k stack m.shell rest
    have input : get_input bufsiz m.stdin m.shell.input_buf = ⟨-1, [.stderr tooLong], 0 :: rest, left bufsiz m.stdin⟩ := by
      simp only [left, get_input, got, if_pos long, full, List.append_nil]
      rw [front, List.set_cons_zero]
    have inBounds : ∀ e ∈ [Event.stderr tooLong], e.InBounds := by simp [Event.InBounds]
    simp only [main_round, input, body, List.append_nil, outcome_next inBounds]
    rw [turn, if_neg short, leaving, refuse, whole, front, List.set_cons_zero]

/-- When a read fails the main loop goes on. -/
theorem main_round_failed {m : Main W} (sized : m.shell.Sized)
    (failed : (read (MAX_STR_LEN + 1) m.stdin.deliveries).1 = none) :
    main_round k bufsiz stack m = leaving (left bufsiz m.stdin) ⟨display_message prompt,
      .next { m.shell with input_buf := m.shell.input_buf.set 0 0, token_arr := m.shell.token_arr.set 0 none }⟩ := by
  rcases got : read (MAX_STR_LEN + 1) m.stdin.deliveries with ⟨bytes, later⟩
  rw [got] at failed
  obtain rfl : bytes = none := failed
  obtain ⟨b, rest, front⟩ := List.exists_cons_of_length_pos (show 0 < m.shell.input_buf.length by rw [sized.1]; omega)
  have body := @main_body_refused _ k stack m.shell rest
  simp only [main_round, left, get_input, got, front, List.set_cons_zero, body]
  simp [outcome, map, leaving]

/-- What a read that fails, or finds more, prints and leaves to be read does not depend on the shell, and the
    variables and the system are as before it. -/
theorem main_round_refused_eq {m : Main W} (sized : m.shell.Sized)
    (refused : ∀ bytes, (read (MAX_STR_LEN + 1) m.stdin.deliveries).1 = some bytes → MAX_STR_LEN < bytes.length) :
    ∃ in_ptr : List Byte, in_ptr.length = MAX_STR_LEN + 1 ∧
      main_round k bufsiz stack m = ⟨display_message prompt ++ (get_input bufsiz m.stdin []).events,
        .next ⟨{ m.shell with input_buf := in_ptr, token_arr := m.shell.token_arr.set 0 none }, left bufsiz m.stdin⟩⟩ := by
  rcases got : read (MAX_STR_LEN + 1) m.stdin.deliveries with ⟨bytes, later⟩
  cases bytes with
  | none =>
    refine ⟨m.shell.input_buf.set 0 0, by rw [List.length_set, sized.1], ?_⟩
    rw [main_round_failed sized (by rw [got])]
    simp [leaving, map, get_input, got]
  | some bytes =>
    have long := refused bytes (by rw [got])
    have bound := length_read got
    refine ⟨(bytes.take (MAX_STR_LEN + 1)).set 0 0, ?_, ?_⟩
    · rw [List.length_set, List.length_take]
      omega
    · rw [main_round_read sized got, turn, if_neg (Nat.not_le_of_lt long)]
      simp [leaving, map, refuse, get_input, got, long]

/-- Such a read prints no more than that the line is too long. -/
theorem main_round_refused {m : Main W} (sized : m.shell.Sized)
    (refused : ∀ bytes, (read (MAX_STR_LEN + 1) m.stdin.deliveries).1 = some bytes → MAX_STR_LEN < bytes.length) :
    ∃ (more : List Event) (in_ptr : List Byte) (stdin : Stdin), (more = [] ∨ more = [.stderr tooLong]) ∧
      in_ptr.length = MAX_STR_LEN + 1 ∧
      main_round k bufsiz stack m = ⟨display_message prompt ++ more,
        .next ⟨{ m.shell with input_buf := in_ptr, token_arr := m.shell.token_arr.set 0 none }, stdin⟩⟩ := by
  obtain ⟨in_ptr, size, round⟩ := @main_round_refused_eq _ k bufsiz stack m sized refused
  refine ⟨_, in_ptr, _, ?_, size, round⟩
  unfold get_input
  split
  · exact .inl rfl
  · dsimp only
    split
    · exact .inr rfl
    · exact .inl rfl

/-- At the end of the input the shell ends. -/
theorem main_round_end {m : Main W} (sized : m.shell.Sized) (ended : m.stdin.deliveries = []) :
    main_round k bufsiz stack m = ⟨display_message prompt ++ display_message (lit "\n"), .exit⟩ := by
  have nothing : read (MAX_STR_LEN + 1) m.stdin.deliveries = (some [], []) := by rw [ended]; rfl
  rw [main_round_read sized nothing, turn, if_pos (by simp), step_eof]
  rfl

end

/-- A turn keeps the sizes of the arrays. -/
theorem sized_turn {k : Kernel W} {stack : Residue} {text : List Byte} {s s' : Shell W} (sized : s.Sized)
    (next : (turn k stack text s).outcome = .next s') : s'.Sized := by
  unfold turn at next
  split at next
  · next short => exact sized_step sized short next
  · next long =>
    obtain rfl : refuse text s = s' := by simpa using next
    constructor
    · simp only [refuse, List.length_set, List.length_take]
      omega
    · simpa [refuse] using sized.2

/-! ### Lines -/

/-- A newline behind bytes that are none. -/
def IsLine (line : List Byte) : Prop := ∃ body, chr '\n' ∉ body ∧ line = body ++ [chr '\n']

/-- Two lines that one read returns together are one command. -/
theorem main_loop_joins_lines : ¬ ∀ lines pieces : List (List Byte),
    (∀ line ∈ lines, IsLine line ∧ line.length ≤ MAX_STR_LEN) → (∀ piece ∈ pieces, piece ≠ []) →
      lines.flatten = pieces.flatten → ∀ residues : List Residue,
        (main_loop bare 1024 residues ⟨start zeros (), pending lines⟩).flatMap printed =
          (main_loop bare 1024 residues ⟨start zeros (), pending pieces⟩).flatMap printed := by
  intro same
  have lines : ∀ line ∈ [lit "echo a\n", lit "echo b\n"], IsLine line ∧ line.length ≤ MAX_STR_LEN := by
    rw [List.forall_mem_cons, List.forall_mem_singleton]
    exact ⟨⟨⟨lit "echo a", by decide, rfl⟩, by decide⟩, ⟨⟨lit "echo b", by decide, rfl⟩, by decide⟩⟩
  have differ : (main_loop bare 1024 (List.replicate 3 zeros)
        ⟨start zeros (), pending [lit "echo a\n", lit "echo b\n"]⟩).flatMap printed ≠
      (main_loop bare 1024 (List.replicate 3 zeros)
        ⟨start zeros (), pending [lit "echo a\necho b\n"]⟩).flatMap printed := by decide +kernel
  exact differ (same _ _ lines (by decide) (by decide) _)

section
variable {k : Kernel W} {bufsiz : Nat} {stack : Residue} {s : Shell W}

/-- Skipping through the rest of a line leaves the lines behind it. -/
private theorem skip_line (positive : 0 < bufsiz) {rest : List Byte} (isLine : IsLine rest) (lines : List (List Byte)) :
    let stdin : Stdin := ⟨remaining rest (lines.map some), [], false⟩
    skipThrough (chr '\n') bufsiz (stdin.size + 1) stdin = pending lines := by
  intro stdin
  obtain ⟨body, plain, rfl⟩ := isLine
  apply skipThrough_line positive (lines.map some) (by simp) (List.nil_append _) plain
  have enough : (body ++ [chr '\n']).length ≤ stdin.size := length_le_size_remaining ..
  rw [List.length_append] at enough
  omega

/-- A line that is delivered is read, or its first bytes are. -/
private theorem read_line (line : List Byte) (lines : List (List Byte)) :
    read (MAX_STR_LEN + 1) (pending (line :: lines)).deliveries =
      (some (line.take (MAX_STR_LEN + 1)), remaining (line.drop (MAX_STR_LEN + 1)) (lines.map some)) := rfl

private theorem turn_take (line : List Byte) : turn k stack (line.take (MAX_STR_LEN + 1)) s = turn k stack line s := by
  unfold turn refuse
  by_cases short : line.length ≤ MAX_STR_LEN
  · rw [List.take_of_length_le (Nat.le_succ_of_le short), if_pos short, if_pos short]
  · have long : ¬ (line.take (MAX_STR_LEN + 1)).length ≤ MAX_STR_LEN := by
      rw [List.length_take]
      omega
    rw [if_neg long, if_neg short, List.take_take, Nat.min_self]

private theorem left_long {line : List Byte} (long : MAX_STR_LEN < line.length) (lines : List (List Byte)) :
    let stdin : Stdin := ⟨remaining (line.drop (MAX_STR_LEN + 1)) (lines.map some), [], false⟩
    left bufsiz (pending (line :: lines)) = skipThrough (chr '\n') bufsiz (stdin.size + 1) stdin := by
  have size : (line.take (MAX_STR_LEN + 1)).length > MAX_STR_LEN := by
    rw [List.length_take]
    omega
  simp only [left, get_input, read_line, if_pos size]
  rfl

/-- A line is handled by itself, unless it has `MAX_STR_LEN + 1` bytes and another line follows. -/
private theorem main_round_line (positive : 0 < bufsiz) (sized : s.Sized) {line : List Byte} (isLine : IsLine line)
    {lines : List (List Byte)} (framed : line.length = MAX_STR_LEN + 1 → lines = []) :
    main_round k bufsiz stack ⟨s, pending (line :: lines)⟩ = leaving (afterText line lines) (turn k stack line s) := by
  rw [main_round_read (m := ⟨s, pending (line :: lines)⟩) sized (read_line line lines), turn_take]
  congr 1
  by_cases short : line.length ≤ MAX_STR_LEN
  · have small : ¬ (line.take (MAX_STR_LEN + 1)).length > MAX_STR_LEN := by
      rw [List.length_take]
      omega
    have other : ¬ line.length = MAX_STR_LEN + 1 := by omega
    rw [left, get_input, read_line, List.drop_eq_nil_of_le (Nat.le_succ_of_le short)]
    simp only [small, ↓reduceIte, afterText, other, false_and, decide_false]
    rfl
  rw [left_long (Nat.lt_of_not_le short) lines]
  by_cases edge : line.length = MAX_STR_LEN + 1
  · rw [framed edge, List.drop_eq_nil_of_le (Nat.le_of_eq edge), afterText, decide_eq_true ⟨edge, rfl⟩]
    exact skipThrough_end ..
  · have rest : IsLine (line.drop (MAX_STR_LEN + 1)) := by
      obtain ⟨body, plain, rfl⟩ := isLine
      rw [List.length_append, List.length_singleton] at short edge
      refine ⟨body.drop (MAX_STR_LEN + 1), fun member => plain (List.mem_of_mem_drop member), ?_⟩
      rw [List.drop_append_of_le_length (by omega)]
    have skipped := skip_line positive rest lines
    dsimp only at skipped
    rw [skipped, afterText, pending]
    simp [edge]

/-- Behind a line of `MAX_STR_LEN + 1` bytes, all of which `read` has taken, `getchar` reads the next one. -/
private theorem main_round_edge (positive : 0 < bufsiz) (sized : s.Sized) {line : List Byte}
    (edge : line.length = MAX_STR_LEN + 1) {next : List Byte} (isLine : IsLine next) (lines : List (List Byte)) :
    main_round k bufsiz stack ⟨s, pending (line :: next :: lines)⟩ =
      ⟨display_message prompt ++ [.stderr tooLong], .next ⟨refuse line s, pending lines⟩⟩ := by
  have nonempty : next ≠ [] := by
    obtain ⟨body, -, rfl⟩ := isLine
    simp
  have long : ¬ line.length ≤ MAX_STR_LEN := by omega
  have skipped := skip_line positive isLine lines
  dsimp only at skipped
  rw [remaining_ne_nil nonempty] at skipped
  rw [main_round_read (m := ⟨s, pending (line :: next :: lines)⟩) sized (read_line line (next :: lines)), turn_take,
    left_long (Nat.lt_of_not_le long), List.drop_eq_nil_of_le (Nat.le_of_eq edge), remaining_nil, List.map_cons, skipped, turn,
    if_neg long]
  rfl

/-- Where the input has ended it does not matter what else there is to it. -/
private theorem main_loop_end (sized : s.Sized) {stdin : Stdin} (ended : stdin.deliveries = []) (residues : List Residue) :
    main_loop k bufsiz residues ⟨s, stdin⟩ = turns k residues s [] := by
  cases residues with
  | nil => rfl
  | cons stack residues => simp only [main_loop, turns, main_round_end (m := ⟨s, stdin⟩) sized ended, leaving, step_eof, map]

end

/-- No line of exactly `MAX_STR_LEN + 1` bytes that the shell comes to is followed by another line. -/
def Framed (k : Kernel W) : List Residue → Shell W → List (List Byte) → Prop
  | [], _, _ => True
  | _, _, [] => True
  | stack :: residues, s, line :: lines =>
    (line.length = MAX_STR_LEN + 1 → lines = []) ∧
      match (turn k stack line s).outcome with
      | .next s => Framed k residues s lines
      | _ => True

private theorem main_loop_eq_turns_iff {k : Kernel W} {bufsiz : Nat} (positive : 0 < bufsiz) {s : Shell W} (sized : s.Sized)
    {lines : List (List Byte)} (isLine : ∀ line ∈ lines, IsLine line) (residues : List Residue) :
    main_loop k bufsiz residues ⟨s, pending lines⟩ = turns k residues s lines ↔ Framed k residues s lines := by
  induction residues generalizing s lines with
  | nil => simp [main_loop, turns, Framed]
  | cons stack residues ih =>
    cases lines with
    | nil => simp only [@main_loop_end _ k bufsiz s sized (pending []) rfl, Framed]
    | cons line lines =>
      rw [List.forall_mem_cons] at isLine
      obtain ⟨here, later⟩ := isLine
      by_cases framed : line.length = MAX_STR_LEN + 1 → lines = []
      · rw [main_loop, turns, Framed, main_round_line positive sized here framed, leaving]
        cases next : (turn k stack line s).outcome with
        | next s' =>
          have sized' := sized_turn sized next
          simp only [map, List.cons.injEq, true_and, and_iff_right framed]
          by_cases last : lines = []
          · subst last
            rw [main_loop_end sized' rfl]
            cases residues <;> simp [Framed]
          · have same : afterText line lines = pending lines := by simp [afterText, pending, last]
            rw [same]
            exact ih sized' later
        | exit => simpa [map] using framed
        | undefined => simpa [map] using framed
      · -- the next line is gone when the loop comes round again
        rw [Classical.not_imp] at framed
        obtain ⟨edge, more⟩ := framed
        obtain ⟨next, lines, rfl⟩ := List.exists_cons_of_ne_nil more
        have long : ¬ line.length ≤ MAX_STR_LEN := by omega
        rw [main_loop, turns, Framed, main_round_edge positive sized edge (later next (by simp)), turn, if_neg long]
        simp [leaving, map, pending, afterText, edge]

/-- From its start the shell handles every line by itself exactly when no line of `MAX_STR_LEN + 1` bytes
    that it comes to is followed by another one. -/
theorem main_loop_lines_iff (k : Kernel W) {bufsiz : Nat} (positive : 0 < bufsiz) (stack : Residue) (w : W)
    {lines : List (List Byte)} (isLine : ∀ line ∈ lines, IsLine line) (residues : List Residue) :
    main_loop k bufsiz residues ⟨start stack w, pending lines⟩ = turns k residues (start stack w) lines ↔
      Framed k residues (start stack w) lines :=
  main_loop_eq_turns_iff positive (reachable_sized (Reachable.start (k := k) stack w)) isLine residues

/-- A line of so many bytes in front of its newline. -/
def lineOf (count : Nat) : List Byte := List.replicate count (chr 'a') ++ [chr '\n']

private theorem isLine_lineOf (count : Nat) : IsLine (lineOf count) := by
  have noNewline : chr '\n' ∉ List.replicate count (chr 'a') := by
    intro member
    exact absurd (List.eq_of_mem_replicate member) (by decide)
  exact ⟨List.replicate count (chr 'a'), noNewline, rfl⟩

theorem main_loop_lines_around :
    main_loop bare 1024 (List.replicate 4 zeros) ⟨start zeros (), pending [lineOf 127, lineOf 199, lineOf 128]⟩ =
        turns bare (List.replicate 4 zeros) (start zeros ()) [lineOf 127, lineOf 199, lineOf 128] ↔
      Framed bare (List.replicate 4 zeros) (start zeros ()) [lineOf 127, lineOf 199, lineOf 128] :=
  main_loop_lines_iff bare (by decide) zeros () (by simp [isLine_lineOf]) _

/-- Behind a line of 129 bytes the next command is skipped. -/
theorem main_loop_skips_line : ¬ ∀ lines : List (List Byte), (∀ line ∈ lines, IsLine line) → ∀ residues : List Residue,
    main_loop bare 1024 residues ⟨start zeros (), pending lines⟩ = turns bare residues (start zeros ()) lines := by
  intro handled
  have lines : ∀ line ∈ [lineOf 128, lit "echo b\n"], IsLine line := by
    rw [List.forall_mem_cons, List.forall_mem_singleton]
    exact ⟨isLine_lineOf 128, lit "echo b", by decide, rfl⟩
  have differ : (main_loop bare 1024 (List.replicate 3 zeros)
        ⟨start zeros (), pending [lineOf 128, lit "echo b\n"]⟩).flatMap printed ≠
      (turns bare (List.replicate 3 zeros) (start zeros ()) [lineOf 128, lit "echo b\n"]).flatMap printed := by
    decide +kernel
  exact differ (congrArg _ (handled _ lines _))

end BashInC.Input
