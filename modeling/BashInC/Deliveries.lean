import BashInC.Clib.Cuts
import BashInC.Descriptors

/-!
One stream of lines delivered in different ways. What one `read` returns is a
command when it is at most `MAX_STR_LEN` bytes, and else an error behind which
`getchar` drops bytes of the lines that follow, and what it reads ahead is never a
command (`Dropping`). The shell executes what is read and kept, piece by piece,
which are the lines exactly when each piece is a line up to the blanks at its ends
(`deliveries_execute`).
-/
namespace BashInC.Deliveries
open Clib.Strings Clib.Streams Clib.Fields Clib.Cuts BashInC.IoHelpers BashInC.Echo BashInC.Mysh BashInC.Commands
open BashInC.Sessions BashInC.Input BashInC.Descriptors BashInC.System
variable {W : Type*}

/-! ### What is taken from the input -/

/-- A way in which the kernel hands out a stream: each read, also one that `getchar` makes, returns the next of the
    pieces, or as many bytes of it as it asks for. -/
structure Splitting (stream : List Byte) where
  pieces : List (List Byte)
  nonempty : ∀ piece ∈ pieces, piece ≠ []
  whole : pieces.flatten = stream

def Splitting.stdin {stream : List Byte} (split : Splitting stream) : Stdin := pending split.pieces

theorem Splitting.flowing {stream : List Byte} (split : Splitting stream) : split.stdin.Flowing := by
  refine ⟨?_, fun ended => nomatch ended⟩
  intro delivery member
  obtain ⟨piece, isPiece, rfl⟩ := List.mem_map.mp member
  exact ⟨piece, rfl, split.nonempty piece isPiece⟩

/-- What a call of `get_input` takes: the text that `read` returns, what `getchar` has to read behind it, and what
    `getchar` has then read ahead. -/
structure Taking where
  text : List Byte
  lost : List Byte
  ahead : List Byte
  deriving DecidableEq

/-- What the first calls of `get_input` take, at most so many, up to the end of the input. -/
def firstTakings (bufsiz : Nat) : Nat → Stdin → List Taking
  | 0, _ => []
  | count + 1, stdin =>
    match read (MAX_STR_LEN + 1) stdin.deliveries with
    | (some (c :: text), later) =>
      let after := left bufsiz stdin
      ⟨c :: text, later.bytes.take (later.bytes.length - after.deliveries.bytes.length), after.ahead⟩ ::
        firstTakings bufsiz count after
    | _ => []

/-- What all calls of `get_input` take, as each takes something. -/
def takings (bufsiz : Nat) (stdin : Stdin) : List Taking := firstTakings bufsiz stdin.deliveries.bytes.length stdin

/-- How bytes are lost, when these are read ahead at first. Behind a command none are. Behind a longer text everything
    through the next newline is: first what was read ahead before, and then, if that holds none, what is read for it,
    with what the last of these reads brings behind the newline. Without a newline all that is to come is lost. -/
inductive Dropping (bufsiz : Nat) : List Byte → List Taking → Prop
  | none {ahead : List Byte} : Dropping bufsiz ahead []
  | command {text ahead : List Byte} {later : List Taking} : text.length ≤ MAX_STR_LEN → Dropping bufsiz ahead later →
      Dropping bufsiz ahead (⟨text, [], ahead⟩ :: later)
  | line {text ahead lost junk ahead' : List Byte} {later : List Taking} : text.length = MAX_STR_LEN + 1 →
      chr '\n' ∉ junk → ahead ++ lost = junk ++ chr '\n' :: ahead' →
      (lost = [] ∨ chr '\n' ∉ ahead ∧ ahead'.length < bufsiz) → Dropping bufsiz ahead' later →
      Dropping bufsiz ahead (⟨text, lost, ahead'⟩ :: later)
  | rest {text ahead lost : List Byte} : text.length = MAX_STR_LEN + 1 → chr '\n' ∉ ahead ++ lost →
      Dropping bufsiz ahead [⟨text, lost, []⟩]

/-! ### What is executed -/

/-- What of a text is a command. -/
def kept (text : List Byte) : List Byte := if text.length ≤ MAX_STR_LEN then text else []

/-- The words of the commands among the texts that are taken, one by one; one without words is none. -/
def commands (taken : List Taking) : List (List (List Byte)) :=
  (taken.map fun t => words (CStr.of (kept t.text))).filter (!·.isEmpty)

/-- The commands as they are read, but for the blanks at their ends. -/
def trimmed (taken : List Taking) : List (List Byte) := cores (among DELIMITERS) (taken.map fun t => kept t.text)

/-- What a call of `get_input` takes without its being a command. -/
def dropped (t : Taking) : List Byte := if t.text.length ≤ MAX_STR_LEN then t.lost else t.text ++ t.lost

/-- Nothing but blanks is dropped. -/
def Spares (taken : List Taking) : Prop := ∀ t ∈ taken, ∀ b ∈ dropped t, among DELIMITERS b = true

/-- The words of the commands that the shell executes in these rounds. -/
def executed (k : Kernel W) (bufsiz : Nat) : List Residue → Main W → List (List (List Byte))
  | [], _ => []
  | stack :: residues, m =>
    let later := match (main_round k bufsiz stack m).outcome with
      | .next m => executed k bufsiz residues m
      | _ => []
    if commandWords m.stdin = [] then later else commandWords m.stdin :: later

/-- What is taken in these rounds. -/
def reached (k : Kernel W) (bufsiz : Nat) (residues : List Residue) (m : Main W) : List Taking :=
  (takings bufsiz m.stdin).take (main_loop k bufsiz residues m).length

/-- In these rounds the shell takes all of its input. -/
def TakesAll (k : Kernel W) (bufsiz : Nat) (residues : List Residue) (m : Main W) : Prop :=
  reached k bufsiz residues m = takings bufsiz m.stdin

/-- A round without what it leaves of the input. -/
def shells (round : Round (Main W)) : Round (Shell W) := ⟨round.events, map Main.shell round.outcome⟩

/-! ### One call of `get_input` -/

section
variable {bufsiz : Nat} {stdin : Stdin}

/-- A call of `get_input` takes `t`, as there is something to come. -/
private structure Takes (bufsiz : Nat) (stdin : Stdin) (t : Taking) : Prop where
  got : ∃ later, read (MAX_STR_LEN + 1) stdin.deliveries = (some t.text, later)
  nonempty : t.text ≠ []
  bytes : stdin.deliveries.bytes = t.text ++ t.lost ++ (left bufsiz stdin).deliveries.bytes
  ahead : t.ahead = (left bufsiz stdin).ahead
  flows : (left bufsiz stdin).Flowing
  drops : ∀ later, ((left bufsiz stdin).deliveries = [] → later = []) → Dropping bufsiz t.ahead later →
    Dropping bufsiz stdin.ahead (t :: later)

private theorem takes (positive : 0 < bufsiz) (flows : stdin.Flowing) (more : stdin.deliveries ≠ []) :
    ∃ t, Takes bufsiz stdin t ∧
      ∀ count, firstTakings bufsiz (count + 1) stdin = t :: firstTakings bufsiz count (left bufsiz stdin) := by
  obtain ⟨text, later, got, nonempty, each, bytes⟩ := read_each flows.each more (show 0 < MAX_STR_LEN + 1 by omega)
  have flows' : Stdin.Flowing { stdin with deliveries := later } := ⟨each, fun ended => absurd (flows.ended ended) more⟩
  have first : ∀ {lost : List Byte}, later.bytes = lost ++ (left bufsiz stdin).deliveries.bytes → ∀ count,
      firstTakings bufsiz (count + 1) stdin =
        ⟨text, lost, (left bufsiz stdin).ahead⟩ :: firstTakings bufsiz count (left bufsiz stdin) := by
    intro lost split count
    obtain ⟨c, text, rfl⟩ := List.exists_cons_of_ne_nil nonempty
    simp [firstTakings, got, split]
  by_cases short : text.length ≤ MAX_STR_LEN
  · have fits : ¬ text.length > MAX_STR_LEN := by omega
    have isLeft : left bufsiz stdin = { stdin with deliveries := later } := by simp only [left, get_input, got, if_neg fits]
    have split : later.bytes = [] ++ (left bufsiz stdin).deliveries.bytes := by rw [isLeft, List.nil_append]
    refine ⟨_, ⟨⟨later, got⟩, nonempty, ?_, rfl, ?_, ?_⟩, first split⟩
    · rw [bytes, split, List.append_nil, List.nil_append]
    · rw [isLeft]
      exact flows'
    · intro later' _ behind
      rw [isLeft] at behind ⊢
      exact .command short behind
  · have long : text.length = MAX_STR_LEN + 1 := by
      have bound := length_read got
      omega
    have isLeft : left bufsiz stdin = skipThrough (chr '\n') bufsiz (Stdin.size { stdin with deliveries := later } + 1)
        { stdin with deliveries := later } := by
      simp only [left, get_input, got, if_pos (Nat.lt_of_not_le short)]
    obtain ⟨lost, skips⟩ := skipThrough_skips (chr '\n') positive flows' (Nat.lt_succ_self _)
    rw [← isLeft] at skips
    refine ⟨_, ⟨⟨later, got⟩, nonempty, ?_, rfl, skips.flows, ?_⟩, first skips.bytes⟩
    · rw [bytes, skips.bytes, List.append_assoc]
    · intro later' ended behind
      rcases skips.through with ⟨junk, plain, through⟩ | ⟨plain, noneAhead, noMore⟩
      · exact .line long plain through skips.few behind
      · obtain rfl := ended noMore
        rw [noneAhead]
        exact .rest long plain

/-- At the end of the input nothing is taken. -/
private theorem firstTakings_end (ended : stdin.deliveries = []) (count : Nat) : firstTakings bufsiz count stdin = [] := by
  cases count with
  | zero => rfl
  | succ count =>
    have nothing : read (MAX_STR_LEN + 1) stdin.deliveries = (some [], []) := by rw [ended]; rfl
    simp only [firstTakings, nothing]

/-- Line by line nothing is lost. -/
private theorem firstTakings_lines {lines : List (List Byte)} (isLine : ∀ line ∈ lines, IsLine line ∧ line.length ≤ MAX_STR_LEN)
    {count : Nat} (enough : lines.flatten.length ≤ count) :
    firstTakings bufsiz count (pending lines) = lines.map (⟨·, [], []⟩) := by
  induction lines generalizing count with
  | nil => exact firstTakings_end rfl count
  | cons line lines ih =>
    rw [List.forall_mem_cons] at isLine
    obtain ⟨⟨⟨body, -, isBody⟩, short⟩, later⟩ := isLine
    obtain ⟨c, text, rfl⟩ : ∃ c text, line = c :: text := List.exists_cons_of_ne_nil (by simp [isBody])
    rw [List.flatten_cons, List.length_append, List.length_cons] at enough
    obtain ⟨count, rfl⟩ : ∃ n, count = n + 1 := ⟨count - 1, by omega⟩
    have got : read (MAX_STR_LEN + 1) (pending ((c :: text) :: lines)).deliveries = (some (c :: text), lines.map some) :=
      read_whole (Nat.le_succ_of_le short) _
    have isLeft : left bufsiz (pending ((c :: text) :: lines)) = pending lines := by
      simp only [left, get_input, got, if_neg (Nat.not_lt_of_le short)]
      rfl
    simp only [firstTakings, got, isLeft, ih later (show _ ≤ count by omega)]
    simp [pending]

/-- What is taken is the input, and what is lost of it. -/
private theorem firstTakings_drops (positive : 0 < bufsiz) (flows : stdin.Flowing) {count : Nat}
    (enough : stdin.deliveries.bytes.length ≤ count) :
    ((firstTakings bufsiz count stdin).flatMap fun t => t.text ++ t.lost) = stdin.deliveries.bytes ∧
      Dropping bufsiz stdin.ahead (firstTakings bufsiz count stdin) := by
  induction count generalizing stdin with
  | zero =>
    rw [List.length_eq_zero_iff.mp (Nat.le_zero.mp enough)]
    exact ⟨rfl, .none⟩
  | succ count ih =>
    by_cases more : stdin.deliveries = []
    · rw [firstTakings_end more, more]
      exact ⟨rfl, .none⟩
    obtain ⟨t, taken, first⟩ := takes positive flows more
    have sizes := congrArg List.length taken.bytes
    have some := List.length_pos_of_ne_nil taken.nonempty
    simp only [List.length_append] at sizes
    obtain ⟨bytes, drops⟩ := ih taken.flows (by omega)
    rw [first]
    constructor
    · rw [List.flatMap_cons, bytes, ← taken.bytes]
    · rw [← taken.ahead] at drops
      exact taken.drops _ (fun ended => firstTakings_end ended count) drops

/-! ### Rounds -/

@[simp] private theorem shells_leaving (stdin : Stdin) (round : Round (Shell W)) : shells (leaving stdin round) = round := by
  rcases round with ⟨events, outcome⟩
  cases outcome <;> rfl

private theorem commands_cons (t : Taking) (taken : List Taking) : commands (t :: taken) =
    if words (CStr.of (kept t.text)) = [] then commands taken else words (CStr.of (kept t.text)) :: commands taken := by
  by_cases none : words (CStr.of (kept t.text)) = [] <;> simp [commands, none]

private theorem commandWords_read {text : List Byte} {later : Deliveries}
    (got : read (MAX_STR_LEN + 1) stdin.deliveries = (some text, later)) :
    commandWords stdin = words (CStr.of (kept text)) := by
  by_cases short : text.length ≤ MAX_STR_LEN
  · simp only [commandWords, got, kept, if_pos short]
  · simp only [commandWords, got, kept, if_neg short]
    rfl

/-- Round by round the shell handles the texts that it reads, and executes those that are commands. -/
private theorem main_loop_takings (k : Kernel W) (positive : 0 < bufsiz) (residues : List Residue) {s : Shell W}
    (sized : s.Sized) (flows : stdin.Flowing) {count : Nat} (enough : stdin.deliveries.bytes.length ≤ count) :
    let taken := firstTakings bufsiz count stdin
    let rounds := main_loop k bufsiz residues ⟨s, stdin⟩
    rounds.map shells = (turns k residues s (taken.map Taking.text)).map shells ∧
      executed k bufsiz residues ⟨s, stdin⟩ = commands (taken.take rounds.length) := by
  induction residues generalizing s stdin count with
  | nil => exact ⟨rfl, rfl⟩
  | cons stack residues ih =>
    by_cases more : stdin.deliveries = []
    · have round := @main_round_end _ k bufsiz stack ⟨s, stdin⟩ sized more
      have nothing : commandWords stdin = [] := @commandWords_read stdin [] [] (by rw [more]; rfl)
      simp only [main_loop, executed, round, nothing, firstTakings_end more, List.map_nil, turns, step_eof, leaving, map]
      exact ⟨trivial, rfl⟩
    obtain ⟨t, taken, first⟩ := takes positive flows more
    obtain ⟨later, got⟩ := taken.got
    have sizes := congrArg List.length taken.bytes
    have some := List.length_pos_of_ne_nil taken.nonempty
    simp only [List.length_append] at sizes
    obtain ⟨count, rfl⟩ : ∃ n, count = n + 1 := ⟨count - 1, by omega⟩
    have round : main_round k bufsiz stack ⟨s, stdin⟩ = _ := main_round_read (m := ⟨s, stdin⟩) sized got
    have isWords := commandWords_read got
    simp only [first, List.map_cons, main_loop, executed, turns, round, isWords, shells_leaving]
    cases next : (turn k stack t.text s).outcome with
    | next s' =>
      obtain ⟨same, ran⟩ := ih (sized_turn sized next) taken.flows (show _ ≤ count by omega)
      have goesOn : (leaving (left bufsiz stdin) (turn k stack t.text s)).outcome = .next ⟨s', left bufsiz stdin⟩ := by
        rw [leaving, next]
        rfl
      simp only [goesOn, List.length_cons, List.take_succ_cons, commands_cons, same, ran, and_self]
    | exit | undefined =>
      simp only [leaving, next, map, List.map_nil, List.length_cons, List.length_nil, List.take_succ_cons, List.take_zero,
        commands_cons]
      exact ⟨trivial, rfl⟩

end

/-! ### Deliveries of one stream -/

/-- What is taken as pieces of the input, each the command and what is dropped behind it. -/
private def segments (taken : List Taking) : List (List Byte × List Byte) := taken.map fun t => (kept t.text, dropped t)

private theorem whole_segments (taken : List Taking) :
    Clib.Cuts.whole (segments taken) = taken.flatMap fun t => t.text ++ t.lost := by
  rw [segments, Clib.Cuts.whole, List.flatMap_map]
  congr 1
  funext t
  by_cases short : t.text.length ≤ MAX_STR_LEN <;> simp [kept, dropped, short]

private theorem segments_kept (taken : List Taking) : (segments taken).map Prod.fst = taken.map fun t => kept t.text := by
  simp [segments]

private theorem segments_spare {taken : List Taking} (spares : Spares taken) :
    ∀ segment ∈ segments taken, ∀ b ∈ segment.2, among DELIMITERS b = true := List.forall_mem_map.mpr spares

private theorem commands_eq {taken : List Taking} (noNul : ∀ t ∈ taken, 0 ∉ t.text) :
    commands taken = fieldsOf (among DELIMITERS) (taken.map fun t => kept t.text) := by
  have same : ∀ t ∈ taken, words (CStr.of (kept t.text)) = fields (among DELIMITERS) (kept t.text) := by
    intro t member
    have plain : 0 ∉ kept t.text := by
      unfold kept
      split
      · exact noNul t member
      · simp
    rw [CStr.of_noNul plain, words]
  rw [commands, fieldsOf, List.map_map, List.map_congr_left same]
  rfl

section
variable {bufsiz : Nat} {stream : List Byte}

private theorem takings_drops (positive : 0 < bufsiz) (split : Splitting stream) :
    ((takings bufsiz split.stdin).flatMap fun t => t.text ++ t.lost) = stream ∧
      Dropping bufsiz [] (takings bufsiz split.stdin) := by
  obtain ⟨isStream, drops⟩ := firstTakings_drops positive split.flowing (Nat.le_refl _)
  exact ⟨isStream.trans ((bytes_map_some split.pieces).trans split.whole), drops⟩

private theorem noNul_takings (positive : 0 < bufsiz) (noNul : 0 ∉ stream) (split : Splitting stream) :
    ∀ t ∈ takings bufsiz split.stdin, 0 ∉ t.text := by
  intro t member nul
  apply noNul
  rw [← (takings_drops positive split).1, List.mem_flatMap]
  exact ⟨t, member, List.mem_append_left _ nul⟩

private theorem reached_append (k : Kernel W) (positive : 0 < bufsiz) (residues : List Residue) (s : Shell W)
    (split : Splitting stream) :
    ∃ rest, Clib.Cuts.whole (segments (reached k bufsiz residues ⟨s, split.stdin⟩)) ++ rest = stream := by
  refine ⟨((takings bufsiz split.stdin).drop (main_loop k bufsiz residues ⟨s, split.stdin⟩).length).flatMap
    fun t => t.text ++ t.lost, ?_⟩
  rw [whole_segments, reached, ← List.flatMap_append, List.take_append_drop, (takings_drops positive split).1]

end

/-- However a stream of lines is handed out, every call of `get_input` reads the next bytes of it but for those that are
    lost behind texts that are too long, and the shell handles each text by itself. Read line by line it executes the
    lines. Of two ways of handing the stream out, one of which drops nothing but blanks, it executes the same commands
    exactly when these are the same as they are read, up to the blanks at their ends, if the other drops nothing else
    either or the shell takes all of its input. -/
theorem deliveries_execute (k : Kernel W) {bufsiz : Nat} (positive : 0 < bufsiz) {s : Shell W} (sized : s.Sized)
    {lines : List (List Byte)} (isLine : ∀ line ∈ lines, IsLine line ∧ line.length ≤ MAX_STR_LEN)
    (noNul : ∀ line ∈ lines, 0 ∉ line) (split : Splitting lines.flatten) (residues : List Residue) :
    let m : Main W := ⟨s, split.stdin⟩
    let taken := takings bufsiz split.stdin
    taken.flatMap (fun t => t.text ++ t.lost) = lines.flatten ∧ Dropping bufsiz [] taken ∧
      (main_loop k bufsiz residues m).map shells = (turns k residues s (taken.map Taking.text)).map shells ∧
      executed k bufsiz residues m = commands (reached k bufsiz residues m) ∧
      takings bufsiz (pending lines) = lines.map (⟨·, [], []⟩) ∧
      ∀ (other : Splitting lines.flatten) (residues' : List Residue),
        let m' : Main W := ⟨s, other.stdin⟩
        Spares (reached k bufsiz residues' m') →
          (Spares (reached k bufsiz residues m) ∨ TakesAll k bufsiz residues m ∧ TakesAll k bufsiz residues' m') →
            (executed k bufsiz residues m = executed k bufsiz residues' m' ↔
              trimmed (reached k bufsiz residues m) = trimmed (reached k bufsiz residues' m')) := by
  intro m taken
  have nulFree : 0 ∉ lines.flatten := by
    rw [List.mem_flatten]
    rintro ⟨line, member, nul⟩
    exact noNul line member nul
  have run : ∀ (split : Splitting lines.flatten) (residues : List Residue),
      executed k bufsiz residues ⟨s, split.stdin⟩ = commands (reached k bufsiz residues ⟨s, split.stdin⟩) :=
    fun split residues => (main_loop_takings k positive residues sized split.flowing (Nat.le_refl _)).2
  refine ⟨(takings_drops positive split).1, (takings_drops positive split).2,
    (main_loop_takings k positive residues sized split.flowing (Nat.le_refl _)).1, run split residues, ?_, ?_⟩
  · apply firstTakings_lines isLine
    rw [pending, bytes_map_some]
  · intro other residues' m' spares some
    have plain : ∀ t ∈ reached k bufsiz residues m, 0 ∉ t.text := fun t member =>
      noNul_takings positive nulFree split t (List.mem_of_mem_take member)
    have plain' : ∀ t ∈ reached k bufsiz residues' m', 0 ∉ t.text := fun t member =>
      noNul_takings positive nulFree other t (List.mem_of_mem_take member)
    rw [run, run, commands_eq plain, commands_eq plain', trimmed, trimmed, ← segments_kept, ← segments_kept]
    rcases some with spares' | ⟨all, all'⟩
    · obtain ⟨rest, here⟩ := reached_append k positive residues s split
      obtain ⟨rest', there⟩ := reached_append k positive residues' s other
      exact fieldsOf_kept_append_iff (here.trans there.symm) (segments_spare spares') (segments_spare spares)
    · apply fieldsOf_kept_iff _ (segments_spare spares)
      rw [all, all', whole_segments, whole_segments, (takings_drops positive split).1, (takings_drops positive other).1]

/-- Forty short lines. -/
def crowd : List (List Byte) := List.replicate 40 (lit "echo a\n")

/-- The lines are all there when the shell first reads. -/
def crowded : Splitting crowd.flatten := ⟨[crowd.flatten], by simp [crowd, lit], by simp⟩

/-- Two reads are too long, and what is behind the second of them is the end of a line. -/
example : commands (takings 16 crowded.stdin) = [[lit "cho", lit "a"]] := by decide +kernel

theorem deliveries_execute_crowd :
    executed bare 16 (List.replicate 3 zeros) ⟨start zeros (), crowded.stdin⟩ =
      commands (reached bare 16 (List.replicate 3 zeros) ⟨start zeros (), crowded.stdin⟩) := by
  have isLine : ∀ line ∈ crowd, IsLine line ∧ line.length ≤ MAX_STR_LEN := by
    intro line member
    obtain rfl := List.eq_of_mem_replicate member
    exact ⟨⟨lit "echo a", by decide, rfl⟩, by decide⟩
  have noNul : ∀ line ∈ crowd, 0 ∉ line := by
    intro line member
    obtain rfl := List.eq_of_mem_replicate member
    decide
  have sized := reachable_sized (Reachable.start (k := bare) zeros ())
  exact (deliveries_execute bare (by decide) sized isLine noNul crowded _).2.2.2.1

end BashInC.Deliveries
