import BashInC.Dispatch
import BashInC.Refinement
import BashInC.Replacing
import Mathlib.Algebra.GroupWithZero.Nat

/-!
The main loop of milestone 4, whose tokens point into `input_buf` while the blocks
that were allocated for them are lost, and which frees the tokens behind every
builtin. No session comes past a builtin: the first line that is neither blank nor
an assignment decides (`session_fates`). A session up to it expands nothing
(`session_literal`) and loses a block for every word (`session_loses_blocks`).
-/
namespace BashInC.Milestone4
open Clib.Fields Clib.Strings Clib.Buffers BashInC.IoHelpers BashInC.Expansion BashInC.Variables
open BashInC.Echo BashInC.System BashInC.Listing BashInC.Mysh BashInC.Commands BashInC.Sessions
variable {W : Type*}

/-! ### The code -/

/-- The state of `main`, with what `malloc` has returned so far, `none` once it is freed. -/
structure Shell (W : Type*) extends Mysh.Shell W where
  blocks : List (Option Buffer)

/-- An address in `input_buf`, or a block that `malloc` has returned. -/
inductive Pointer
  | input_buf (offset : Nat)
  | block (i : Nat)

/-- `free(p)`, which is defined for blocks that are not freed. -/
def free (blocks : List (Option Buffer)) : Pointer → Option (List (Option Buffer))
  | .input_buf _ => none
  | .block i => if (blocks.getD i none).isSome then some (blocks.set i none) else none

/-- `for (size_t i = 0; i < token_count; i++) { free(token_arr[i]); }`; `free(NULL)` does nothing. -/
def free_tokens (blocks : List (Option Buffer)) : List (Option Pointer) → Option (List (Option Buffer))
  | [] => some blocks
  | none :: rest => free_tokens blocks rest
  | some p :: rest => (free blocks p).bind (free_tokens · rest)

/-- The code of the builtins is that of milestone 3. -/
def builtin : Dispatch.Builtin → Builtin
  | .bn_echo => .bn_echo
  | .word_count => .word_count
  | .cat => .cat
  | .cd => .cd
  | .bn_ls => .bn_ls

/-- The end of a round that has called a builtin, or come back from `external`. -/
def finish (s : Shell W) (token_count : Nat) : Outcome (Shell W) :=
  match free_tokens s.blocks ((s.token_arr.take token_count).map (Option.map Pointer.input_buf)) with
  | some blocks => .next { s with blocks := blocks }
  | none => .undefined

/-- The command of a line with a first token; `pid` is what `fork` returns in `external`. -/
def command (k : Kernel W) (stack : Residue) (pid : Int) (s : Shell W) (token_count token : Nat) :
    List Event × Outcome (Shell W) :=
  let cmd := cstr s.input_buf token
  if cmd.take 4 = lit "exit" ∧ cmd.getD 4 0 = 0 then ([], .exit)
  else if chr '=' ∈ cmd then
    let (events, assigned) := assignment s.toShell token
    (events, .next ⟨assigned, s.blocks⟩)
  else
    match Dispatch.check_builtin cmd with
    | some fn =>
      let (effect, mem) := call_builtin k stack s.toShell (builtin fn)
      let failed := if effect.ret = -1 then display_error (lit "ERROR: Builtin failed: ") (cstr mem token) else []
      (effect.events ++ failed, finish { s with input_buf := mem, world := effect.world } token_count)
    | none =>
      let tokens := (s.token_arr.take token_count).filterMap (Option.map (cstr s.input_buf))
      ([], if (Dispatch.external pid tokens).returns then finish s token_count else .exit)

/-- What `main` does behind `get_input`, which has returned `ret`; `malloc` is what it returns for each token. -/
def main_body (k : Kernel W) (stack : Residue) (pid : Int) (malloc : Nat → Option Residue) (ret : Int) (s : Shell W) :
    List Event × Outcome (Shell W) :=
  match Replacing.tokenize_input s.vars malloc s.input_buf s.token_arr with
  | none => ([], .undefined)
  | some t =>
    if ∀ b ∈ t.new_tokens, b.InBounds then
      let s := { s with input_buf := t.mem, token_arr := t.tokens, blocks := s.blocks ++ t.new_tokens.map some }
      if ret = 0 then (display_message (lit "\n"), .exit)
      else if ret = -1 then ([], .next s)
      else if t.token_count = 0 then ([], .next s)
      else
        match s.token_arr with
        | some token :: _ => command k stack pid s t.token_count token
        | _ => ([], .next s)
    else ([], .undefined)

/-- What one round depends on beside the state: the stack, what `fork` and `malloc` return, and the line. -/
structure Turn where
  stack : Residue
  pid : Int
  block : Nat → Residue
  line : List Byte

/-- A round of the main loop on a line of at most `MAX_STR_LEN` bytes, when every allocation succeeds. -/
def step (k : Kernel W) (turn : Turn) (s : Shell W) : Round (Shell W) :=
  let (events, outcome) := main_body k turn.stack turn.pid (fun count => some (turn.block count)) turn.line.length
    { s with input_buf := fill s.input_buf turn.line }
  ⟨display_message prompt ++ events, if ∀ e ∈ events, e.InBounds then outcome else .undefined⟩

def start (stack : Residue) (w : W) : Shell W := ⟨Mysh.start stack w, []⟩

/-! ### Rounds -/

/-- The words that the tokenizer delivers. -/
def cutWords (line : List Byte) : List (List Byte) := (words (CStr.of line)).map (firstCut (lit "$"))

/-- The round on this line goes wrong behind its command, whatever the command has done: the loop over the tokens
    passes `free` addresses in `input_buf`. -/
def BadFree (k : Kernel W) (turn : Turn) (s : Shell W) : Prop :=
  ∃ t, Replacing.tokenize_input s.vars (fun count => some (turn.block count)) (fill s.input_buf turn.line) s.token_arr = some t ∧
    (∀ b ∈ t.new_tokens, b.InBounds) ∧
    (main_body k turn.stack turn.pid (fun count => some (turn.block count)) turn.line.length
      { s with input_buf := fill s.input_buf turn.line }).2 = .undefined ∧
    free_tokens (s.blocks ++ t.new_tokens.map some) ((t.tokens.take t.token_count).map (Option.map Pointer.input_buf)) = none

/-- `free` of a token is a `free` of something that `malloc` has not returned. -/
theorem finish_undefined {s : Shell W} {first : Nat} {rest : List (Option Nat)} (tokens : s.token_arr = some first :: rest)
    {token_count : Nat} (positive : 0 < token_count) : finish s token_count = .undefined := by
  obtain ⟨n, rfl⟩ : ∃ n, token_count = n + 1 := ⟨token_count - 1, by omega⟩
  rw [finish, tokens]
  rfl

private theorem assignment_sized {s : Mysh.Shell W} (sized : s.Sized) (token : Nat) : (assignment s token).2.Sized := by
  unfold assignment
  dsimp only
  split <;> simpa [Shell.Sized] using sized

/-- Behind the name of an assignment in a word that was cut there is no `$`. -/
theorem assignmentOf_firstCut {w : List Byte} (noNul : 0 ∉ firstCut (lit "$") w) {name val : CStr}
    (assigns : assignmentOf (firstCut (lit "$") w) = some (name, val)) : chr '$' ∉ val.1 := by
  obtain ⟨lead, -, split, -, -, -⟩ := assignmentOf_eq_some noNul assigns
  have dollars : ∀ b ∈ w.takeWhile (among (lit "$")), b = chr '$' := by
    intro b member
    have := List.mem_takeWhile_imp member
    rwa [among_dollar, beq_iff_eq] at this
  have plain : chr '$' ∉ (w.dropWhile (among (lit "$"))).takeWhile (!among (lit "$") ·) := by
    intro member
    have := List.mem_takeWhile_imp member
    simp [among_dollar] at this
  have sign : lead ++ name.1 ++ chr '=' :: val.1 = (lead ++ name.1 ++ [chr '=']) ++ val.1 := by simp
  rw [firstCut, sign, List.append_eq_append_iff] at split
  rcases split with ⟨rest, -, tail⟩ | ⟨rest, front, -⟩
  · intro member
    exact plain (tail ▸ List.mem_append_right _ member)
  · have same := dollars (chr '=') (by rw [front]; simp)
    exact absurd same (by decide)

theorem references_plain {val : List Byte} (plain : chr '$' ∉ val) : references val = [] := by
  induction val with
  | nil => rfl
  | cons c val ih =>
    rw [List.mem_cons, not_or] at plain
    rw [references_cons_plain (Ne.symm plain.1), ih plain.2]

theorem assigned_plain (m : Env) {val : List Byte} (plain : chr '$' ∉ val) : assigned m val = val := by
  induction val with
  | nil => exact assigned_nil m
  | cons c val ih =>
    rw [List.mem_cons, not_or] at plain
    rw [assigned_cons_plain m (Ne.symm plain.1), ih plain.2]

/-- A value without `$` fits under any variables when it is part of a line. -/
private theorem fits_plain (m : Env) {val : List Byte} (plain : chr '$' ∉ val) (short : val.length ≤ MAX_STR_LEN) :
    Fits m val := by
  unfold MAX_STR_LEN at short
  refine ⟨by simp [NamesFit, references_plain plain], ?_⟩
  rw [← length_assigned, assigned_plain m plain]
  omega

/-- What a round leaves behind it when the shell goes on. -/
structure Continues (s s' : Shell W) (line : List Byte) : Prop where
  sized : s'.toShell.Sized
  world : s'.world = s.world
  blocks : ∃ made : List Buffer, s'.blocks = s.blocks ++ made.map some ∧ made.length = (words (CStr.of line)).length

section
variable (k : Kernel W) (turn : Turn) {s : Shell W} (sized : s.toShell.Sized) (short : turn.line.length ≤ MAX_STR_LEN)
include sized short

/-- The tokenizer puts the cut words into place, and keeps the sizes of the arrays. -/
private theorem step_tokenized :
    ∃ (t : Mysh.Shell W) (post : List Byte) (blocks : List (Option Buffer)), t.vars = s.vars ∧
      Continues s ⟨t, blocks⟩ turn.line ∧
      if turn.line = [] then step k turn s = ⟨display_message prompt ++ display_message (lit "\n"), .exit⟩
      else match cutWords turn.line with
        | [] => step k turn s = ⟨display_message prompt, .next ⟨t, blocks⟩⟩
        | cmd :: args => ∃ region first ptrs, Tokens t region post first ptrs s.token_arr cmd args ∧
            let done := command k turn.stack turn.pid ⟨t, blocks⟩ (words (CStr.of turn.line)).length first
            step k turn s = ⟨display_message prompt ++ done.1, if ∀ e ∈ done.1, e.InBounds then done.2 else .undefined⟩ ∧
              (done.2 = .undefined → BadFree k turn s) := by
  obtain ⟨post, filled, bound⟩ := fill_text s.input_buf turn.line
  have few := length_words_le (bound.trans short)
  have room : (words (CStr.of turn.line)).length < s.token_arr.length := by
    rw [sized.2, MAX_STR_LEN]
    omega
  obtain ⟨region, ptrs, t, ran, count, mem, arr, laid, size, made, inBounds⟩ :=
    Replacing.tokenize_input_made s.vars turn.block (CStr.of turn.line).2 post room
  have width := congrArg List.length filled
  rw [length_fill sized.1 short, List.length_append, List.length_cons] at width
  have arrays : (⟨t.mem, t.tokens, s.vars, s.world⟩ : Mysh.Shell W).Sized := by
    constructor
    · rw [mem, List.length_append, size]
      omega
    · have each := length_laid laid
      rw [List.length_map] at each
      rw [arr, tokenArray, List.length_append, List.length_map, List.length_cons, List.length_drop, sized.2, each, MAX_STR_LEN]
      omega
  refine ⟨⟨t.mem, t.tokens, s.vars, s.world⟩, post, s.blocks ++ t.new_tokens.map some, rfl,
    ⟨arrays, rfl, t.new_tokens, rfl, made⟩, ?_⟩
  have body : main_body k turn.stack turn.pid (fun count => some (turn.block count)) turn.line.length
      { s with input_buf := fill s.input_buf turn.line } =
        if (turn.line.length : Int) = 0 then (display_message (lit "\n"), .exit)
        else if (turn.line.length : Int) = -1 then
          ([], .next ⟨⟨t.mem, t.tokens, s.vars, s.world⟩, s.blocks ++ t.new_tokens.map some⟩)
        else if t.token_count = 0 then ([], .next ⟨⟨t.mem, t.tokens, s.vars, s.world⟩, s.blocks ++ t.new_tokens.map some⟩)
        else match t.tokens with
          | some token :: _ => command k turn.stack turn.pid
              ⟨⟨t.mem, t.tokens, s.vars, s.world⟩, s.blocks ++ t.new_tokens.map some⟩ t.token_count token
          | _ => ([], .next ⟨⟨t.mem, t.tokens, s.vars, s.world⟩, s.blocks ++ t.new_tokens.map some⟩) := by
    simp only [main_body, filled, ran, if_pos inBounds]
  split
  case isTrue input =>
    rw [step, body, input]
    simp [display_message, Event.InBounds]
  case isFalse input =>
    have positive := List.length_pos_of_ne_nil input
    have notEof : ¬ (turn.line.length : Int) = 0 := by omega
    have notError : ¬ (turn.line.length : Int) = -1 := by omega
    rw [if_neg notEof, if_neg notError] at body
    rw [cutWords]
    cases isWords : words (CStr.of turn.line) with
    | nil =>
      rw [isWords] at count
      simp only [List.map_nil, step, body, count, List.length_nil, ↓reduceIte, List.append_nil]
      simp
    | cons w ws =>
      rw [isWords] at count laid
      obtain ⟨first, ptrs, rfl⟩ := List.exists_cons_of_length_pos (by rw [length_laid laid]; simp : 0 < ptrs.length)
      have nonempty : ∀ v ∈ (w :: ws).map (firstCut (lit "$")), v ≠ [] := by
        rw [List.forall_mem_map]
        intro v member
        exact firstCut_ne_nil _ (fields_ne_nil (show v ∈ words (CStr.of turn.line) by rw [isWords]; exact member))
      have slots : t.tokens = some first :: (ptrs.map some ++ none :: s.token_arr.drop ((first :: ptrs).length + 1)) := by
        rw [arr, tokenArray]
        rfl
      have commanded : main_body k turn.stack turn.pid (fun count => some (turn.block count)) turn.line.length
          { s with input_buf := fill s.input_buf turn.line } = command k turn.stack turn.pid
            ⟨⟨t.mem, t.tokens, s.vars, s.world⟩, s.blocks ++ t.new_tokens.map some⟩ (w :: ws).length first := by
        simp only [body, count, slots, List.length_cons, Nat.add_one_ne_zero, ↓reduceIte]
      refine ⟨region, first, ptrs, ⟨mem, arr, laid, nonempty, by omega⟩, by rw [step, commanded], fun undefined => ?_⟩
      refine ⟨t, by rw [filled, ran], inBounds, by rw [commanded]; exact undefined, ?_⟩
      rw [count, slots]
      rfl

end

/-! ### What becomes of a line -/

/-- What follows a line: the end of the input and `exit` end the shell, blank lines and assignments leave it
    running, and every other line comes to a `free` of what was never allocated. -/
def fate (line : List Byte) : Outcome Unit :=
  if line = [] then .exit
  else match cutWords line with
    | [] => .next ()
    | cmd :: _ => if cmd = lit "exit" then .exit else if chr '=' ∈ cmd then .next () else .undefined

/-- The assignment that a line makes, if it makes one: its text up to the first `$`, as it is typed. -/
def literal (line : List Byte) : Option (CStr × CStr) :=
  match cutWords line with
  | [] => none
  | cmd :: _ => assignmentOf cmd

private theorem literal_plain {line : List Byte} {name val : CStr} (assigns : literal line = some (name, val))
    (short : line.length ≤ MAX_STR_LEN) : chr '$' ∉ val.1 ∧ val.1.length ≤ MAX_STR_LEN := by
  unfold literal cutWords at assigns
  cases isWords : words (CStr.of line) with
  | nil => simp [isWords] at assigns
  | cons w ws =>
    rw [isWords] at assigns
    have part : w.Sublist (CStr.of line).1 := fields_sublist (show w ∈ words (CStr.of line) by simp [isWords])
    have cut : (firstCut (lit "$") w).Sublist w := by
      have split := List.takeWhile_append_dropWhile (p := among (lit "$")) (l := w)
      conv_rhs => rw [← split]
      exact (List.takeWhile_sublist _).append_left _
    have noNul : 0 ∉ firstCut (lit "$") w := fun member => (CStr.of line).2 (part.subset (cut.subset member))
    refine ⟨assignmentOf_firstCut noNul assigns, ?_⟩
    obtain ⟨lead, -, split, -, -, -⟩ := assignmentOf_eq_some noNul assigns
    have inLine : (CStr.of line).1.length ≤ line.length := (List.takeWhile_sublist _).length_le
    have lengths := congrArg List.length split
    simp only [List.length_append, List.length_cons] at lengths
    have := cut.length_le
    have := part.length_le
    omega

section
variable {region post : List Byte} {ptr : Nat} {ptrs : List Nat} {arr : List (Option Nat)} {cmd : List Byte}
  {args : List (List Byte)} {t : Mysh.Shell W} (tokens : Tokens t region post ptr ptrs arr cmd args)
include tokens

/-- `check_builtin` finds a function for every name, and `finish` comes behind each of them. -/
private theorem command_undefined (others : cmd ≠ lit "exit") (noSign : chr '=' ∉ cmd) (k : Kernel W) (turn : Turn)
    (blocks : List (Option Buffer)) {token_count : Nat} (positive : 0 < token_count) :
    (command k turn.stack turn.pid ⟨t, blocks⟩ token_count ptr).2 = .undefined := by
  have runs : ¬ (cmd.take 4 = lit "exit" ∧ cmd.getD 4 0 = 0) := by
    rwa [exit_iff (laid_noNul tokens.laid cmd (by simp))]
  obtain ⟨fn, found⟩ : ∃ fn, Dispatch.check_builtin cmd = some fn := by
    rw [Dispatch.check_builtin_eq]
    split_ifs <;> exact ⟨_, rfl⟩
  have slots : t.token_arr = some ptr :: (ptrs.map some ++ none :: arr.drop ((ptr :: ptrs).length + 1)) := tokens.arr
  simp only [command, tokens.texts.1, runs, noSign, found, ↓reduceIte]
  exact finish_undefined slots positive

/-- An assignment stores the text behind the sign. -/
private theorem command_assigns
    (short : ∀ name val, assignmentOf cmd = some (name, val) → chr '$' ∉ val.1 ∧ val.1.length ≤ MAX_STR_LEN)
    (sized : t.Sized) (sign : chr '=' ∈ cmd) (k : Kernel W) (turn : Turn) (blocks : List (Option Buffer)) (token_count : Nat) :
    ∃ events t', command k turn.stack turn.pid ⟨t, blocks⟩ token_count ptr = (events, .next ⟨t', blocks⟩) ∧
      (∀ e ∈ events, e.InBounds) ∧ visible events = [] ∧ t'.Sized ∧ t'.world = t.world ∧
      t'.vars = match assignmentOf cmd with
        | none => t.vars
        | some (name, val) => (def_var t.vars name val).vars := by
  have noNul : 0 ∉ cmd := laid_noNul tokens.laid cmd (by simp)
  have runs : ¬ (cmd.take 4 = lit "exit" ∧ cmd.getD 4 0 = 0) := by
    rw [exit_iff noNul]
    rintro rfl
    have noSign : chr '=' ∉ lit "exit" := by decide
    exact noSign sign
  obtain ⟨pre, tail, placed, rfl⟩ := tokens.placed
  obtain ⟨mem, assigned⟩ := assignment_words placed noNul
  have kept := assignment_sized sized pre.length
  have commanded : command k turn.stack turn.pid ⟨t, blocks⟩ token_count pre.length =
      ((assignment t pre.length).1, .next ⟨(assignment t pre.length).2, blocks⟩) := by
    simp only [command, tokens.texts.1, runs, sign, ↓reduceIte]
  rw [assigned] at commanded kept
  cases found : assignmentOf cmd with
  | none =>
    rw [found] at commanded kept
    exact ⟨_, _, commanded, by simp, rfl, kept, rfl, rfl⟩
  | some call =>
    obtain ⟨name, val⟩ := call
    rw [found] at commanded kept
    obtain ⟨noDollar, small⟩ := short name val found
    have inBounds := (defVarEvents_inBounds _).mpr ((def_var_inBounds_iff t.vars name val).mpr (fits_plain _ noDollar small))
    exact ⟨_, _, commanded, inBounds, by simp [defVarEvents], kept, rfl, rfl⟩

end

/-- A line comes to its fate; where the shell goes on, it has shown the prompt and made the literal assignment. -/
private theorem step_fate (k : Kernel W) (turn : Turn) {s : Shell W} (sized : s.toShell.Sized)
    (short : turn.line.length ≤ MAX_STR_LEN) :
    match fate turn.line with
    | .next () => ∃ s', visible (step k turn s).events = display_message prompt ∧ (step k turn s).outcome = .next s' ∧
        Continues s s' turn.line ∧ s'.vars = match literal turn.line with
          | none => s.vars
          | some (name, val) => (def_var s.vars name val).vars
    | .exit => (step k turn s).outcome = .exit
    | .undefined => (step k turn s).outcome = .undefined ∧ BadFree k turn s := by
  obtain ⟨t, post, blocks, vars, continues, ran⟩ := step_tokenized k turn sized short
  have prompted := visible_eq_self (visible_display_message prompt)
  have plain := @literal_plain turn.line
  unfold literal at plain ⊢
  unfold fate
  by_cases input : turn.line = []
  · rw [if_pos input] at ran ⊢
    rw [ran]
  rw [if_neg input] at ran ⊢
  cases cut : cutWords turn.line with
  | nil =>
    rw [cut] at ran
    exact ⟨⟨t, blocks⟩, by rw [ran, prompted], by rw [ran], continues, vars⟩
  | cons cmd args =>
    rw [cut] at ran plain
    obtain ⟨region, ptr, ptrs, tokens, ran, freed⟩ := ran
    have positive : 0 < (words (CStr.of turn.line)).length := by
      have := congrArg List.length cut
      rw [cutWords, List.length_map, List.length_cons] at this
      omega
    rw [ran]
    dsimp only
    by_cases exits : cmd = lit "exit"
    · have runs := (exit_iff (laid_noNul tokens.laid cmd (by simp))).mpr exits
      have commanded : command k turn.stack turn.pid ⟨t, blocks⟩ (words (CStr.of turn.line)).length ptr = ([], .exit) := by
        simp only [command, tokens.texts.1]
        rw [if_pos runs]
      rw [if_pos exits, commanded]
      simp
    · rw [if_neg exits]
      by_cases sign : chr '=' ∈ cmd
      · obtain ⟨events, t', commanded, inBounds, unseen, kept, world, assigned⟩ := command_assigns tokens
          (fun name val found => plain found short) continues.sized sign k turn blocks (words (CStr.of turn.line)).length
        rw [if_pos sign, commanded]
        dsimp only
        rw [visible_append, prompted, unseen, if_pos inBounds, List.append_nil]
        refine ⟨⟨t', blocks⟩, rfl, rfl, ⟨kept, world.trans continues.world, continues.blocks⟩, ?_⟩
        rw [assigned, vars]
      · have undefined := command_undefined tokens exits sign k turn blocks positive
        rw [if_neg sign, undefined]
        exact ⟨ite_self _, freed undefined⟩

/-! ### Sessions -/

/-- What a session shows, and what becomes of the shell. -/
def session (k : Kernel W) : Shell W → List Turn → List Event × Outcome (Shell W)
  | s, [] => ([], .next s)
  | s, turn :: rest =>
    let round := step k turn s
    match round.outcome with
    | .next s => (visible round.events ++ (session k s rest).1, (session k s rest).2)
    | ended => (visible round.events, ended)

/-- The first line that does not leave the shell running decides. -/
def fates : List Turn → Outcome Unit
  | [] => .next ()
  | turn :: rest =>
    match fate turn.line with
    | .next () => fates rest
    | ended => ended

/-- The literal assignments of a session, the newest first. -/
def written (turns : List Turn) : List (List Byte × List Byte) :=
  (turns.filterMap fun turn => (literal turn.line).map fun call => (call.1.1, call.2.1)).reverse

/-- The number of words on the lines of a session. -/
def wordCount (turns : List Turn) : Nat := (turns.map fun turn => (words (CStr.of turn.line)).length).sum

/-- The shell behind a session that it has come past. -/
private structure Past (s s' : Shell W) (turns : List Turn) : Prop where
  bound : ∀ key, get_var s'.vars key = ((written turns).lookup key).or (get_var s.vars key)
  world : s'.world = s.world
  blocks : ∃ made : List Buffer, s'.blocks = s.blocks ++ made.map some ∧ made.length = wordCount turns

/-- A later assignment covers the earlier ones. -/
private theorem lookup_written (key : List Byte) (turn : Turn) (rest : List Turn) : (written (turn :: rest)).lookup key =
    ((written rest).lookup key).or (match literal turn.line with
      | none => none
      | some (name, val) => if key = name.1 then some val.1 else none) := by
  unfold written
  rw [List.filterMap_cons]
  cases literal turn.line with
  | none => simp
  | some call =>
    obtain ⟨name, val⟩ := call
    rw [Option.map_some, List.reverse_cons, List.lookup_append, List.lookup_singleton]
    by_cases same : key = name.1 <;> simp [same]

/-- The round of an assignment binds the name to its text. -/
private theorem get_var_literal {vars vars' : List Variable} {line : List Byte} (short : line.length ≤ MAX_STR_LEN)
    (assigned : vars' = match literal line with
      | none => vars
      | some (name, val) => (def_var vars name val).vars) (key : List Byte) : get_var vars' key =
    (match literal line with
      | none => none
      | some (name, val) => if key = name.1 then some val.1 else none).or (get_var vars key) := by
  rw [assigned]
  cases assigns : literal line with
  | none => rfl
  | some call =>
    obtain ⟨name, val⟩ := call
    obtain ⟨noDollar, small⟩ := literal_plain assigns short
    dsimp only
    rw [get_var_def_var name (fits_plain _ noDollar small), assigned_plain _ noDollar]
    by_cases same : key = name.1 <;> simp [same]

section
variable (k : Kernel W)

private theorem session_past {s : Shell W} (sized : s.toShell.Sized) {turns : List Turn}
    (short : ∀ turn ∈ turns, turn.line.length ≤ MAX_STR_LEN) :
    match fates turns with
    | .next () => ∃ s', session k s turns = ((List.replicate turns.length (display_message prompt)).flatten, .next s') ∧
        Past s s' turns
    | .exit => (session k s turns).2 = .exit
    | .undefined => (session k s turns).2 = .undefined ∧ ∃ front turn rest s', turns = front ++ turn :: rest ∧
        (session k s front).2 = .next s' ∧ BadFree k turn s' := by
  induction turns generalizing s with
  | nil => exact ⟨s, rfl, by simp [written], rfl, [], by simp [wordCount]⟩
  | cons turn rest ih =>
    rw [List.forall_mem_cons] at short
    have here := step_fate k turn sized short.1
    unfold fates session
    cases decided : fate turn.line with
    | exit =>
      rw [decided] at here
      simp [here]
    | undefined =>
      rw [decided] at here
      exact ⟨by simp [here.1], [], turn, rest, s, rfl, rfl, here.2⟩
    | next u =>
      rw [decided] at here
      obtain ⟨s', shown, outcome, continues, vars⟩ := here
      have later := ih continues.sized short.2
      dsimp only
      cases ends : fates rest with
      | exit =>
        rw [ends] at later
        simpa [outcome] using later
      | undefined =>
        rw [ends] at later
        obtain ⟨ran, front, turn', rest', s'', rfl, past, freed⟩ := later
        exact ⟨by simp [outcome, ran], turn :: front, turn', rest', s'', rfl, by simp [outcome, past], freed⟩
      | next u =>
        rw [ends] at later
        obtain ⟨s'', ran, past⟩ := later
        refine ⟨s'', by simp [outcome, ran, shown, List.replicate_succ], ?_, past.world.trans continues.world, ?_⟩
        · intro key
          rw [past.bound key, get_var_literal short.1 vars, lookup_written, Option.or_assoc]
        · obtain ⟨made, listed, all⟩ := continues.blocks
          obtain ⟨made', listed', all'⟩ := past.blocks
          refine ⟨made ++ made', by simp [listed, listed'], ?_⟩
          rw [List.length_append, all, all', wordCount, wordCount, List.map_cons, List.sum_cons]

/-- The first line that is neither blank nor an assignment decides what becomes of the shell: where its course is not
    defined, the shell has come to a line whose round frees tokens that were never allocated. -/
theorem session_fates (stack : Residue) (w : W) {turns : List Turn} (short : ∀ turn ∈ turns, turn.line.length ≤ MAX_STR_LEN) :
    map (fun _ => ()) (session k (start stack w) turns).2 = fates turns ∧
      (fates turns = .undefined → ∃ front turn rest s, turns = front ++ turn :: rest ∧
        (session k (start stack w) front).2 = .next s ∧ BadFree k turn s) := by
  have past := session_past k (s := start stack w) (reachable_sized (Reachable.start (k := k) stack w)) short
  cases ends : fates turns with
  | exit =>
    rw [ends] at past
    exact ⟨by rw [past, map], by simp⟩
  | undefined =>
    rw [ends] at past
    exact ⟨by rw [past.1, map], fun _ => past.2⟩
  | next u =>
    rw [ends] at past
    obtain ⟨s, ran, -⟩ := past
    exact ⟨by rw [ran, map], by simp⟩

/-- What a session has done to the shell that goes on behind it. -/
private theorem past_of_session {stack : Residue} {w : W} {turns : List Turn}
    (short : ∀ turn ∈ turns, turn.line.length ≤ MAX_STR_LEN) {s : Shell W}
    (ran : (session k (start stack w) turns).2 = .next s) :
    (session k (start stack w) turns).1 = (List.replicate turns.length (display_message prompt)).flatten ∧
      Past (start stack w) s turns := by
  have past := session_past k (s := start stack w) (reachable_sized (Reachable.start (k := k) stack w)) short
  cases ends : fates turns with
  | exit => simp [ends, ran] at past
  | undefined => simp [ends, ran] at past
  | next u =>
    rw [ends] at past
    obtain ⟨s', ran', past⟩ := past
    rw [ran'] at ran
    cases ran
    exact ⟨by rw [ran'], past⟩

/-- A session that the shell comes past shows prompts only, and leaves with each name the text that was assigned
    to it last, in which nothing is expanded. -/
theorem session_literal {stack : Residue} {w : W} {turns : List Turn} (short : ∀ turn ∈ turns, turn.line.length ≤ MAX_STR_LEN)
    {s : Shell W} (ran : (session k (start stack w) turns).2 = .next s) :
    (session k (start stack w) turns).1 = (List.replicate turns.length (display_message prompt)).flatten ∧ s.world = w ∧
      ∀ key, get_var s.vars key = (written turns).lookup key := by
  obtain ⟨shown, past⟩ := past_of_session k short ran
  refine ⟨shown, past.world, fun key => ?_⟩
  rw [past.bound]
  exact Option.or_none

/-- Such a session leaves one allocated block behind it for each word. -/
theorem session_loses_blocks {stack : Residue} {w : W} {turns : List Turn}
    (short : ∀ turn ∈ turns, turn.line.length ≤ MAX_STR_LEN) {s : Shell W}
    (ran : (session k (start stack w) turns).2 = .next s) :
    ∃ made : List Buffer, s.blocks = made.map some ∧ made.length = wordCount turns := by
  obtain ⟨-, past⟩ := past_of_session k short ran
  exact past.blocks

end

/-- The turns of some lines. -/
def typed (lines : List (List Byte)) : List Turn := lines.map fun line => ⟨zeros, 1, fun _ => zeros, line ++ [chr '\n']⟩

/-- Assignments with references, of which the last one assigns nothing, and a blank line. -/
def assigning : List Turn := typed [lit "x=a", lit "y=b$x c", lit " ", lit "x=$y"]

theorem session_fates_assigning : map (fun _ => ()) (session bare (start zeros ()) (assigning ++ typed [lit "echo $x"])).2 =
    fates (assigning ++ typed [lit "echo $x"]) :=
  (session_fates bare zeros () (by decide +kernel)).1

private theorem assigning_past : ∃ s, (session bare (start zeros ()) assigning).2 = .next s := by
  have goes : fates assigning = .next () := by decide +kernel
  have short : ∀ turn ∈ assigning, turn.line.length ≤ MAX_STR_LEN := by decide +kernel
  have ends := session_past bare (s := start zeros ()) (reachable_sized (Reachable.start (k := bare) zeros ())) short
  rw [goes] at ends
  obtain ⟨s, ran, -⟩ := ends
  exact ⟨s, by rw [ran]⟩

theorem session_literal_assigning : ∃ s, (session bare (start zeros ()) assigning).2 = .next s ∧
    get_var s.vars (lit "x") = some (lit "a") ∧ get_var s.vars (lit "y") = some (lit "b") := by
  obtain ⟨s, ran⟩ := assigning_past
  have short : ∀ turn ∈ assigning, turn.line.length ≤ MAX_STR_LEN := by decide +kernel
  obtain ⟨-, -, bound⟩ := session_literal bare short ran
  refine ⟨s, ran, ?_, ?_⟩
  · rw [bound]
    decide +kernel
  · rw [bound]
    decide +kernel

theorem session_loses_blocks_assigning : ∃ s, (session bare (start zeros ()) assigning).2 = .next s ∧ s.blocks.length = 4 := by
  obtain ⟨s, ran⟩ := assigning_past
  have short : ∀ turn ∈ assigning, turn.line.length ≤ MAX_STR_LEN := by decide +kernel
  obtain ⟨made, listed, all⟩ := session_loses_blocks bare short ran
  refine ⟨s, ran, ?_⟩
  rw [listed, List.length_map, all]
  decide +kernel

end BashInC.Milestone4
