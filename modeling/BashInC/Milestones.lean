import BashInC.Replacing

/-!
The builtin `echo` from milestone to milestone. Milestone 1 prints the tokens of a
line as they are. Milestone 3 prints the echoed words as long as they fit, and so
the same as milestone 1 on a line without `$` (`bn_echo_reference`). Milestone 4
has the `bn_echo` of milestone 3, but its tokenizer has cut every token at its first
`$` by then: what stands behind is no longer printed (`echo_kept_iff`).
-/
namespace BashInC.Milestones
open Clib.Fields Clib.Strings BashInC.IoHelpers BashInC.Expansion BashInC.Variables
open BashInC.Echo BashInC.Mysh BashInC.Commands BashInC.Replacing BashInC.Sessions

/-! ### Milestone 1 -/

/-- `while (tokens[index] != NULL) { ... index += 1; }`, on the tokens from `index` on. -/
def Milestone1.echo_loop (mem : List Byte) : Bool → List (Option Nat) → List Event
  | first, some token :: tokens =>
    (if first then [] else display_message (lit " ")) ++ display_message (cstr mem token) ++ echo_loop mem false tokens
  | _, _ => []

def Milestone1.bn_echo (mem : List Byte) (tokens : List (Option Nat)) : List Event :=
  Milestone1.echo_loop mem true (tokens.drop 1) ++ display_message (lit "\n")

theorem stdoutBytes_display_message {str : List Byte} (noNul : 0 ∉ str) (short : str.length ≤ MAX_STR_LEN) :
    stdoutBytes (display_message str) = str := by
  simp [display_message, stdoutBytes, strnlenBytes_short noNul short]

/-- The loop prints the words, with single spaces between them. -/
theorem echo_loop_prints {mem : List Byte} {ptrs : List Nat} {ws : List (List Byte)}
    (texts : List.Forall₂ (fun ptr w => cstr mem ptr = w) ptrs ws) (short : ∀ w ∈ ws, w.length ≤ MAX_STR_LEN)
    (stale : List (Option Nat)) (first : Bool) :
    stdoutBytes (Milestone1.echo_loop mem first (ptrs.map some ++ none :: stale)) =
      if first ∨ ws = [] then [chr ' '].intercalate ws else chr ' ' :: [chr ' '].intercalate ws := by
  induction texts generalizing first with
  | nil => simp [Milestone1.echo_loop]
  | @cons ptr w ptrs ws text rest ih =>
    have here : w.length ≤ MAX_STR_LEN := short w (by simp)
    have noNul : 0 ∉ w := text ▸ cstr_noNul mem ptr
    have later := ih (fun v member => short v (by simp [member])) false
    have space : stdoutBytes (display_message (lit " ")) = [chr ' '] := by decide
    have printed := stdoutBytes_display_message noNul here
    simp only [List.map_cons, List.cons_append, Milestone1.echo_loop, stdoutBytes_append, text, later, printed]
    cases ws with
    | nil => cases first <;> simp [space]
    | cons w' ws => cases first <;> simp [space, List.intercalate_cons_cons]

/-- What milestone 1 writes to stdout for an `echo` in the line in memory. -/
def Milestone1.echo_output (in_ptr : List Byte) (tokens : List (Option Nat)) : List Byte :=
  let t := IoHelpers.tokenize_input in_ptr tokens
  stdoutBytes (Milestone1.bn_echo t.mem t.tokens)

/-! ### Milestone 3 -/

/-- What milestone 3 writes to stdout for an `echo` in the line in memory. -/
def Milestone3.echo_output (vars : List Variable) (stack : Residue) (in_ptr : List Byte) (tokens : List (Option Nat)) : List Byte :=
  let t := IoHelpers.tokenize_input in_ptr tokens
  stdoutBytes (echoEvents (Echo.bn_echo vars stack t.mem t.tokens))

/-- What `bn_echo` prints once the tokens are laid out, when it fits. -/
private theorem bn_echo_prints (vars : List Variable) (stack : Residue) {region : List Byte} {ptrs : List Nat} {cmd : List Byte}
    {args : List (List Byte)} (laid : Laid 0 region ptrs (cmd :: args)) (nonempty : ∀ w ∈ args, w ≠ []) (post : List Byte)
    (tokens : List (Option Nat)) (short : (joined (get_var vars) args).length ≤ 127) :
    let call := Echo.bn_echo vars stack (region ++ post) (tokenArray ptrs tokens)
    call.InBounds ∧ stdoutBytes (echoEvents call) = joined (get_var vars) args ++ lit "\n" := by
  obtain ⟨bounds, printed, -⟩ := bn_echo_spec vars stack laid nonempty post tokens
  have inBounds := bounds.mpr ((length_committed_le _ _).trans short)
  refine ⟨inBounds, ?_⟩
  have newline : stdoutBytes (display_message (lit "\n")) = lit "\n" := by decide
  have stores : ∀ ranges : List Clib.Buffers.Range, stdoutBytes (ranges.map (Event.store .final)) = [] := by
    intro ranges
    rw [← stdoutBytes_visible, visible_stores]
    rfl
  rw [echoEvents, stdoutBytes_append, stores, printed inBounds, List.take_of_length_le short, ← newline]
  rfl

/-- Without a `$` a word is echoed as it is. -/
private theorem echoed_plain (m : Env) {w : List Byte} (plain : chr '$' ∉ w) : echoed m w = w := by
  have all : ∀ b ∈ w, (b != chr '$') = true := by
    intro b member
    rw [bne_iff_ne]
    rintro rfl
    exact plain member
  have lone : w ≠ [chr '$'] := by
    rintro rfl
    exact plain (by simp)
  have text : before w = w := List.takeWhile_eq_self_iff.mpr all
  have rest : w.dropWhile (· != chr '$') = [] := List.dropWhile_eq_nil_iff.mpr all
  rw [echoed, if_neg lone, text, runs, rest]
  simp

theorem joined_plain (m : Env) {ws : List (List Byte)} (plain : ∀ w ∈ ws, chr '$' ∉ w) :
    joined m ws = [chr ' '].intercalate ws := by
  have same : ws.map (echoed m) = ws := by
    conv_rhs => rw [← List.map_id ws]
    exact List.map_congr_left fun w member => echoed_plain m (plain w member)
  rw [joined, same]

/-- The words of a line with spaces between them are no longer than the line. -/
theorem length_args_le {line cmd : List Byte} {args : List (List Byte)} (isWords : words line = cmd :: args) :
    ([chr ' '].intercalate args).length ≤ line.length - 1 := by
  have all := length_intercalate_fields_le (among DELIMITERS) (chr ' ') line
  have nonempty : cmd ≠ [] := fields_ne_nil (show cmd ∈ words line by simp [isWords])
  have positive := List.length_pos_of_ne_nil nonempty
  rw [← words, isWords] at all
  cases args with
  | nil => simp
  | cons w ws =>
    simp only [List.intercalate_cons_cons, List.length_append, List.length_cons, List.length_nil] at all
    omega

/-- The tokens of a line that `get_input` has read, laid out in memory. -/
private theorem tokenize_line (in_ptr : List Byte) {line : List Byte} (short : line.length ≤ MAX_STR_LEN)
    {tokens : List (Option Nat)} (room : tokens.length = MAX_STR_LEN) :
    ∃ region ptrs post, (IoHelpers.tokenize_input (fill in_ptr line) tokens).mem = region ++ post ∧
      (IoHelpers.tokenize_input (fill in_ptr line) tokens).tokens = tokenArray ptrs tokens ∧
      Laid 0 region ptrs (words (CStr.of line)) := by
  obtain ⟨post, filled, bound⟩ := fill_text in_ptr line
  have few := length_words_le (bound.trans short)
  obtain ⟨region, ptrs, save, ran, -, laid⟩ := IoHelpers.tokenize_input_spec (CStr.of line).2 post tokens
    (by rw [room, MAX_STR_LEN]; omega)
  refine ⟨region, ptrs, post, ?_, ?_, laid⟩
  · rw [filled, ran]
  · rw [filled, ran]

section
variable {line cmd : List Byte} {args : List (List Byte)} (short : line.length ≤ MAX_STR_LEN)
  (isWords : words (CStr.of line) = cmd :: args)
include short isWords

private theorem milestone3_prints (vars : List Variable) (stack : Residue) (in_ptr : List Byte) {tokens : List (Option Nat)}
    (room : tokens.length = MAX_STR_LEN) (fits : (joined (get_var vars) args).length ≤ 127) :
    Milestone3.echo_output vars stack (fill in_ptr line) tokens = joined (get_var vars) args ++ lit "\n" := by
  obtain ⟨region, ptrs, post, mem, arr, laid⟩ := tokenize_line in_ptr short room
  rw [isWords] at laid
  have nonempty : ∀ w ∈ args, w ≠ [] := by
    intro w member
    exact fields_ne_nil (show w ∈ words (CStr.of line) by simp [isWords, member])
  simp only [Milestone3.echo_output, mem, arr]
  exact (bn_echo_prints vars stack laid nonempty post tokens fits).2

private theorem milestone1_prints (in_ptr : List Byte) {tokens : List (Option Nat)} (room : tokens.length = MAX_STR_LEN) :
    Milestone1.echo_output (fill in_ptr line) tokens = [chr ' '].intercalate args ++ lit "\n" := by
  obtain ⟨region, ptrs, post, mem, arr, laid⟩ := tokenize_line in_ptr short room
  obtain ⟨-, -, bound⟩ := fill_text in_ptr line
  rw [isWords] at laid
  have texts := @forall₂_laid [] region ptrs (cmd :: args) laid post
  have newline : stdoutBytes (display_message (lit "\n")) = lit "\n" := by decide
  simp only [Milestone1.echo_output, Milestone1.bn_echo, mem, arr]
  cases texts with
  | @cons ptr _ ptrs _ text rest =>
    have each : List.Forall₂ (fun ptr w => cstr (region ++ post) ptr = w) ptrs args := rest.imp fun _ _ placed => placed.1
    have inLine : ∀ w ∈ args, w.length ≤ MAX_STR_LEN := by
      intro w member
      have part : w ∈ words (CStr.of line) := by simp [isWords, member]
      exact ((fields_sublist part).length_le.trans bound).trans short
    have looped := echo_loop_prints each inLine (tokens.drop (ptrs.length + 2)) true
    simp only [tokenArray, List.map_cons, List.cons_append, List.drop_succ_cons, List.drop_zero, List.length_cons,
      stdoutBytes_append, looped, newline]
    simp

end

/-- Milestone 3's `echo` prints the echoed words, with single spaces between them, and a newline whenever the
    words have at most 127 bytes; on a line without `$` they have, and they are what milestone 1 prints. -/
theorem bn_echo_reference (vars : List Variable) (stack : Residue) :
    (∀ (region post : List Byte) (ptrs : List Nat) (tokens : List (Option Nat)) (cmd : List Byte) (args : List (List Byte)),
      Laid 0 region ptrs (cmd :: args) → (∀ w ∈ args, w ≠ []) → (joined (get_var vars) args).length ≤ 127 →
        let call := Echo.bn_echo vars stack (region ++ post) (tokenArray ptrs tokens)
        call.InBounds ∧ stdoutBytes (echoEvents call) = joined (get_var vars) args ++ lit "\n") ∧
    ∀ (line cmd : List Byte) (args : List (List Byte)), line.length ≤ MAX_STR_LEN → chr '$' ∉ line →
      words (CStr.of line) = cmd :: args →
        (joined (get_var vars) args).length ≤ 127 ∧
          ∀ (in_ptr in_ptr' : List Byte) (tokens tokens' : List (Option Nat)), tokens.length = MAX_STR_LEN →
            tokens'.length = MAX_STR_LEN →
              Milestone3.echo_output vars stack (fill in_ptr line) tokens = Milestone1.echo_output (fill in_ptr' line) tokens' := by
  constructor
  · intro region post ptrs tokens cmd args laid nonempty fits
    exact bn_echo_prints vars stack laid nonempty post tokens fits
  · intro line cmd args short plain isWords
    obtain ⟨-, -, bound⟩ := fill_text [] line
    have plainArgs : ∀ w ∈ args, chr '$' ∉ w := by
      intro w member dollar
      have part : w ∈ words (CStr.of line) := by simp [isWords, member]
      exact plain ((List.takeWhile_sublist _).subset ((fields_sublist part).subset dollar))
    have same := joined_plain (get_var vars) plainArgs
    have fits : (joined (get_var vars) args).length ≤ 127 := by
      have inLine := length_args_le isWords
      unfold MAX_STR_LEN at short
      rw [same]
      omega
    refine ⟨fits, fun in_ptr in_ptr' tokens tokens' room room' => ?_⟩
    rw [milestone3_prints short isWords vars stack in_ptr room fits, milestone1_prints short isWords in_ptr' room', same]

theorem bn_echo_reference_line :
    (∃ call : EchoCall, call.InBounds ∧ stdoutBytes (echoEvents call) = joined (get_var dirVars) [lit "a$y$", lit "$"] ++ lit "\n") ∧
      Milestone3.echo_output dirVars zeros (fill (zeros.1 ++ [0]) (lit "echo a b\n")) (List.replicate MAX_STR_LEN none) =
        Milestone1.echo_output (fill (zeros.1 ++ [0]) (lit "echo a b\n")) (List.replicate MAX_STR_LEN none) := by
  obtain ⟨prints, same⟩ := bn_echo_reference dirVars zeros
  have isWords : words (CStr.of (lit "echo a$y$ $\n")) = lit "echo" :: [lit "a$y$", lit "$"] := by decide +kernel
  obtain ⟨region, ptrs, post, -, -, laid⟩ := @tokenize_line (zeros.1 ++ [0]) (lit "echo a$y$ $\n") (by decide)
    (List.replicate MAX_STR_LEN none) List.length_replicate
  rw [isWords] at laid
  exact ⟨⟨_, prints region post ptrs [] _ _ laid (by decide) (by decide +kernel)⟩,
    (same (lit "echo a b\n") (lit "echo") [lit "a", lit "b"] (by decide) (by decide) (by decide +kernel)).2 _ _ _ _
      List.length_replicate List.length_replicate⟩

/-! ### Milestone 4 -/

/-- What milestone 4 writes to stdout for an `echo` in the line in memory; its `bn_echo` has the text of that of
    milestone 3. -/
def Milestone4.echo_output (vars : List Variable) (malloc : Nat → Option Residue) (stack : Residue) (in_ptr : List Byte)
    (tokens : List (Option Nat)) : Option (List Byte) :=
  (Replacing.tokenize_input vars malloc in_ptr tokens).map fun t =>
    stdoutBytes (echoEvents (Echo.bn_echo vars stack t.mem t.tokens))

/-- The names that the cut of a token takes away: all behind a text, and all but the first at the start of the word. -/
def lost (w : List Byte) : List (List Byte) := if before w = [] then (runs w).tail else runs w

private theorem firstCut_lone_iff (w : List Byte) : firstCut (lit "$") w = [chr '$'] ↔ w = [chr '$'] := by
  constructor
  · intro cut
    have split : w.takeWhile (among (lit "$")) ++ w.dropWhile (among (lit "$")) = w := List.takeWhile_append_dropWhile
    have stop := List.head?_dropWhile_not (among (lit "$")) w
    unfold firstCut at cut
    cases rest : w.dropWhile (among (lit "$")) with
    | nil =>
      rw [rest] at cut split
      rw [← split]
      simpa using cut
    | cons b more =>
      have plain : among (lit "$") b = false := by simpa [rest] using stop
      have member : b ∈ [chr '$'] := by
        rw [← cut, rest, List.takeWhile_cons_of_pos (by simp [plain])]
        simp
      rw [List.mem_singleton] at member
      rw [member] at plain
      cases plain
  · rintro rfl
    decide

private theorem dropWhile_before {w : List Byte} (text : before w = []) : w.dropWhile (· != chr '$') = w := by
  have split : before w ++ w.dropWhile (· != chr '$') = w := List.takeWhile_append_dropWhile
  rwa [text, List.nil_append] at split

private theorem before_firstCut {w : List Byte} (text : before w = []) : before (firstCut (lit "$") w) = [] := by
  cases w with
  | nil => rfl
  | cons b rest =>
    by_cases dollar : b = chr '$'
    · subst dollar
      have starts : among (lit "$") (chr '$') = true := by decide
      rw [firstCut, List.takeWhile_cons_of_pos starts, List.cons_append, before, List.takeWhile_cons_of_neg (by simp)]
    · rw [before, List.takeWhile_cons_of_pos (by simpa using dollar)] at text
      cases text

/-- The cut takes away the values of the lost names. -/
private theorem echoed_firstCut (m : Env) (w : List Byte) :
    echoed m w = echoed m (firstCut (lit "$") w) ++ (lost w).flatMap fun name => (m name).getD [] := by
  unfold lost
  by_cases lone : w = [chr '$']
  · subst lone
    have none : runs [chr '$'] = [] := by decide
    rw [(firstCut_lone_iff [chr '$']).mpr rfl, none]
    simp
  · by_cases text : before w = []
    · have names : runs (firstCut (lit "$") w) = (runs w).take 1 := by
        rw [runs, runs, dropWhile_before text, dropWhile_before (before_firstCut text), fields_firstCut]
      rw [if_pos text, echoed, echoed, if_neg lone, if_neg (mt (firstCut_lone_iff w).mp lone), text, before_firstCut text, names]
      cases runs w <;> simp
    · have plain : chr '$' ∉ before w := by
        intro member
        simpa using List.mem_takeWhile_imp member
      rw [if_neg text, firstCut_text text, echoed_plain m plain, echoed, if_neg lone]

private theorem echoed_firstCut_iff (m : Env) (w : List Byte) :
    echoed m (firstCut (lit "$") w) = echoed m w ↔ ∀ name ∈ lost w, (m name).getD [] = [] := by
  rw [echoed_firstCut m w, List.self_eq_append_right, List.flatMap_eq_nil_iff]

/-- A line whose echoed words fit is echoed by milestone 4 as by milestone 3 exactly when every name that its
    tokens have lost is unbound or empty. -/
theorem echo_kept_iff (vars : List Variable) (block : Nat → Residue) (stack stack' : Residue) (in_ptr in_ptr' : List Byte)
    {tokens tokens' : List (Option Nat)} (room : tokens.length = MAX_STR_LEN) (room' : tokens'.length = MAX_STR_LEN)
    {line : List Byte} (short : line.length ≤ MAX_STR_LEN) {args : List (List Byte)}
    (echo : words (CStr.of line) = lit "echo" :: args) (fits : (joined (get_var vars) args).length ≤ 127) :
    Milestone4.echo_output vars (fun count => some (block count)) stack' (fill in_ptr' line) tokens' =
        some (Milestone3.echo_output vars stack (fill in_ptr line) tokens) ↔
      ∀ w ∈ args, ∀ name ∈ lost w, (get_var vars name).getD [] = [] := by
  obtain ⟨post, filled, bound⟩ := fill_text in_ptr' line
  have few := length_words_le (bound.trans short)
  obtain ⟨region, ptrs, t, ran, -, mem, arr, laid⟩ := Replacing.tokenize_input_spec vars block (CStr.of line).2 post
    (show (words (CStr.of line)).length < tokens'.length by rw [room', MAX_STR_LEN]; omega)
  rw [echo, List.map_cons] at laid
  have shorter : ∀ w, (echoed (get_var vars) (firstCut (lit "$") w)).length ≤ (echoed (get_var vars) w).length := by
    intro w
    rw [echoed_firstCut (get_var vars) w, List.length_append]
    omega
  have nonempty : ∀ w ∈ args.map (firstCut (lit "$")), w ≠ [] := by
    rw [List.forall_mem_map]
    intro w member
    exact firstCut_ne_nil _ (fields_ne_nil (show w ∈ words (CStr.of line) by simp [echo, member]))
  have cutJoined : joined (get_var vars) (args.map (firstCut (lit "$"))) =
      [chr ' '].intercalate (args.map fun w => echoed (get_var vars) (firstCut (lit "$") w)) := by
    rw [joined, List.map_map]
    rfl
  have cutFits : (joined (get_var vars) (args.map (firstCut (lit "$")))).length ≤ 127 := by
    rw [cutJoined]
    exact (length_intercalate_map_le shorter _ args).trans fits
  have printed := (bn_echo_prints vars stack' laid nonempty post tokens' cutFits).2
  rw [milestone3_prints short echo vars stack in_ptr room fits, Milestone4.echo_output, filled, ran, Option.map_some,
    Option.some.injEq, mem, arr, printed, List.append_cancel_right_eq, cutJoined, joined,
    intercalate_map_eq_iff shorter [chr ' '] args]
  exact forall₂_congr fun w _ => echoed_firstCut_iff (get_var vars) w

theorem echo_kept_unbound :
    Milestone4.echo_output dirVars (fun _ => some zeros) zeros (fill (zeros.1 ++ [0]) (lit "echo $y$z b\n"))
        (List.replicate MAX_STR_LEN none) =
      some (Milestone3.echo_output dirVars zeros (fill (zeros.1 ++ [0]) (lit "echo $y$z b\n")) (List.replicate MAX_STR_LEN none)) :=
  (echo_kept_iff dirVars (fun _ => zeros) zeros zeros _ _ List.length_replicate List.length_replicate (by decide)
    (by decide +kernel : _ = lit "echo" :: [lit "$y$z", lit "b"]) (by decide +kernel)).mpr (by decide +kernel)

/-- `echo a$y` prints `a`. -/
theorem echo_loses_value : ¬ ∀ (vars : List Variable) (block : Nat → Residue) (stack stack' : Residue) (in_ptr in_ptr' : List Byte)
    (tokens tokens' : List (Option Nat)), tokens.length = MAX_STR_LEN → tokens'.length = MAX_STR_LEN →
      ∀ line : List Byte, line.length ≤ MAX_STR_LEN → ∀ args, words (CStr.of line) = lit "echo" :: args →
        (joined (get_var vars) args).length ≤ 127 →
          Milestone4.echo_output vars (fun count => some (block count)) stack' (fill in_ptr' line) tokens' =
            some (Milestone3.echo_output vars stack (fill in_ptr line) tokens) := by
  intro kept
  have differ : Milestone4.echo_output dirVars (fun _ => some zeros) zeros (fill [] (lit "echo a$y\n"))
      (List.replicate MAX_STR_LEN none) ≠
        some (Milestone3.echo_output dirVars zeros (fill [] (lit "echo a$y\n")) (List.replicate MAX_STR_LEN none)) := by
    decide +kernel
  exact differ (kept dirVars (fun _ => zeros) zeros zeros [] [] _ _ List.length_replicate List.length_replicate
    (lit "echo a$y\n") (by decide) [lit "a$y"] (by decide +kernel) (by decide +kernel))

end BashInC.Milestones
