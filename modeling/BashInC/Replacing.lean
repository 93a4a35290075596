import BashInC.Sessions

/-!
The tokenizer of the shell of milestone 4, which replaces the variables of every
token. `replace_variables` copies the text and the values of a token into a new
string, clipped at its end, and cuts the token itself at its first `$`
(`replace_variables_spec`). The token array gets the address of the token, so the
words delivered are the cut ones; `tokenize_input_delivers_iff` says when these
are the replaced ones all the same.
-/
namespace BashInC.Replacing
open Clib.Fields Clib.Strings Clib.Buffers BashInC.IoHelpers BashInC.Expansion BashInC.Variables
open BashInC.Echo BashInC.Mysh BashInC.Commands BashInC.Sessions

/-! ### The code -/

structure Replacement where
  final : Buffer
  curr_final_index : Int

/-- A copy to the end of `final`, truncated if necessary. -/
def Replacement.copy (max_str_len : Int) (r : Replacement) (src : List Byte) : Replacement :=
  let len : Int := src.length
  let len := if r.curr_final_index + len ≥ max_str_len - 1 then max_str_len - 1 - r.curr_final_index else len
  ⟨r.final.strncpy r.curr_final_index len src, r.curr_final_index + len⟩

/-- The body of `while (var_tokens != NULL)`. -/
def Replacement.reference (vars : List Variable) (max_str_len : Int) (r : Replacement) (var_tokens : List Byte) : Replacement :=
  match get_var vars var_tokens with
  | some val => r.copy max_str_len val
  | none => r

/-- `replace_variables(token, final, curr_final_index, max_str_len)`: the memory of the token after it, what
    it leaves in `final`, and the index it returns. -/
def replace_variables (vars : List Variable) (mem : List Byte) (token : Nat) (final : Buffer)
    (curr_final_index max_str_len : Int) : List Byte × Replacement :=
  let r : Replacement := ⟨final, curr_final_index⟩
  let var_tokens := strtok_r (lit "$") mem token
  if var_tokens.mem.getD token 0 ≠ chr '$' then
    let r := match var_tokens.token with
      | some text => r.copy max_str_len (cstr var_tokens.mem text)
      | none => r
    forTokens (lit "$") (Replacement.reference vars max_str_len) (mem.length + 1)
      (strtok_r (lit "$") var_tokens.mem var_tokens.save) r
  else forTokens (lit "$") (Replacement.reference vars max_str_len) (mem.length + 1) var_tokens r

/-- The variables of the loop of `tokenize_input`: `token_count` with `tokens`, and the strings allocated so far. -/
abbrev Loop := (Nat × List (Option Nat)) × List Buffer

/-- The body of the loop behind `malloc`. -/
def replace_token (vars : List Variable) (new_token : Residue) (state : Loop) (mem : List Byte) (curr_ptr : Nat) : Loop × List Byte :=
  let (mem, r) := replace_variables vars mem curr_ptr ⟨new_token, []⟩ 0 MAX_STR_LEN
  ((store_token state.1 curr_ptr, state.2 ++ [r.final.set r.curr_final_index 0]), mem)

/-- The loop over the tokens; `malloc` is what the allocation for each token returns, `none` for NULL. The flag
    says whether all were made. -/
def tokenize_loop (vars : List Variable) (malloc : Nat → Option Residue) : Nat → Scan → Loop → Loop × Scan × Bool
  | 0, scan, state => (state, scan, true)
  | fuel + 1, scan, state =>
    match scan.token with
    | none => (state, scan, true)
    | some curr_ptr =>
      match malloc state.1.1 with
      | none => (state, scan, false)
      | some new_token =>
        let (state, mem) := replace_token vars new_token state scan.mem curr_ptr
        tokenize_loop vars malloc fuel (strtok_r DELIMITERS mem scan.save) state

structure Tokenized extends IoHelpers.Tokenized where
  new_tokens : List Buffer

/-- `tokenize_input(in_ptr, tokens)`; `none` where it frees an address in the line, which has no defined behaviour. -/
def tokenize_input (vars : List Variable) (malloc : Nat → Option Residue) (in_ptr : List Byte) (tokens : List (Option Nat)) :
    Option Tokenized :=
  let (((token_count, tokens), new_tokens), scan, allocated) :=
    tokenize_loop vars malloc (in_ptr.length + 1) (strtok_r DELIMITERS in_ptr 0) ((0, tokens), [])
  if allocated then some ⟨⟨token_count, scan.mem, tokens.set token_count none, scan.save⟩, new_tokens⟩
  else if token_count = 0 then some ⟨⟨0, scan.mem, tokens, scan.save⟩, new_tokens⟩
  else none

/-! ### Words with their variables replaced -/

/-- What the references of a word stand for. -/
def values (m : Env) (w : List Byte) : List Byte := (runs w).flatMap fun run => (m run).getD []

/-- A word with its variables replaced, as far as a token holds it. -/
def replaced (m : Env) (w : List Byte) : List Byte := if chr '$' ∈ w then (before w ++ values m w).take 127 else w

/-- The word is not changed by replacing its variables, or the values replace just what the cut takes away:
    behind a text they are all empty, and at the start of a word they spell its `$`s and its first name. -/
def Unreplaced (m : Env) (w : List Byte) : Prop :=
  chr '$' ∉ w ∨ before w ≠ [] ∧ values m w = [] ∨ before w = [] ∧ (values m w).take 127 = firstCut (lit "$") w

instance (m : Env) (w : List Byte) : Decidable (Unreplaced m w) := by
  unfold Unreplaced; infer_instance

/-- The tokens delivered are these words, replaced, with a NULL behind them. -/
def Delivers (m : Env) (ws : List (List Byte)) (result : Option Tokenized) : Prop :=
  ∃ t, t ∈ result ∧ t.token_count = ws.length ∧ t.tokens[ws.length]? = some none ∧
    (t.tokens.take ws.length).map (Option.map (cstr t.mem)) = ws.map fun w => some (replaced m w)

instance (m : Env) (ws : List (List Byte)) (result : Option Tokenized) : Decidable (Delivers m ws result) := by
  unfold Delivers; infer_instance

/-- The copies for one token: its text, and the value of each name. -/
def pieces (m : Env) (w : List Byte) : List (List Byte) := (if before w = [] then [] else [before w]) ++ (runs w).filterMap m

private theorem foldl_reference (vars : List Variable) (max_str_len : Int) (names : List (List Byte)) (r : Replacement) :
    names.foldl (Replacement.reference vars max_str_len) r =
      (names.filterMap (get_var vars)).foldl (Replacement.copy max_str_len) r := by
  rw [List.foldl_filterMap]
  congr 1
  funext r name
  unfold Replacement.reference
  cases get_var vars name <;> rfl

/-- A call copies the pieces of its token, and cuts the token behind its first name or text. -/
theorem replace_variables_spec (vars : List Variable) {w : List Byte} (noNul : 0 ∉ w) (pre post : List Byte) (final : Buffer)
    (curr_final_index max_str_len : Int) :
    ∃ cut : List Byte, replace_variables vars (pre ++ w ++ 0 :: post) pre.length final curr_final_index max_str_len =
        (pre ++ cut ++ 0 :: post,
          (pieces (get_var vars) w).foldl (Replacement.copy max_str_len) ⟨final, curr_final_index⟩) ∧
      cut.length = w.length ∧ cut.takeWhile (· ≠ 0) = firstCut (lit "$") w := by
  have enough : w.length < (pre ++ w ++ 0 :: post).length + 1 := by
    simp
    omega
  have first := strtok_r_getD (lit "$") (pre ++ w ++ 0 :: post) pre.length
  unfold replace_variables
  dsimp only
  rw [first]
  cases w with
  | nil =>
    have ended : strtok_r (lit "$") (pre ++ [] ++ 0 :: post) pre.length = ⟨pre ++ [] ++ 0 :: post, none, pre.length⟩ := by
      simpa using strtok_r_end pre post (lit "$")
    refine ⟨[], ?_, rfl, rfl⟩
    have notDollar : (pre ++ [] ++ 0 :: post).getD pre.length 0 ≠ chr '$' := by
      simp
      decide
    rw [if_pos notDollar, ended]
    simp only [ended, forTokens]
    rfl
  | cons b rest =>
    have head : (pre ++ (b :: rest) ++ 0 :: post).getD pre.length 0 = b := by simp
    rw [head]
    by_cases dollar : b = chr '$'
    · -- every run of the token is a name
      subst dollar
      obtain ⟨cut, ran, size, spells⟩ := forTokens_fields (lit "$") (Replacement.reference vars max_str_len) noNul pre post
        ⟨final, curr_final_index⟩ enough
      refine ⟨cut, ?_, size, spells⟩
      rw [if_neg (not_not_intro rfl), ran, foldl_reference, pieces, before, runs,
        List.takeWhile_cons_of_neg (by decide), List.dropWhile_cons_of_neg (by decide)]
      rfl
    · -- the text in front of the first `$` is copied, and the runs behind it are names
      have starts : among (lit "$") b = false := by
        rw [among_dollar]
        simpa using dollar
      obtain ⟨mem, cut, save, token, text, ran, size, spells⟩ := forTokens_tail (lit "$")
        (Replacement.reference vars max_str_len) noNul (b := b) rfl starts pre post
        (Replacement.copy max_str_len ⟨final, curr_final_index⟩ (before (b :: rest))) enough
      refine ⟨cut, ?_, size, spells⟩
      rw [not_among_dollar] at text ran
      rw [← before] at text
      have nonempty : before (b :: rest) ≠ [] := by
        rw [before, List.takeWhile_cons_of_pos (by simpa using dollar)]
        simp
      rw [if_pos dollar, token]
      simp only [text, ran, foldl_reference, pieces, runs, if_neg nonempty, List.singleton_append, List.foldl_cons]

/-! ### The tokens -/

/-- When every allocation succeeds the loop is a loop over all tokens. -/
private theorem tokenize_loop_some (vars : List Variable) (block : Nat → Residue) (fuel : Nat) (scan : Scan) (state : Loop) :
    let ran := eachToken DELIMITERS
      (fun state mem curr_ptr => replace_token vars (block state.1.1) state mem curr_ptr) fuel scan state
    tokenize_loop vars (fun count => some (block count)) fuel scan state = (ran.1, ran.2, true) := by
  induction fuel generalizing scan state with
  | zero => rfl
  | succ fuel ih =>
    simp only [tokenize_loop, eachToken]
    cases scan.token with
    | none => rfl
    | some curr_ptr => exact ih _ _

/-- The string that is made for a token. -/
def made (vars : List Variable) (new_token : Residue) (w : List Byte) : Buffer :=
  let r := (pieces (get_var vars) w).foldl (Replacement.copy MAX_STR_LEN) ⟨⟨new_token, []⟩, 0⟩
  r.final.set r.curr_final_index 0

/-- What the loop makes of one word. -/
def madeOf (vars : List Variable) (block : Nat → Residue) (state : Loop) (token : Nat × List Byte) : Loop :=
  (store_token state.1 token.1, state.2 ++ [made vars (block state.1.1) token.2])

/-- The addresses stored do not depend on the strings made. -/
private theorem foldl_madeOf (vars : List Variable) (block : Nat → Residue) (found : List (Nat × List Byte)) (state : Loop) :
    (found.foldl (madeOf vars block) state).1 = found.foldl (fun stored token => store_token stored token.1) state.1 :=
  (List.foldl_hom Prod.fst fun _ _ => rfl).symm

/-- Every copy stays in front of the last byte of the string, and so does the terminator. -/
private theorem made_inBounds (vars : List Variable) (new_token : Residue) (w : List Byte) : (made vars new_token w).InBounds := by
  have copied : ∀ (srcs : List (List Byte)) (r : Replacement), r.final.InBounds → r.final.data.length = MAX_STR_LEN →
      0 ≤ r.curr_final_index → r.curr_final_index ≤ 127 →
      let out := srcs.foldl (Replacement.copy MAX_STR_LEN) r
      out.final.InBounds ∧ out.final.data.length = MAX_STR_LEN ∧ 0 ≤ out.curr_final_index ∧ out.curr_final_index ≤ 127 := by
    intro srcs
    induction srcs with
    | nil =>
      intro r inBounds size low high
      exact ⟨inBounds, size, low, high⟩
    | cons src srcs ih =>
      intro r inBounds size low high
      apply ih
      · refine inBounds_strncpy.mpr ⟨inBounds, ?_, ?_, ?_⟩ <;> simp only [size, MAX_STR_LEN] <;> omega
      · simpa [Replacement.copy] using size
      · simp only [Replacement.copy, MAX_STR_LEN]
        omega
      · simp only [Replacement.copy, MAX_STR_LEN]
        omega
  obtain ⟨inBounds, size, low, high⟩ := copied (pieces (get_var vars) w) ⟨⟨new_token, []⟩, 0⟩ (by simp [Buffer.InBounds])
    new_token.2 (Int.le_refl 0) (by simp)
  have room : (MAX_STR_LEN : Int) = 128 := rfl
  refine inBounds_set.mpr ⟨inBounds, low, by simp, ?_⟩
  rw [size]
  dsimp only
  omega

/-- One string is made for each token, and each within its block. -/
private theorem foldl_madeOf_new (vars : List Variable) (block : Nat → Residue) (found : List (Nat × List Byte)) (state : Loop) :
    (found.foldl (madeOf vars block) state).2.length = state.2.length + found.length ∧
      ((∀ b ∈ state.2, b.InBounds) → ∀ b ∈ (found.foldl (madeOf vars block) state).2, b.InBounds) := by
  induction found generalizing state with
  | nil => exact ⟨rfl, fun all => all⟩
  | cons token found ih =>
    obtain ⟨count, inBounds⟩ := ih (madeOf vars block state token)
    constructor
    · rw [List.foldl_cons, count, madeOf, List.length_append, List.length_singleton, List.length_cons]
      omega
    · intro all
      apply inBounds
      simp only [madeOf]
      rw [List.forall_mem_append, List.forall_mem_singleton]
      exact ⟨all, made_inBounds vars _ _⟩

/-- The loop stores the addresses in the line of its words, cut at their first `$`, and makes a string of
    each that it then loses. -/
theorem tokenize_input_made (vars : List Variable) (block : Nat → Residue) {line : List Byte} (noNul : 0 ∉ line)
    (post : List Byte) {tokens : List (Option Nat)} (room : (words line).length < tokens.length) :
    ∃ region ptrs t, tokenize_input vars (fun count => some (block count)) (line ++ 0 :: post) tokens = some t ∧
      t.token_count = (words line).length ∧ t.mem = region ++ post ∧ t.tokens = tokenArray ptrs tokens ∧
      Laid 0 region ptrs ((words line).map (firstCut (lit "$"))) ∧ region.length = line.length + 1 ∧
      t.new_tokens.length = (words line).length ∧ ∀ b ∈ t.new_tokens, b.InBounds := by
  obtain ⟨region, ptrs, save, ran, size, laid⟩ := eachToken_laid DELIMITERS
    (fun state mem curr_ptr => replace_token vars (block state.1.1) state mem curr_ptr)
    (fun state curr_ptr w => madeOf vars block state (curr_ptr, w))
    (firstCut (lit "$"))
    (fun state pre token post noNul => by
      obtain ⟨cut, replaced, size, spells⟩ := replace_variables_spec vars noNul pre post ⟨block state.1.1, []⟩ 0 MAX_STR_LEN
      refine ⟨cut, ?_, size, spells⟩
      simp only [replace_token, replaced, madeOf, made])
    noNul [] post ((0, tokens), []) (show line.length < (line ++ 0 :: post).length + 1 by rw [List.length_append]; omega)
  have count : ptrs.length = (words line).length := by
    rw [length_laid laid, List.length_map, words]
  rw [← count] at room
  obtain ⟨stored, folded, ended⟩ := store_tokens count room
  have loop := tokenize_loop_some vars block ((line ++ 0 :: post).length + 1) (strtok_r DELIMITERS (line ++ 0 :: post) 0)
    ((0, tokens), [])
  simp only [List.nil_append, List.length_nil] at ran
  rw [ran] at loop
  have addresses := foldl_madeOf vars block (ptrs.zip (words line)) ((0, tokens), [])
  obtain ⟨made, inBounds⟩ := foldl_madeOf_new vars block (ptrs.zip (words line)) ((0, tokens), [])
  rw [folded] at addresses
  rcases isDone : (ptrs.zip (words line)).foldl (madeOf vars block) ((0, tokens), []) with ⟨done, new_tokens⟩
  rw [isDone] at addresses made inBounds
  obtain rfl : done = (ptrs.length, stored) := addresses
  refine ⟨region, ptrs, ⟨⟨ptrs.length, region ++ post, tokenArray ptrs tokens, save⟩, new_tokens⟩, ?_, count, rfl, rfl, laid, size,
    ?_, inBounds (List.forall_mem_nil _)⟩
  · have loop' : tokenize_loop vars (fun count => some (block count)) ((line ++ 0 :: post).length + 1)
        (strtok_r DELIMITERS (line ++ 0 :: post) 0) ((0, tokens), []) =
          (((ptrs.length, stored), new_tokens), ⟨region ++ post, none, save⟩, true) := loop.trans (by rw [← isDone]; rfl)
    simp only [tokenize_input, loop', ended, ↓reduceIte]
  · simpa [List.length_zip, count] using made

theorem tokenize_input_spec (vars : List Variable) (block : Nat → Residue) {line : List Byte} (noNul : 0 ∉ line)
    (post : List Byte) {tokens : List (Option Nat)} (room : (words line).length < tokens.length) :
    ∃ region ptrs t, tokenize_input vars (fun count => some (block count)) (line ++ 0 :: post) tokens = some t ∧
      t.token_count = (words line).length ∧ t.mem = region ++ post ∧ t.tokens = tokenArray ptrs tokens ∧
      Laid 0 region ptrs ((words line).map (firstCut (lit "$"))) := by
  obtain ⟨region, ptrs, t, ran, count, mem, arr, laid, -⟩ := tokenize_input_made vars block noNul post room
  exact ⟨region, ptrs, t, ran, count, mem, arr, laid⟩

/-! ### The words delivered -/

theorem firstCut_text {w : List Byte} (text : before w ≠ []) : firstCut (lit "$") w = before w := by
  obtain ⟨b, rest, rfl⟩ := List.exists_cons_of_ne_nil (show w ≠ [] by rintro rfl; exact text rfl)
  have plain : ¬ (b == chr '$') = true := by
    intro dollar
    apply text
    rw [before, List.takeWhile_cons_of_neg (by simp [beq_iff_eq.mp dollar])]
  rw [firstCut, not_among_dollar, among_dollar, List.takeWhile_cons, if_neg plain, List.dropWhile_cons, if_neg plain]
  rfl

private theorem before_plain {w : List Byte} (plain : chr '$' ∉ w) : before w = w := by
  rw [before, List.takeWhile_eq_self_iff]
  intro b member
  simp only [bne_iff_ne, ne_eq]
  rintro rfl
  exact plain member

/-- Values behind a text make the word longer, as far as there is room. -/
private theorem take_text_values_iff (m : Env) {w : List Byte} (short : w.length ≤ MAX_STR_LEN) (dollar : chr '$' ∈ w) :
    (before w ++ values m w).take 127 = before w ↔ values m w = [] := by
  have split : before w ++ w.dropWhile (· != chr '$') = w := List.takeWhile_append_dropWhile
  have lengths := congrArg List.length split
  rw [List.length_append] at lengths
  unfold MAX_STR_LEN at short
  constructor
  · intro same
    cases rest : w.dropWhile (· != chr '$') with
    | nil => simp [values, runs, rest, fields_nil]
    | cons d tail =>
      cases tail with
      | nil =>
        have ends := List.head?_dropWhile_not (· != chr '$') w
        rw [rest] at ends
        obtain rfl : d = chr '$' := by simpa using ends
        rw [values, runs, rest]
        rfl
      | cons e tail =>
        rw [rest] at lengths
        have size := congrArg List.length same
        simp only [List.length_take, List.length_append, List.length_cons] at size lengths
        exact List.length_eq_zero_iff.mp (by omega)
  · intro none
    rw [none, List.append_nil, List.take_of_length_le]
    cases rest : w.dropWhile (· != chr '$') with
    | nil =>
      rw [rest, List.append_nil] at split
      have member : chr '$' ∈ before w := by
        rw [split]
        exact dollar
      exact absurd (List.mem_takeWhile_imp member) (by simp)
    | cons d tail =>
      rw [rest, List.length_cons] at lengths
      omega

/-- The cut word is the replaced one exactly when the word comes out unreplaced. -/
private theorem firstCut_eq_replaced_iff (m : Env) {w : List Byte} (short : w.length ≤ MAX_STR_LEN) (nonempty : w ≠ []) :
    firstCut (lit "$") w = replaced m w ↔ Unreplaced m w := by
  unfold replaced Unreplaced
  by_cases dollar : chr '$' ∈ w
  · rw [if_pos dollar]
    by_cases text : before w = []
    · rw [text, List.nil_append, eq_comm]
      simp [dollar]
    · rw [firstCut_text text, eq_comm, take_text_values_iff m short dollar]
      simp [dollar, text]
  · have text : before w ≠ [] := by rwa [before_plain dollar]
    rw [if_neg dollar, firstCut_text text]
    exact iff_of_true (before_plain dollar) (.inl dollar)

/-- The tokenizer delivers the words of a line, replaced, exactly when every one of them comes out unreplaced. -/
theorem tokenize_input_delivers_iff (vars : List Variable) (block : Nat → Residue) (in_ptr : List Byte) {line : List Byte}
    (short : line.length ≤ MAX_STR_LEN) {tokens : List (Option Nat)} (room : tokens.length = MAX_STR_LEN) :
    Delivers (get_var vars) (words (CStr.of line))
        (tokenize_input vars (fun count => some (block count)) (fill in_ptr line) tokens) ↔
      ∀ w ∈ words (CStr.of line), Unreplaced (get_var vars) w := by
  obtain ⟨post, filled, bound⟩ := fill_text in_ptr line
  have few := length_words_le (bound.trans short)
  obtain ⟨region, ptrs, t, ran, count, mem, arr, laid⟩ := tokenize_input_spec vars block (CStr.of line).2 post
    (show (words (CStr.of line)).length < tokens.length by rw [room, MAX_STR_LEN]; omega)
  have each : ptrs.length = (words (CStr.of line)).length := by rw [length_laid laid, List.length_map]
  obtain ⟨last, front⟩ := getElem?_tokenArray ptrs tokens
  have texts : ptrs.map (cstr t.mem) = (words (CStr.of line)).map (firstCut (lit "$")) := by
    have := @cstr_laid [] region _ _ laid post
    simpa [mem] using this
  have delivered : Delivers (get_var vars) (words (CStr.of line)) (some t) ↔
      (words (CStr.of line)).map (firstCut (lit "$")) = (words (CStr.of line)).map (replaced (get_var vars)) := by
    have strings : (t.tokens.take (words (CStr.of line)).length).map (Option.map (cstr t.mem)) =
        ((words (CStr.of line)).map (firstCut (lit "$"))).map some := by
      rw [arr, ← each, front, ← texts, List.map_map, List.map_map]
      rfl
    constructor
    · rintro ⟨t', same, -, -, spelled⟩
      obtain rfl := Option.mem_some.mp same
      rw [strings] at spelled
      apply List.map_injective_iff.mpr fun _ _ => Option.some.inj
      rw [spelled, List.map_map]
      rfl
    · intro same
      refine ⟨t, rfl, count, ?_, ?_⟩
      · rw [arr, ← each]
        exact last
      · rw [strings, same, List.map_map]
        rfl
  rw [filled, ran, delivered, List.map_inj_left]
  apply forall₂_congr
  intro w member
  have inLine : w.length ≤ MAX_STR_LEN := ((fields_sublist member).length_le.trans bound).trans short
  exact firstCut_eq_replaced_iff _ inLine (fields_ne_nil member)

/-- The variable list with `y` for `dir`. -/
def dirVars : List Variable := [⟨CStr.of (lit "y"), CStr.of (lit "dir")⟩]

theorem tokenize_input_delivers_unbound :
    Delivers (get_var dirVars) (words (CStr.of (lit "cat a$z b\n")))
        (tokenize_input dirVars (fun _ => some zeros) (fill (List.replicate 129 0) (lit "cat a$z b\n"))
          (List.replicate MAX_STR_LEN none)) ↔
      ∀ w ∈ words (CStr.of (lit "cat a$z b\n")), Unreplaced (get_var dirVars) w :=
  tokenize_input_delivers_iff dirVars (fun _ => zeros) (List.replicate 129 0) (by decide) List.length_replicate

/-- `ls $y` is given `$y`. -/
theorem tokenize_input_loses_value : ¬ ∀ (vars : List Variable) (block : Nat → Residue) (in_ptr line : List Byte),
    line.length ≤ MAX_STR_LEN → ∀ tokens : List (Option Nat), tokens.length = MAX_STR_LEN →
      Delivers (get_var vars) (words (CStr.of line))
        (tokenize_input vars (fun count => some (block count)) (fill in_ptr line) tokens) := by
  intro delivers
  have lost : ¬ Delivers (get_var dirVars) (words (CStr.of (lit "ls $y\n")))
      (tokenize_input dirVars (fun _ => some zeros) (fill (List.replicate 129 0) (lit "ls $y\n"))
        (List.replicate MAX_STR_LEN none)) := by decide +kernel
  exact lost (delivers dirVars (fun _ => zeros) (List.replicate 129 0) (lit "ls $y\n") (by decide) _ List.length_replicate)

end BashInC.Replacing
