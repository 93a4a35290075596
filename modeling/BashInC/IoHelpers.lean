import BashInC.Clib.Buffers

/-!
The output helpers of the shell and its tokenizer. What a function of the shell
does to its surroundings is a list of events: the bytes it writes, the ranges it
stores into its fixed-size arrays, the directories and files it opens.
`tokenize_input` works on the memory of the input line and on the token array,
both of which keep what earlier lines have left in them; `tokenize_input_spec`
says what it leaves: the words of the line, laid out in memory one behind the
other, and a NULL behind their addresses.
-/
namespace BashInC.IoHelpers
open Clib.Fields Clib.Strings Clib.Buffers

def MAX_STR_LEN : Nat := 128

def DELIMITERS : List Byte := lit " \t\n"

/-- The fixed-size arrays on the stack of `def_var`, `bn_echo` and `bn_ls`. -/
inductive Local
  | nameBuffer | new_val | final | filter | path
  deriving DecidableEq

def Local.size : Local → Nat
  | .nameBuffer => 128
  | .new_val => 1024
  | .final => MAX_STR_LEN
  | .filter => 128
  | .path => 128

/-- What a function does to its surroundings; `load` is the range of `input_buf` that a string at a token
    occupies, with its terminator. -/
inductive Event
  | stdout (bytes : List Byte)
  | stderr (bytes : List Byte)
  | store (array : Local) (range : Range)
  | load (range : Range)
  | opendir (path : List Byte) (opened : Bool)
  | closedir
  | fopen (path : List Byte) (opened : Bool)
  deriving DecidableEq

/-- A store lies in its array and a string in `input_buf`; other events touch no array. -/
def Event.InBounds : Event → Prop
  | .store array range => InRange array.size range
  | .load range => InRange (MAX_STR_LEN + 1) range
  | _ => True

instance : DecidablePred Event.InBounds
  | .store array range => inferInstanceAs (Decidable (InRange array.size range))
  | .load range => inferInstanceAs (Decidable (InRange (MAX_STR_LEN + 1) range))
  | .stdout _ | .stderr _ | .opendir _ _ | .closedir | .fopen _ _ => inferInstanceAs (Decidable True)

/-- What can be seen from outside of the process: everything but its own loads and stores. -/
def Event.visible : Event → Bool
  | .store _ _ | .load _ => false
  | _ => true

def visible (events : List Event) : List Event := events.filter Event.visible

@[simp] theorem visible_nil : visible [] = [] := rfl

@[simp] theorem visible_append (events more : List Event) : visible (events ++ more) = visible events ++ visible more :=
  List.filter_append ..

@[simp] theorem visible_cons_store (array : Local) (range : Range) (events : List Event) :
    visible (.store array range :: events) = visible events := rfl

@[simp] theorem visible_stores (array : Local) (ranges : List Range) : visible (ranges.map (.store array)) = [] := by
  induction ranges with
  | nil => rfl
  | cons range ranges ih => simpa using ih

theorem Event.inBounds_of_visible {e : Event} (seen : e.visible = true) : e.InBounds := by
  cases e with
  | store | load => simp [Event.visible] at seen
  | _ => trivial

theorem visible_eq_self {events : List Event} (seen : ∀ e ∈ events, e.visible = true) : visible events = events :=
  List.filter_eq_self.mpr seen

/-- The bytes that reach stdout. -/
def stdoutBytes (events : List Event) : List Byte :=
  events.flatMap fun
    | .stdout bytes => bytes
    | _ => []

def display_message (str : List Byte) : List Event := [.stdout (strnlenBytes str MAX_STR_LEN)]

def display_error (pre_str str : List Byte) : List Event :=
  [.stderr (strnlenBytes pre_str MAX_STR_LEN), .stderr (strnlenBytes str MAX_STR_LEN), .stderr (lit "\n")]

@[simp] theorem stdoutBytes_nil : stdoutBytes [] = [] := rfl

@[simp] theorem stdoutBytes_append (events more : List Event) :
    stdoutBytes (events ++ more) = stdoutBytes events ++ stdoutBytes more := List.flatMap_append

/-- Loads and stores reach no output. -/
theorem stdoutBytes_visible (events : List Event) : stdoutBytes (visible events) = stdoutBytes events := by
  induction events with
  | nil => rfl
  | cons e events ih =>
    unfold visible stdoutBytes at ih ⊢
    cases e with
    | store | load => simpa [Event.visible] using ih
    | _ => simpa [List.filter_cons, Event.visible] using ih

theorem visible_display_message (str : List Byte) : ∀ e ∈ display_message str, e.visible = true := by
  simp [display_message, Event.visible]

theorem visible_display_error (pre_str str : List Byte) : ∀ e ∈ display_error pre_str str, e.visible = true := by
  simp [display_error, Event.visible]

/-! ### The tokenizer -/

/-- What `tokenize_input` leaves: the number of tokens, the memory of the line, the token array and the
    pointer that `strtok` keeps between calls. -/
structure Tokenized where
  token_count : Nat
  mem : List Byte
  tokens : List (Option Nat)
  save : Nat

/-- `tokens[token_count++] = curr_ptr` -/
def store_token (state : Nat × List (Option Nat)) (curr_ptr : Nat) : Nat × List (Option Nat) :=
  (state.1 + 1, state.2.set state.1 (some curr_ptr))

/-- `tokenize_input(in_ptr, tokens)`, with `in_ptr` at the start of the memory. -/
def tokenize_input (in_ptr : List Byte) (tokens : List (Option Nat)) : Tokenized :=
  let ((token_count, tokens), scan) :=
    eachToken DELIMITERS (fun state mem curr_ptr => (store_token state curr_ptr, mem)) (in_ptr.length + 1)
      (strtok_r DELIMITERS in_ptr 0) (0, tokens)
  ⟨token_count, scan.mem, tokens.set token_count none, scan.save⟩

/-- The words of a line. -/
def words (line : List Byte) : List (List Byte) := fields (among DELIMITERS) line

/-- The token array once the addresses of a line's tokens and the NULL behind them are stored. -/
def tokenArray (ptrs : List Nat) (tokens : List (Option Nat)) : List (Option Nat) :=
  ptrs.map some ++ none :: tokens.drop (ptrs.length + 1)

theorem getElem?_tokenArray (ptrs : List Nat) (tokens : List (Option Nat)) :
    (tokenArray ptrs tokens)[ptrs.length]? = some none ∧ (tokenArray ptrs tokens).take ptrs.length = ptrs.map some := by
  unfold tokenArray
  constructor
  · rw [List.getElem?_append_right (by rw [List.length_map]), List.length_map, Nat.sub_self]
    rfl
  · exact List.take_left' (List.length_map _)

private theorem foldl_store_token (ptrs : List Nat) (done rest : List (Option Nat)) (room : ptrs.length ≤ rest.length) :
    ptrs.foldl store_token (done.length, done ++ rest) =
      (done.length + ptrs.length, done ++ ptrs.map some ++ rest.drop ptrs.length) := by
  induction ptrs generalizing done rest with
  | nil => simp
  | cons ptr ptrs ih =>
    obtain ⟨old, rest, rfl⟩ := List.exists_cons_of_length_pos (show 0 < rest.length by simp at room; omega)
    have stored : store_token (done.length, done ++ old :: rest) ptr =
        ((done ++ [some ptr]).length, (done ++ [some ptr]) ++ rest) := by
      simp [store_token]
    rw [List.foldl_cons, stored, ih _ _ (by simpa using room)]
    simp
    omega

/-- What the stores of the addresses of some words, and of the NULL behind them, leave in the token array. -/
theorem store_tokens {ptrs : List Nat} {ws : List (List Byte)} (each : ptrs.length = ws.length) {tokens : List (Option Nat)}
    (room : ptrs.length < tokens.length) :
    ∃ stored, (ptrs.zip ws).foldl (fun state token => store_token state token.1) (0, tokens) = (ptrs.length, stored) ∧
      stored.set ptrs.length none = tokenArray ptrs tokens := by
  refine ⟨ptrs.map some ++ tokens.drop ptrs.length, ?_, ?_⟩
  · have addresses : (ptrs.zip ws).map Prod.fst = ptrs := List.map_fst_zip (Nat.le_of_eq each)
    have folded := foldl_store_token ptrs [] tokens (Nat.le_of_lt room)
    rw [← addresses, List.foldl_map, addresses] at folded
    simpa using folded
  · have last : tokens.drop ptrs.length = tokens[ptrs.length] :: tokens.drop (ptrs.length + 1) :=
      List.drop_eq_getElem_cons room
    rw [List.set_append_right _ _ (by simp), last, List.length_map, Nat.sub_self, List.set_cons_zero, tokenArray]

/-- On a line in memory the tokenizer finds the words of the line: it lays them out in the memory of the
    line and its terminator, and stores their addresses with a NULL behind them. It changes no other byte
    and no other slot. -/
theorem tokenize_input_spec {line : List Byte} (noNul : 0 ∉ line) (post : List Byte) (tokens : List (Option Nat))
    (room : (words line).length < tokens.length) :
    ∃ (region : List Byte) (ptrs : List Nat) (save : Nat), tokenize_input (line ++ 0 :: post) tokens =
        ⟨(words line).length, region ++ post, tokenArray ptrs tokens, save⟩ ∧
      region.length = line.length + 1 ∧ Laid 0 region ptrs (words line) := by
  obtain ⟨region, ptrs, save, ran, size, laid⟩ := eachToken_laid DELIMITERS
    (fun state mem curr_ptr => (store_token state curr_ptr, mem)) (fun state curr_ptr _ => store_token state curr_ptr) id
    (fun state pre token post noNul => ⟨token, rfl, rfl, takeWhile_noNul noNul⟩) noNul [] post (0, tokens)
    (show line.length < (line ++ 0 :: post).length + 1 by rw [List.length_append]; omega)
  rw [List.map_id] at laid
  have count : ptrs.length = (words line).length := length_laid laid
  rw [← count] at room
  obtain ⟨stored, folded, ended⟩ := store_tokens count room
  refine ⟨region, ptrs, save, ?_, size, laid⟩
  simp only [List.nil_append, List.length_nil] at ran
  rw [words] at count folded
  simp only [tokenize_input, ran, folded, ended, words, ← count]

/-- The tokenizer keeps the sizes of the line and of the token array. -/
theorem length_tokenize_input (in_ptr : List Byte) (tokens : List (Option Nat)) :
    (tokenize_input in_ptr tokens).mem.length = in_ptr.length ∧
      (tokenize_input in_ptr tokens).tokens.length = tokens.length := by
  have kept := eachToken_invariant DELIMITERS (fun state mem curr_ptr => (store_token state curr_ptr, mem))
    (fun state mem => mem.length = in_ptr.length ∧ state.2.length = tokens.length)
    (by simp) (by simp [store_token]) (in_ptr.length + 1) (strtok_r DELIMITERS in_ptr 0) (0, tokens) (by simp)
  simpa [tokenize_input] using kept

/-- A line of at most `MAX_STR_LEN` bytes has at most 64 words. -/
theorem length_words_le {line : List Byte} (short : line.length ≤ MAX_STR_LEN) : (words line).length ≤ 64 := by
  have := length_fields_le (among DELIMITERS) line
  unfold MAX_STR_LEN at short
  unfold words
  omega

/-- The texts of the tokens. -/
def Tokenized.texts (t : Tokenized) : List (Option (List Byte)) := (t.tokens.take t.token_count).map (Option.map (cstr t.mem))

/-- However words are written on a line of at most `MAX_STR_LEN` bytes, with whitespace between them and around
    them, the tokenizer stores these words, in at most 64 slots, and a NULL behind them, and leaves the other slots
    as they are; so the whitespace makes no difference. -/
theorem tokenize_input_written {ws : List (List Byte)} {line : List Byte} (written : Written (among DELIMITERS) ws line)
    (noNul : ∀ w ∈ ws, 0 ∉ w) (short : line.length ≤ MAX_STR_LEN) (post : List Byte) {tokens : List (Option Nat)}
    (size : tokens.length = MAX_STR_LEN) :
    let t := tokenize_input (line ++ 0 :: post) tokens
    t.token_count = ws.length ∧ t.texts = ws.map some ∧ t.tokens[ws.length]? = some none ∧
      ws.length ≤ 64 ∧ (∀ i, ws.length < i → t.tokens[i]? = tokens[i]?) ∧
      ∀ line', Written (among DELIMITERS) ws line' → line'.length ≤ MAX_STR_LEN →
        ∀ (post' : List Byte) (tokens' : List (Option Nat)), tokens'.length = MAX_STR_LEN →
          (tokenize_input (line' ++ 0 :: post') tokens').texts = t.texts := by
  have spelled : ∀ {line : List Byte}, Written (among DELIMITERS) ws line → line.length ≤ MAX_STR_LEN →
      ∀ (post : List Byte) {tokens : List (Option Nat)}, tokens.length = MAX_STR_LEN →
        ws.length ≤ 64 ∧ ∃ region ptrs save, ptrs.length = ws.length ∧ tokenize_input (line ++ 0 :: post) tokens =
            ⟨ws.length, region ++ post, tokenArray ptrs tokens, save⟩ ∧
          (tokenize_input (line ++ 0 :: post) tokens).texts = ws.map some := by
    intro line written short post tokens size
    have isWords : words line = ws := fields_written written
    have plain : 0 ∉ line := by
      intro nul
      rcases mem_written written nul with delim | ⟨w, member, inWord⟩
      · exact absurd delim (by decide)
      · exact noNul w member inWord
    have few := length_words_le short
    obtain ⟨region, ptrs, save, ran, -, laid⟩ := tokenize_input_spec plain post tokens
      (show (words line).length < tokens.length by rw [size, MAX_STR_LEN]; omega)
    rw [isWords] at few ran laid
    have each : ptrs.length = ws.length := length_laid laid
    have texts : ptrs.map (cstr (region ++ post)) = ws := @cstr_laid [] region _ _ laid post
    refine ⟨few, region, ptrs, save, each, ran, ?_⟩
    rw [ran, Tokenized.texts, ← each, (getElem?_tokenArray ptrs tokens).2, ← texts, List.map_map, List.map_map]
    rfl
  obtain ⟨few, region, ptrs, save, each, ran, texts⟩ := spelled written short post size
  refine ⟨by rw [ran], texts, ?_, few, ?_, ?_⟩
  · rw [ran, ← each]
    exact (getElem?_tokenArray ptrs tokens).1
  · intro i behind
    rw [← each] at behind
    rw [ran, tokenArray, List.getElem?_append_right (by rw [List.length_map]; omega), List.length_map]
    obtain ⟨j, rfl⟩ : ∃ j, i = ptrs.length + 1 + j := ⟨i - (ptrs.length + 1), by omega⟩
    rw [show ptrs.length + 1 + j - ptrs.length = j + 1 by omega, List.getElem?_cons_succ, List.getElem?_drop]
  · intro line' written' short' post' tokens' size'
    obtain ⟨-, -, -, -, -, -, texts'⟩ := spelled written' short' post' size'
    rw [texts, texts']

theorem tokenize_input_written_echo :
    (tokenize_input (lit "  echo \t a\n" ++ 0 :: []) (List.replicate MAX_STR_LEN none)).texts =
      [some (lit "echo"), some (lit "a")] := by
  have written : Written (among DELIMITERS) [lit "echo", lit "a"]
      (lit "  " ++ lit "echo" ++ lit " \t " ++ ([] ++ lit "a" ++ lit "\n")) :=
    .cons (by decide +kernel) (by decide) (by decide +kernel) (by decide +kernel) (by decide)
      (.last (by decide +kernel) (by decide) (by decide +kernel) (by decide +kernel))
  exact (tokenize_input_written written (by decide +kernel) (by decide) [] List.length_replicate).2.1

end BashInC.IoHelpers
