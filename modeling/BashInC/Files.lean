import BashInC.Clib.Numbers
import BashInC.Clib.Pieces
import BashInC.System

/-!
The builtins that read a file or concern the current directory. `wc` and `cat`
never close what they open.
-/
namespace BashInC.Files
open Clib.Strings Clib.Numbers Clib.Pieces BashInC.IoHelpers BashInC.System
variable {W : Type*}

/-- `fopen(tokens[1], "r")` with the two errors that `wc` and `cat` report, and what they do with the
    content otherwise. The strings are `tokens[0]` and `tokens[1]`, the latter `none` for NULL. -/
def with_file (k : Kernel W) (w : W) (name : List Byte) (arg : Option (List Byte)) (use : List Byte → List Event) :
    Effect W :=
  match arg with
  | none => ⟨-1, display_error (lit "ERROR: No input source provided") name, w⟩
  | some path =>
    match k.fopen w path with
    | (none, w) => ⟨-1, .fopen path false :: display_error (lit "ERROR: Cannot open file") name, w⟩
    | (some content, w) => ⟨0, .fopen path true :: use content, w⟩

structure Counts where
  wordCount : Nat
  charCount : Nat
  newlineCount : Nat
  prev : Byte

def wc_space (c : Byte) : Bool := c == chr '\n' || c == chr '\t' || c == chr '\r' || c == chr ' '

/-- `while((curr = fgetc(file)) != EOF) { ... }`, where `curr` is a signed `char`: the byte 0xFF compares
    equal to `EOF`. -/
def wc_loop : List Byte → Counts → Counts
  | [], counts => counts
  | curr :: rest, counts =>
    if curr = 0xFF then counts
    else
      wc_loop rest
        { wordCount := counts.wordCount + if !wc_space counts.prev && wc_space curr then 1 else 0
          charCount := counts.charCount + 1
          newlineCount := counts.newlineCount + if curr = chr '\n' then 1 else 0
          prev := curr }

/-- The report that `wc` prints; its counts fit an `int`. -/
def wc_report (counts : Counts) : List Byte :=
  lit "word count " ++ decimal counts.wordCount ++ lit "\ncharacter count " ++ decimal counts.charCount ++
    lit "\nnewline count " ++ decimal counts.newlineCount

def word_count (k : Kernel W) (w : W) (name : List Byte) (arg : Option (List Byte)) : Effect W :=
  with_file k w name arg fun content =>
    display_message (wc_report (wc_loop content ⟨0, 0, 0, 0xFF⟩)) ++ display_message (lit "\n")

/-- The counts of `wc`, which are `int`s in the source, do not overflow on the file that the argument leads to. -/
def Countable (k : Kernel W) (w : W) (arg : Option (List Byte)) : Prop :=
  match arg.bind fun path => (k.fopen w path).1 with
  | some content => content.length ≤ INT_MAX
  | none => True

instance (k : Kernel W) (w : W) (arg : Option (List Byte)) : Decidable (Countable k w arg) := by
  unfold Countable; split <;> infer_instance

/-- `fgets(temp, n, file)`: the bytes read, up to a newline or `n - 1` of them, and what is left. -/
def fgets (n : Nat) (content : List Byte) : Option (List Byte × List Byte) :=
  if content = [] then none
  else
    let line := content.takeWhile (· ≠ chr '\n') ++ (content.dropWhile (· ≠ chr '\n')).take 1
    some (line.take (n - 1), content.drop (line.take (n - 1)).length)

/-- `while(fgets(temp, MAX_STR_LEN, file) != NULL) { display_message(temp); }` -/
def cat_loop : Nat → List Byte → List Event
  | 0, _ => []
  | fuel + 1, content =>
    match fgets MAX_STR_LEN content with
    | none => []
    | some (temp, rest) => display_message temp ++ cat_loop fuel rest

def cat (k : Kernel W) (w : W) (name : List Byte) (arg : Option (List Byte)) : Effect W :=
  with_file k w name arg fun content => cat_loop (content.length + 1) content ++ display_message (lit "\n")

def cd (k : Kernel W) (w : W) (name : List Byte) (arg : Option (List Byte)) : Effect W :=
  match arg with
  | none => ⟨1, display_error (lit "ERROR: Invalid path") name, w⟩
  | some path =>
    match k.chdir w path with
    | (false, w) => ⟨1, display_error (lit "ERROR: Invalid path") name, w⟩
    | (true, w) => ⟨0, [], w⟩

/-- On failure the array that `getcwd` was to fill is reported as it was found on the stack. -/
def pwd (k : Kernel W) (w : W) (stack : List Byte) : Effect W :=
  match k.getcwd w 128 with
  | some path => ⟨0, display_message path ++ display_message (lit "\n"), w⟩
  | none => ⟨1, display_error (lit "ERROR: Faileed to get current working directory") stack, w⟩

/-! ### Pieces -/

/-- `fgets` reads a piece. -/
theorem fgets_piece (n : Nat) {content : List Byte} (nonempty : content ≠ []) :
    fgets n content = some (piece (· == chr '\n') (n - 1) content,
      content.drop (piece (· == chr '\n') (n - 1) content).length) := by
  have same : (fun b : Byte => decide (b ≠ chr '\n')) = fun b => !(b == chr '\n') := by
    funext b
    by_cases isNewline : b = chr '\n' <;> simp [isNewline]
  unfold fgets piece
  rw [if_neg nonempty, same]

/-- `cat` displays its file in pieces of at most 127 bytes. -/
theorem cat_loop_pieces {fuel : Nat} {content : List Byte} (enough : content.length < fuel) :
    cat_loop fuel content = (pieces (· == chr '\n') 127 content).flatMap display_message := by
  induction content using pieces_induction (show 0 < 127 by decide) (· == chr '\n') generalizing fuel with
  | nil => cases fuel <;> rfl
  | cons content nonempty ih =>
    obtain ⟨fuel, rfl⟩ : ∃ m, fuel = m + 1 := ⟨fuel - 1, by omega⟩
    have shorter := length_drop_piece (p := (· == chr '\n')) (show 0 < 127 by decide) nonempty
    rw [cat_loop, MAX_STR_LEN, fgets_piece 128 nonempty, pieces_cons (by decide) nonempty, List.flatMap_cons,
      ← @ih fuel (by omega)]

/-! ### Events -/

private theorem with_file_visible (k : Kernel W) (w : W) (name : List Byte) (arg : Option (List Byte))
    {use : List Byte → List Event} (seen : ∀ content, ∀ e ∈ use content, e.visible = true) :
    ∀ e ∈ (with_file k w name arg use).events, e.visible = true := by
  unfold with_file
  split
  · exact visible_display_error _ _
  · split
    · simpa [Event.visible] using visible_display_error _ _
    · next content _ _ => simpa [Event.visible] using seen content

theorem word_count_visible (k : Kernel W) (w : W) (name : List Byte) (arg : Option (List Byte)) :
    ∀ e ∈ (word_count k w name arg).events, e.visible = true := by
  refine with_file_visible k w name arg fun content => ?_
  rw [List.forall_mem_append]
  exact ⟨visible_display_message _, visible_display_message _⟩

/-- `cat` prints what it reads, and does nothing else with it. -/
theorem mem_cat_loop {fuel : Nat} {content : List Byte} {e : Event} (member : e ∈ cat_loop fuel content) :
    ∃ bytes, e = .stdout bytes := by
  induction fuel generalizing content with
  | zero => simp [cat_loop] at member
  | succ fuel ih =>
    rw [cat_loop] at member
    split at member
    · cases member
    · rcases List.mem_append.mp member with here | later
      · exact ⟨_, List.mem_singleton.mp here⟩
      · exact ih later

theorem cat_visible (k : Kernel W) (w : W) (name : List Byte) (arg : Option (List Byte)) :
    ∀ e ∈ (cat k w name arg).events, e.visible = true := by
  refine with_file_visible k w name arg fun content => ?_
  rw [List.forall_mem_append]
  refine ⟨fun e member => ?_, visible_display_message _⟩
  obtain ⟨bytes, rfl⟩ := mem_cat_loop member
  rfl

theorem cd_visible (k : Kernel W) (w : W) (name : List Byte) (arg : Option (List Byte)) :
    ∀ e ∈ (cd k w name arg).events, e.visible = true := by
  unfold cd
  split
  · exact visible_display_error _ _
  · split
    · exact visible_display_error _ _
    · simp

theorem pwd_visible (k : Kernel W) (w : W) (stack : List Byte) : ∀ e ∈ (pwd k w stack).events, e.visible = true := by
  unfold pwd
  split
  · rw [List.forall_mem_append]
    exact ⟨visible_display_message _, visible_display_message _⟩
  · exact visible_display_error _ _

end BashInC.Files
