import BashInC.Files

/-!
What `wc` counts. Its loop ends at a byte 0xFF, which compares equal to `EOF`, so
that it reads the whole file exactly when there is none (`word_count_whole_iff`).
A word is counted at the whitespace behind it, and the `EOF` that the loop starts
from counts as a word of its own when whitespace follows; so the words are right
exactly when these two errors make up for each other or do not occur
(`word_count_words_iff`).
-/
namespace BashInC.Counting
open Clib.Fields Clib.Strings Clib.Numbers BashInC.IoHelpers BashInC.System BashInC.Files
variable {W : Type*}

/-- The counts that `wc` prints for a content. -/
def counted (content : List Byte) : Counts := wc_loop content ⟨0, 0, 0, 0xFF⟩

/-- The loop as a whole: it takes the bytes in front of the first 0xFF. -/
theorem wc_loop_spec (content : List Byte) (counts : Counts) :
    let part := content.takeWhile (· ≠ 0xFF)
    let out := wc_loop content counts
    out.wordCount = counts.wordCount + ends wc_space counts.prev part ∧
      out.charCount = counts.charCount + part.length ∧
      out.newlineCount = counts.newlineCount + part.count (chr '\n') := by
  induction content generalizing counts with
  | nil => simp [wc_loop, ends]
  | cons curr rest ih =>
    by_cases stop : curr = 0xFF
    · simp [wc_loop, stop, ends]
    · have taken : (curr :: rest).takeWhile (· ≠ 0xFF) = curr :: rest.takeWhile (· ≠ 0xFF) := by
        simp [stop]
      obtain ⟨words, chars, newlines⟩ := ih
        { wordCount := counts.wordCount + if !wc_space counts.prev && wc_space curr then 1 else 0
          charCount := counts.charCount + 1
          newlineCount := counts.newlineCount + if curr = chr '\n' then 1 else 0
          prev := curr }
      simp only [wc_loop, stop, ↓reduceIte, words, chars, newlines, taken, ends, List.length_cons, List.count_cons,
        beq_iff_eq]
      omega

/-- No count exceeds the length of the content. -/
private theorem counted_le (content : List Byte) :
    (counted content).wordCount ≤ content.length ∧ (counted content).charCount ≤ content.length ∧
      (counted content).newlineCount ≤ content.length := by
  obtain ⟨words, chars, newlines⟩ := wc_loop_spec content ⟨0, 0, 0, 0xFF⟩
  have shorter := (List.takeWhile_sublist (fun b : Byte => decide (b ≠ 0xFF)) (l := content)).length_le
  rw [counted, words, chars, newlines]
  generalize content.takeWhile (fun b => decide (b ≠ 0xFF)) = part at shorter
  have fewer := ends_le_length wc_space 0xFF part
  have lines : part.count (chr '\n') ≤ part.length := List.count_le_length
  refine ⟨?_, ?_, ?_⟩ <;> simp only <;> omega

/-- The report has three numbers, each of no more digits than a bound on the size of the file. -/
theorem length_wc_report {content : List Byte} {size : Nat} (small : content.length ≤ size) :
    (wc_report (counted content)).length ≤ 43 + 3 * (decimal size).length := by
  obtain ⟨words, chars, newlines⟩ := counted_le content
  have length := length_decimal_le (words.trans small)
  have length' := length_decimal_le (chars.trans small)
  have length'' := length_decimal_le (newlines.trans small)
  have texts : (lit "word count ").length = 11 ∧ (lit "\ncharacter count ").length = 17 ∧
      (lit "\nnewline count ").length = 15 := by decide
  obtain ⟨text, text', text''⟩ := texts
  simp only [wc_report, List.length_append, text, text', text'']
  omega

/-- `wc` prints its report in full. -/
theorem word_count_prints (k : Kernel W) {w w' : W} (name : List Byte) {path content : List Byte}
    (opened : k.fopen w path = (some content, w')) (small : content.length ≤ INT_MAX) :
    stdoutBytes (word_count k w name (some path)).events = wc_report (counted content) ++ lit "\n" := by
  have noNul : 0 ∉ wc_report (counted content) := by
    simp only [wc_report, List.mem_append, decimal_noNul, or_false]
    decide
  have short : (wc_report (counted content)).length ≤ MAX_STR_LEN := (length_wc_report small).trans (by decide +kernel)
  have newline : strnlenBytes (lit "\n") MAX_STR_LEN = lit "\n" := by decide
  have report : strnlenBytes (wc_report (counted content)) MAX_STR_LEN = wc_report (counted content) :=
    strnlenBytes_short noNul short
  simp only [word_count, with_file, opened]
  rw [← counted, display_message, display_message, report, newline]
  simp [stdoutBytes]

/-- A text without 0xFF is read to its end. -/
private theorem takeWhile_text {content : List Byte} (text : 0xFF ∉ content) :
    content.takeWhile (fun b => decide (b ≠ 0xFF)) = content := by
  rw [List.takeWhile_eq_self_iff]
  intro b member
  simp only [decide_eq_true_eq]
  rintro rfl
  exact text member

/-! ### Characters and newlines -/

/-- A system in which every path is that of a file with this content. -/
def holding (content : List Byte) : Kernel Unit := { bare with fopen := fun _ _ => (some content, ()) }

/-- `wc` counts the bytes and the newlines of the whole file exactly when it has no byte 0xFF. -/
theorem word_count_whole_iff (k : Kernel W) {w w' : W} (name : List Byte) {path content : List Byte}
    (opened : k.fopen w path = (some content, w')) (small : content.length ≤ INT_MAX) :
    stdoutBytes (word_count k w name (some path)).events = wc_report (counted content) ++ lit "\n" ∧
      ((counted content).charCount = content.length ∧ (counted content).newlineCount = content.count (chr '\n') ↔
        0xFF ∉ content) := by
  refine ⟨word_count_prints k name opened small, ?_⟩
  obtain ⟨-, chars, newlines⟩ := wc_loop_spec content ⟨0, 0, 0, 0xFF⟩
  rw [counted, chars, newlines]
  simp only [Nat.zero_add]
  constructor
  · rintro ⟨whole, -⟩ member
    have same := (List.takeWhile_sublist (fun b : Byte => decide (b ≠ 0xFF))).eq_of_length whole
    have before := List.takeWhile_eq_self_iff.mp same 0xFF member
    simp at before
  · intro text
    rw [takeWhile_text text]
    exact ⟨rfl, rfl⟩

theorem word_count_whole_lines :
    stdoutBytes (word_count (holding (lit "a b\n\n")) () (lit "wc") (some (lit "f"))).events =
        wc_report (counted (lit "a b\n\n")) ++ lit "\n" ∧
      ((counted (lit "a b\n\n")).charCount = (lit "a b\n\n").length ∧
          (counted (lit "a b\n\n")).newlineCount = (lit "a b\n\n").count (chr '\n') ↔
        0xFF ∉ lit "a b\n\n") :=
  word_count_whole_iff (holding (lit "a b\n\n")) (lit "wc") rfl (by decide)

/-- A byte 0xFF ends the loop. -/
theorem word_count_stops : ¬ ∀ content : List Byte, content.length ≤ INT_MAX →
    stdoutBytes (word_count (holding content) () (lit "wc") (some (lit "f"))).events =
      wc_report { counted content with
        charCount := content.length
        newlineCount := content.count (chr '\n') } ++ lit "\n" := by
  intro whole
  have stopped : stdoutBytes (word_count (holding [0xFF, chr '\n']) () (lit "wc") (some (lit "f"))).events ≠
      wc_report { counted [0xFF, chr '\n'] with
        charCount := [0xFF, chr '\n'].length
        newlineCount := [0xFF, chr '\n'].count (chr '\n') } ++ lit "\n" := by decide +kernel
  exact stopped (whole [0xFF, chr '\n'] (by decide))

/-! ### Words -/

/-- The content is empty, or whitespace stands at one of its ends and not at the other. -/
def OneEnd (content : List Byte) : Prop := content = [] ∨ content.head?.map wc_space ≠ content.getLast?.map wc_space

instance (content : List Byte) : Decidable (OneEnd content) := by
  unfold OneEnd; infer_instance

/-- Whitespace at the start of a file is counted as a word, and a word at its end is not. -/
private theorem counted_words {content : List Byte} (text : 0xFF ∉ content) :
    (counted content).wordCount = (fields wc_space content).length ↔ OneEnd content := by
  obtain ⟨words, -, -⟩ := wc_loop_spec content ⟨0, 0, 0, 0xFF⟩
  rw [takeWhile_text text, Nat.zero_add] at words
  rw [counted, words]
  have eof : wc_space 0xFF = false := by decide
  cases content with
  | nil => simp [OneEnd, ends]
  | cons a l =>
    have all := ends_add_last wc_space 0xFF (a :: l)
    rw [length_fields_cons_cons, eof, List.getLast_cons (List.cons_ne_nil a l)] at all
    have last : (a :: l).getLast? = some ((a :: l).getLast (List.cons_ne_nil a l)) := List.getLast?_eq_some_getLast _
    simp only [OneEnd, last, List.head?_cons, Option.map_some, ne_eq, Option.some.injEq, List.cons_ne_nil, false_or]
    cases first : wc_space a <;> cases end_ : wc_space ((a :: l).getLast (List.cons_ne_nil a l)) <;>
      simp [first, end_] at all ⊢ <;> omega

/-- `wc` counts the words of a file without a byte 0xFF exactly when the file is empty or has whitespace at
    one end only. -/
theorem word_count_words_iff (k : Kernel W) {w w' : W} (name : List Byte) {path content : List Byte}
    (opened : k.fopen w path = (some content, w')) (small : content.length ≤ INT_MAX) (text : 0xFF ∉ content) :
    stdoutBytes (word_count k w name (some path)).events = wc_report (counted content) ++ lit "\n" ∧
      ((counted content).wordCount = (fields wc_space content).length ↔ OneEnd content) :=
  ⟨word_count_prints k name opened small, counted_words text⟩

theorem word_count_words_line :
    stdoutBytes (word_count (holding (lit "a bc\r\n")) () (lit "wc") (some (lit "f"))).events =
        wc_report (counted (lit "a bc\r\n")) ++ lit "\n" ∧
      ((counted (lit "a bc\r\n")).wordCount = (fields wc_space (lit "a bc\r\n")).length ↔ OneEnd (lit "a bc\r\n")) :=
  word_count_words_iff (holding (lit "a bc\r\n")) (lit "wc") rfl (by decide) (by decide)

/-- The word of a file without a newline is not counted. -/
theorem word_count_misses_word : ¬ ∀ content : List Byte, content.length ≤ INT_MAX → 0xFF ∉ content →
    stdoutBytes (word_count (holding content) () (lit "wc") (some (lit "f"))).events =
      wc_report { counted content with wordCount := (fields wc_space content).length } ++ lit "\n" := by
  intro counts
  have missed : stdoutBytes (word_count (holding (lit "a")) () (lit "wc") (some (lit "f"))).events ≠
      wc_report { counted (lit "a") with wordCount := (fields wc_space (lit "a")).length } ++ lit "\n" := by
    decide +kernel
  exact missed (counts (lit "a") (by decide) (by decide))

end BashInC.Counting
