import BashInC.Agreement

/-!
What the variable list holds in any session, and what a line with an assignment
makes of it. Names and values are words (`WellFormed`), whatever the lines refer
to. `strtok` skips every `=` in front of a name, so that a line with a leading `=`
can assign where there is no name; `assignment_splits_iff` says which lines are cut
at their first `=`.
-/
namespace BashInC.Bindings
open Clib.Fields Clib.Strings BashInC.IoHelpers BashInC.Expansion BashInC.Variables
open BashInC.Echo BashInC.System BashInC.Mysh BashInC.Commands BashInC.Sessions BashInC.Agreement
variable {W : Type*}

/-- The names are distinct words without `=`, and the values are words. -/
structure WellFormed (vars : List Variable) : Prop where
  distinct : (vars.map (·.name.1)).Nodup
  named : ∀ v ∈ vars, Word v.name.1 ∧ chr '=' ∉ v.name.1
  valued : ∀ v ∈ vars, Word v.val.1

/-! ### Words -/

theorem word_of_member {line w : List Byte} (noNul : 0 ∉ line) (member : w ∈ words line) : Word w where
  nonempty := fields_ne_nil member
  plain := fields_plain member
  noNul := fun nul => noNul ((fields_sublist member).subset nul)

/-- A word is one word. -/
theorem words_word {w : List Byte} (word : Word w) : words w = [w] := fields_single word.nonempty word.plain

private theorem word_of_sublist {w v : List Byte} (word : Word w) (part : v.Sublist w) (nonempty : v ≠ []) : Word v where
  nonempty := nonempty
  plain := fun b member => word.plain b (part.subset member)
  noNul := fun nul => word.noNul (part.subset nul)

section
variable {m : Env} (values : ∀ name value, m name = some value → Word value)
include values

/-- The expansion of a value is not empty: a reference to an unbound name is kept. -/
private theorem assigned_ne_nil {val : List Byte} (nonempty : val ≠ []) : assigned m val ≠ [] := by
  obtain ⟨c, rest, rfl⟩ := List.exists_cons_of_ne_nil nonempty
  by_cases dollar : c = chr '$'
  · subst dollar
    rw [assigned_cons_dollar]
    apply List.append_ne_nil_of_left_ne_nil
    cases found : m (rest.takeWhile nameByte) with
    | none => simp
    | some value => simpa using (values _ _ found).nonempty
  · rw [assigned_cons_plain m dollar]
    simp

/-- Under values that are words a word expands to a word. -/
theorem word_assigned {w : List Byte} (word : Word w) : Word (assigned m w) := by
  constructor
  · exact assigned_ne_nil values word.nonempty
  · intro b member
    rcases mem_assigned w member with inWord | ⟨name, value, found, inValue⟩
    · exact word.plain b inWord
    · exact (values name value found).plain b inValue
  · intro nul
    rcases mem_assigned w nul with inWord | ⟨name, value, found, inValue⟩
    · exact word.noNul inWord
    · exact (values name value found).noNul inValue

end

/-! ### Lists -/

private theorem overwrite_eq_some {name new_val : CStr} {vars vars' : List Variable}
    (found : overwrite name new_val vars = some vars') :
    vars'.map (·.name.1) = vars.map (·.name.1) ∧ ∀ v ∈ vars', v ∈ vars ∨ v.name = name ∧ v.val = new_val := by
  induction vars generalizing vars' with
  | nil => simp [overwrite] at found
  | cons curr next ih =>
    by_cases same : curr.name = name
    · simp only [overwrite, same, ↓reduceIte, Option.some.injEq] at found
      subst found
      constructor
      · simp [same]
      · intro v member
        rcases List.mem_cons.mp member with rfl | later
        · exact .inr ⟨rfl, rfl⟩
        · exact .inl (List.mem_cons_of_mem _ later)
    · simp only [overwrite, same, ↓reduceIte, Option.map_eq_some_iff] at found
      obtain ⟨rest, inRest, rfl⟩ := found
      obtain ⟨names, members⟩ := ih inRest
      constructor
      · rw [List.map_cons, List.map_cons, names]
      · intro v member
        rcases List.mem_cons.mp member with rfl | later
        · exact .inl (by simp)
        · exact (members v later).imp_left (List.mem_cons_of_mem _)

private theorem overwrite_eq_none {name new_val : CStr} {vars : List Variable} (missing : overwrite name new_val vars = none) :
    name.1 ∉ vars.map (·.name.1) := by
  induction vars with
  | nil => simp
  | cons curr next ih =>
    by_cases same : curr.name = name
    · simp [overwrite, same] at missing
    · simp only [overwrite, same, ↓reduceIte, Option.map_eq_none_iff] at missing
      have other : name.1 ≠ curr.name.1 := fun h => same (Subtype.ext h.symm)
      rw [List.map_cons, List.mem_cons, not_or]
      exact ⟨other, ih missing⟩

/-- An overwritten value that is the same leaves the list as it is. -/
private theorem overwrite_same {name new_val : CStr} {vars : List Variable} (bound : get_var vars name = some new_val.1) :
    overwrite name new_val vars = some vars := by
  induction vars with
  | nil => simp [get_var] at bound
  | cons curr next ih =>
    by_cases same : curr.name = name
    · simp only [get_var, same, ↓reduceIte, Option.some.injEq] at bound
      have value : new_val = curr.val := Subtype.ext bound.symm
      rw [overwrite, if_pos same, value]
    · have other : curr.name.1 ≠ name.1 := fun h => same (Subtype.ext h)
      simp only [get_var, other, ↓reduceIte] at bound
      simp [overwrite, same, ih bound]

theorem wellFormed_nil : WellFormed [] := ⟨by simp, by simp, by simp⟩

theorem wellFormed_values {vars : List Variable} (formed : WellFormed vars) {name value : List Byte}
    (found : get_var vars name = some value) : Word value := by
  obtain ⟨v, member, -, rfl⟩ := get_var_mem found
  exact formed.valued v member

/-- A fitting call on a name and a value that are words keeps the list well formed. -/
theorem wellFormed_def_var {vars : List Variable} (formed : WellFormed vars) {name val : CStr} (nameWord : Word name.1)
    (noSign : chr '=' ∉ name.1) (valWord : Word val.1) (fits : Fits (get_var vars) val) :
    WellFormed (def_var vars name val).vars := by
  have stored : Word (expanded vars val).1 := word_assigned (fun _ _ found => wellFormed_values formed found) valWord
  rw [def_var_vars name fits]
  cases listed : overwrite name (expanded vars val) vars with
  | some vars' =>
    obtain ⟨names, members⟩ := overwrite_eq_some listed
    rw [Option.getD_some]
    constructor
    · rw [names]
      exact formed.distinct
    · intro v member
      rcases members v member with old | ⟨isName, -⟩
      · exact formed.named v old
      · rw [isName]
        exact ⟨nameWord, noSign⟩
    · intro v member
      rcases members v member with old | ⟨-, isVal⟩
      · exact formed.valued v old
      · rw [isVal]
        exact stored
  | none =>
    rw [Option.getD_none]
    constructor
    · rw [List.map_cons, List.nodup_cons]
      exact ⟨overwrite_eq_none listed, formed.distinct⟩
    · intro v member
      rcases List.mem_cons.mp member with rfl | old
      · exact ⟨nameWord, noSign⟩
      · exact formed.named v old
    · intro v member
      rcases List.mem_cons.mp member with rfl | old
      · exact stored
      · exact formed.valued v old

/-! ### Sessions -/

/-- The name and the text that a line assigns are words, and the name has no `=`. -/
private theorem assignmentIn_words {line : CStr} {name val : CStr} (assigns : assignmentIn (words line) = some (name, val)) :
    Word name.1 ∧ chr '=' ∉ name.1 ∧ Word val.1 := by
  cases isWords : words line with
  | nil => simp [isWords, assignmentIn] at assigns
  | cons cmd args =>
    rw [isWords, assignmentIn] at assigns
    split_ifs at assigns
    have word : Word cmd := word_of_member line.2 (by simp [isWords])
    obtain ⟨lead, -, split, named, noSign, filled⟩ := assignmentOf_eq_some word.noNul assigns
    have inName : name.1.Sublist cmd := by
      rw [split]
      exact (List.sublist_append_right _ _).trans (List.sublist_append_left _ _)
    have inVal : val.1.Sublist cmd := by
      rw [split]
      exact (List.sublist_cons_self _ _).trans (List.sublist_append_right _ _)
    exact ⟨word_of_sublist word inName named, noSign, word_of_sublist word inVal filled⟩

private theorem wellFormed_step {k : Kernel W} {stack : Residue} {s s' : Shell W} (formed : WellFormed s.vars) (sized : s.Sized)
    {line : List Byte} (short : line.length ≤ MAX_STR_LEN) (next : (step k stack line s).outcome = .next s') :
    WellFormed s'.vars := by
  have list := step_next_vars sized short next
  cases assigns : assignmentIn (words (CStr.of line)) with
  | none =>
    rw [assigns] at list
    exact list ▸ formed
  | some call =>
    obtain ⟨name, val⟩ := call
    rw [assigns] at list
    obtain ⟨fits, list⟩ := list
    obtain ⟨nameWord, noSign, valWord⟩ := assignmentIn_words assigns
    rw [list]
    exact wellFormed_def_var formed nameWord noSign valWord fits

/-- In every state of a session whose assignments all fit, the names are distinct words without `=` and the
    values are words; so an assigned word expands to one word, and no bound name expands to nothing. -/
theorem reachable_wellFormed {k : Kernel W} {s : Shell W} (reached : Reachable k s) :
    WellFormed s.vars ∧ (∀ w, Word w → words (assigned (get_var s.vars) w) = [assigned (get_var s.vars) w]) ∧
      ∀ name, get_var s.vars name ≠ some [] := by
  have formed : WellFormed s.vars := by
    induction reached with
    | start stack w => exact wellFormed_nil
    | step reached short next ih => exact wellFormed_step ih (reachable_sized reached) short next
  refine ⟨formed, ?_, ?_⟩
  · intro w word
    exact words_word (word_assigned (fun _ _ found => wellFormed_values formed found) word)
  · intro name found
    exact (wellFormed_values formed found).nonempty rfl

theorem reachable_wellFormed_referring : ∃ s, after bare (start zeros ()) referring = some s ∧ WellFormed s.vars := by
  obtain ⟨s, ran, reached⟩ := @reachable_session referring (by decide +kernel) (by decide +kernel)
  exact ⟨s, ran, (reachable_wellFormed reached).1⟩

/-! ### Assignments -/

/-- The part of a word in front of its first `=`. -/
def nameOf (cmd : List Byte) : List Byte := cmd.takeWhile (· ≠ chr '=')

/-- The part of a word behind its first `=`. -/
def valOf (cmd : List Byte) : List Byte := (cmd.dropWhile (· ≠ chr '=')).drop 1

/-- The round binds the part of the word in front of its first `=` to the expansion of the part behind it, and
    no other name; if one of the parts is empty, it leaves the list as it is. -/
def SplitsAtFirst (s : Shell W) (cmd : List Byte) (outcome : Outcome (Shell W)) : Prop :=
  ∃ s', outcome = .next s' ∧
    if nameOf cmd ≠ [] ∧ valOf cmd ≠ [] then
      ∀ key, get_var s'.vars key =
        if key = nameOf cmd then some (assigned (get_var s.vars) (valOf cmd)) else get_var s.vars key
    else s'.vars = s.vars

/-- The word has a name in front of its first `=`, and its value fits; or what follows the leading `=`s is no
    assignment, or one of the value that the variable has. -/
def SplitKept (m : Env) (cmd : List Byte) : Prop :=
  if nameOf cmd = [] then
    match assignmentOf cmd with
    | none => True
    | some (name, val) => Fits m val ∧ m name = some (assigned m val)
  else valOf cmd = [] ∨ Fits m (valOf cmd)

instance (m : Env) (cmd : List Byte) : Decidable (SplitKept m cmd) :=
  have : Decidable (match assignmentOf cmd with
      | none => True
      | some (name, val) => Fits m val ∧ m name = some (assigned m val)) :=
    match assignmentOf cmd with
    | none => inferInstanceAs (Decidable True)
    | some (name, val) => inferInstanceAs (Decidable (Fits m val ∧ m name = some (assigned m val)))
  inferInstanceAs (Decidable (if nameOf cmd = [] then _ else valOf cmd = [] ∨ Fits m (valOf cmd)))

/-- What can be said of the list behind a line with a `=` in its first word. -/
private theorem step_assignment_iff (k : Kernel W) (stack : Residue) {s : Shell W} (sized : s.Sized) {line : List Byte}
    (short : line.length ≤ MAX_STR_LEN) {cmd : List Byte} {args : List (List Byte)} (isWords : words (CStr.of line) = cmd :: args)
    (sign : chr '=' ∈ cmd) (P : List Variable → Prop) :
    (∃ s', (step k stack line s).outcome = .next s' ∧ P s'.vars) ↔
      match assignmentOf cmd with
      | none => P s.vars
      | some (name, val) => Fits (get_var s.vars) val ∧ P (def_var s.vars name val).vars := by
  have notExit : cmd ≠ lit "exit" := by
    rintro rfl
    exact absurd sign (by decide)
  have input : line ≠ [] := by
    rintro rfl
    simp [CStr.of, words] at isWords
  have assigns : assignmentIn (words (CStr.of line)) = assignmentOf cmd := by
    rw [isWords, assignmentIn, if_pos ⟨notExit, sign⟩]
  have round : line_round k (view s) (words (CStr.of line)) = command_words k (view s) cmd args := by
    rw [isWords, line_round]
  rw [command_words, if_neg notExit, if_pos sign] at round
  constructor
  · rintro ⟨s', next, holds⟩
    have list := step_next_vars sized short next
    rw [assigns] at list
    cases found : assignmentOf cmd with
    | none =>
      rw [found] at list
      exact list ▸ holds
    | some call =>
      rw [found] at list
      exact ⟨list.1, list.2 ▸ holds⟩
  · intro allowed
    have goesOn : ∀ {v : View W}, line_round k (view s) (words (CStr.of line)) = some ⟨[], .next v⟩ → P v.vars →
        ∃ s', (step k stack line s).outcome = .next s' ∧ P s'.vars := by
      intro v settled holds
      have seen := congrArg Round.outcome (step_words stack sized short input settled)
      obtain ⟨s', next, rfl⟩ := map_eq_next_iff.mp seen
      exact ⟨s', next, holds⟩
    cases found : assignmentOf cmd with
    | none =>
      rw [found] at allowed round
      exact goesOn round allowed
    | some call =>
      obtain ⟨name, val⟩ := call
      rw [found] at allowed round
      obtain ⟨fits, holds⟩ := allowed
      have fitting : Fits (get_var (view s).vars) val := fits
      dsimp only at round
      rw [if_pos fitting] at round
      exact goesOn round holds

/-- A fitting call leaves the list as it is exactly when the variable has the value. -/
private theorem def_var_vars_eq_iff {vars : List Variable} (name : CStr) {val : CStr} (fits : Fits (get_var vars) val) :
    (def_var vars name val).vars = vars ↔ get_var vars name = some (assigned (get_var vars) val) := by
  constructor
  · intro same
    have bound := get_var_def_var name fits name.1
    rwa [same, if_pos rfl] at bound
  · intro bound
    have kept : overwrite name (expanded vars val) vars = some vars := overwrite_same bound
    rw [def_var_vars name fits, kept, Option.getD_some]

private theorem split_first {cmd : List Byte} (sign : chr '=' ∈ cmd) : nameOf cmd ++ chr '=' :: valOf cmd = cmd := by
  have split : nameOf cmd ++ cmd.dropWhile (· ≠ chr '=') = cmd := List.takeWhile_append_dropWhile
  have last := List.head?_dropWhile_not (fun b : Byte => decide (b ≠ chr '=')) cmd
  unfold valOf
  cases rest : cmd.dropWhile (· ≠ chr '=') with
  | nil =>
    rw [List.dropWhile_eq_nil_iff] at rest
    have differs := rest _ sign
    simp at differs
  | cons b more =>
    rw [rest] at split last
    have isSign : b = chr '=' := by simpa using last
    rw [← isSign]
    exact split

/-- A word with text in front of its first `=` is cut there. -/
private theorem assignmentOf_first {cmd : List Byte} (sign : chr '=' ∈ cmd) (named : nameOf cmd ≠ []) :
    assignmentOf cmd = if valOf cmd = [] then none else some (CStr.of (nameOf cmd), CStr.of (valOf cmd)) := by
  have noLead : ∀ b ∈ ([] : List Byte), among (lit "=") b = true := by simp
  have plain : ∀ b ∈ nameOf cmd, among (lit "=") b = false := by
    intro b member
    have differs : b ≠ chr '=' := by simpa using List.mem_takeWhile_imp member
    simpa [among, lit] using differs
  have cut := @assignmentOf_text [] (nameOf cmd) (valOf cmd) noLead named plain (chr '=') (by decide)
  rwa [List.nil_append, split_first sign] at cut

/-- On a line whose first word has a `=`, the shell does what the parts of the word in front of the first `=`
    and behind it say exactly when there is a part in front, or nothing is assigned without it, and the value
    fits. -/
theorem assignment_splits_iff {k : Kernel W} {s : Shell W} (reached : Reachable k s) (stack : Residue) {line : List Byte}
    (short : line.length ≤ MAX_STR_LEN) {cmd : List Byte} {args : List (List Byte)}
    (isWords : words (CStr.of line) = cmd :: args) (sign : chr '=' ∈ cmd) :
    SplitsAtFirst s cmd (step k stack line s).outcome ↔ SplitKept (get_var s.vars) cmd := by
  have sized := reachable_sized reached
  have word : Word cmd := word_of_member (CStr.of line).2 (by simp [isWords])
  have binds := step_assignment_iff k stack sized short isWords sign
  unfold SplitsAtFirst SplitKept
  by_cases unnamed : nameOf cmd = []
  · simp only [unnamed, ne_eq, not_true_eq_false, false_and, ↓reduceIte]
    rw [binds (· = s.vars)]
    cases assignmentOf cmd with
    | none => simp
    | some call => exact and_congr_right fun fits => def_var_vars_eq_iff call.1 fits
  · rw [if_neg unnamed]
    have first := assignmentOf_first sign unnamed
    by_cases empty : valOf cmd = []
    · simp only [empty, ne_eq, not_true_eq_false, and_false, ↓reduceIte, true_or, iff_true]
      rw [binds (· = s.vars), first, if_pos empty]
    · simp only [empty, unnamed, ne_eq, not_false_eq_true, and_self, ↓reduceIte, false_or]
      rw [binds fun vars => ∀ key, get_var vars key = if key = nameOf cmd then
        some (assigned (get_var s.vars) (valOf cmd)) else get_var s.vars key, first, if_neg empty]
      have noNulName : 0 ∉ nameOf cmd := fun nul => word.noNul ((List.takeWhile_sublist _).subset nul)
      have noNulVal : 0 ∉ valOf cmd := by
        intro nul
        exact word.noNul ((List.dropWhile_sublist _).subset (List.mem_of_mem_drop nul))
      rw [CStr.of_noNul noNulName, CStr.of_noNul noNulVal]
      exact and_iff_left_of_imp fun fits => get_var_def_var _ fits

theorem assignment_splits_signs :
    SplitsAtFirst (start zeros ()) (lit "x=====") (step bare zeros (lit "x=====\n") (start zeros ())).outcome :=
  (assignment_splits_iff (.start zeros ()) zeros (by decide) (by decide +kernel : _ = lit "x=====" :: []) (by decide)).mpr
    (by decide +kernel)

/-- A `=` in front of another one is skipped, and what follows it becomes a name. -/
theorem assignment_without_name : ¬ ∀ s : Shell Unit, Reachable bare s → ∀ (stack : Residue) (line : List Byte),
    line.length ≤ MAX_STR_LEN → ∀ cmd args, words (CStr.of line) = cmd :: args → chr '=' ∈ cmd →
      SplitsAtFirst s cmd (step bare stack line s).outcome := by
  intro splits
  obtain ⟨s', next, kept⟩ := splits (start zeros ()) (.start zeros ()) zeros (lit "=x=y\n") (by decide) (lit "=x=y") []
    (by decide +kernel) (by decide)
  rw [if_neg (by decide)] at kept
  have ran : after bare (start zeros ()) [(zeros, lit "=x=y\n")] = some s' := after_singleton_iff.mpr next
  have bound := of_after (fun s => s.vars ≠ []) ran (by decide +kernel)
  exact bound kept

end BashInC.Bindings
