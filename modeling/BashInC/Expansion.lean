import BashInC.Clib.Strings

/-!
What the two expansions of `$` references are for, over an arbitrary assignment
of values to names: `assigned`, which an assignment stores, keeps a reference to
an unbound name as it is written; `echoed`, which `echo` prints, drops it. Both
are stated on the pieces between the `$`s, without a scanner.
-/
namespace BashInC.Expansion
open Clib.Fields Clib.Strings

/-- The value of each name, if it has one. -/
abbrev Env := List Byte → Option (List Byte)

/-- The bytes a name in an assigned value consists of. -/
def nameByte (b : Byte) : Bool := b != chr '$' && b != chr ' ' && b != chr '\t' && b != chr '\n'

/-! ### Assigned values -/

/-- The piece behind a `$`, up to the next one: its name replaced by the value, or kept together with
    the `$` when it is not bound, and what follows the name. -/
def reference (m : Env) (piece : List Byte) : List Byte :=
  (m (piece.takeWhile nameByte)).getD (chr '$' :: piece.takeWhile nameByte) ++ piece.dropWhile nameByte

/-- The single-pass expansion of a value. -/
def assigned (m : Env) (val : List Byte) : List Byte :=
  match val.splitOn (chr '$') with
  | [] => []
  | text :: pieces => text ++ pieces.flatMap (reference m)

/-- The names that a value refers to, in order; a `$` in front of no name byte refers to the empty name. -/
def references (val : List Byte) : List (List Byte) := (val.splitOn (chr '$')).tail.map (·.takeWhile nameByte)

/-- The bytes that a piece behind a `$` needs once it is expanded. -/
def referenceSize (m : Env) (piece : List Byte) : Nat :=
  (match m (piece.takeWhile nameByte) with
    | some val => val.length
    | none => (piece.takeWhile nameByte).length + 1) + (piece.dropWhile nameByte).length

/-- The bytes that an expanded value needs: those of its text, of the values of the bound names and of
    the unbound references. -/
def assignedSize (m : Env) (val : List Byte) : Nat :=
  match val.splitOn (chr '$') with
  | [] => 0
  | text :: pieces => text.length + (pieces.map (referenceSize m)).foldr (· + ·) 0

theorem length_reference (m : Env) (piece : List Byte) : (reference m piece).length = referenceSize m piece := by
  unfold reference referenceSize
  cases m (piece.takeWhile nameByte) <;>
    simp only [Option.getD_some, Option.getD_none, List.length_append, List.length_cons]

theorem length_assigned (m : Env) (val : List Byte) : (assigned m val).length = assignedSize m val := by
  have sizes : ∀ pieces : List (List Byte),
      (pieces.flatMap (reference m)).length = (pieces.map (referenceSize m)).foldr (· + ·) 0 := by
    intro pieces
    induction pieces with
    | nil => rfl
    | cons piece pieces ih => rw [List.flatMap_cons, List.length_append, length_reference, ih, List.map_cons, List.foldr_cons]
  unfold assigned assignedSize
  split
  · rfl
  · rw [List.length_append, sizes]

/-- An expansion depends on the names that the value refers to. -/
theorem assigned_congr {m m' : Env} {val : List Byte} (same : ∀ name ∈ references val, m name = m' name) :
    assigned m val = assigned m' val := by
  unfold references at same
  unfold assigned
  generalize val.splitOn (chr '$') = split at same
  cases split with
  | nil => rfl
  | cons text pieces =>
    rw [List.tail_cons, List.forall_mem_map] at same
    have each : ∀ piece ∈ pieces, reference m piece = reference m' piece := by
      intro piece member
      rw [reference, reference, same piece member]
    simp only [List.flatMap_congr each]

@[simp] theorem assigned_nil (m : Env) : assigned m [] = [] := by simp [assigned]

@[simp] theorem references_nil : references [] = [] := by simp [references]

theorem assigned_cons_plain (m : Env) {c : Byte} (plain : c ≠ chr '$') (val : List Byte) :
    assigned m (c :: val) = c :: assigned m val := by
  unfold assigned
  rw [List.splitOn_cons_eq_if_modifyHead, if_neg (by simpa using plain)]
  cases split : val.splitOn (chr '$') with
  | nil => exact absurd split (List.splitOn_ne_nil _ _)
  | cons text pieces => simp

theorem references_cons_plain {c : Byte} (plain : c ≠ chr '$') (val : List Byte) :
    references (c :: val) = references val := by
  unfold references
  rw [List.splitOn_cons_eq_if_modifyHead, if_neg (by simpa using plain)]
  cases val.splitOn (chr '$') <;> simp

private theorem splitOn_name (val : List Byte) :
    val.splitOn (chr '$') =
      ((val.dropWhile nameByte).splitOn (chr '$')).modifyHead (val.takeWhile nameByte ++ ·) := by
  induction val with
  | nil => simp
  | cons c val ih =>
    by_cases part : nameByte c = true
    · have plain : ¬ (c == chr '$') = true := by
        intro same
        simp [nameByte, beq_iff_eq.mp same] at part
      rw [List.splitOn_cons_eq_if_modifyHead, if_neg plain, ih, List.takeWhile_cons_of_pos part,
        List.dropWhile_cons_of_pos part, List.modifyHead_modifyHead]
      rfl
    · rw [List.takeWhile_cons_of_neg part, List.dropWhile_cons_of_neg part]
      cases (c :: val).splitOn (chr '$') <;> simp

private theorem takeWhile_dropWhile_nil {p : Byte → Bool} (l : List Byte) : (l.dropWhile p).takeWhile p = [] := by
  induction l with
  | nil => rfl
  | cons a l ih => by_cases h : p a = true <;> simp [h, ih]

/-- The first piece behind the name is the name's rest: it starts with no name byte. -/
private theorem head_piece {val text : List Byte} {pieces : List (List Byte)}
    (split : (val.dropWhile nameByte).splitOn (chr '$') = text :: pieces) :
    (val.takeWhile nameByte ++ text).takeWhile nameByte = val.takeWhile nameByte ∧
      (val.takeWhile nameByte ++ text).dropWhile nameByte = text := by
  have stop : text.takeWhile nameByte = [] := by
    cases left : val.dropWhile nameByte with
    | nil =>
      rw [left] at split
      simp only [List.splitOn_nil, List.cons.injEq] at split
      simp [← split.1]
    | cons c rest =>
      have notName : ¬ nameByte c = true := by
        have := takeWhile_dropWhile_nil (p := nameByte) val
        rw [left] at this
        intro part
        simp [part] at this
      rw [left, List.splitOn_cons_eq_if_modifyHead] at split
      split at split
      · simp only [List.cons.injEq] at split
        simp [← split.1]
      · cases more : rest.splitOn (chr '$') with
        | nil => simp [more] at split
        | cons head tail =>
          simp only [more, List.modifyHead_cons, List.cons.injEq] at split
          simp [← split.1, notName]
  have name : ∀ b ∈ val.takeWhile nameByte, nameByte b = true := fun b member => List.mem_takeWhile_imp member
  have kept : text.dropWhile nameByte = text := by
    have := List.takeWhile_append_dropWhile (p := nameByte) (l := text)
    rwa [stop, List.nil_append] at this
  rw [List.takeWhile_append_of_pos name, List.dropWhile_append_of_pos name, stop, kept]
  simp

theorem assigned_cons_dollar (m : Env) (val : List Byte) :
    assigned m (chr '$' :: val) =
      (m (val.takeWhile nameByte)).getD (chr '$' :: val.takeWhile nameByte) ++ assigned m (val.dropWhile nameByte) := by
  unfold assigned
  rw [List.splitOn_cons_eq_if_modifyHead, if_pos (by simp), splitOn_name]
  cases split : (val.dropWhile nameByte).splitOn (chr '$') with
  | nil => exact absurd split (List.splitOn_ne_nil _ _)
  | cons text pieces =>
    obtain ⟨name, rest⟩ := head_piece split
    simp [reference, name, rest]

theorem references_cons_dollar (val : List Byte) :
    references (chr '$' :: val) = val.takeWhile nameByte :: references (val.dropWhile nameByte) := by
  unfold references
  rw [List.splitOn_cons_eq_if_modifyHead, if_pos (by simp), splitOn_name]
  cases split : (val.dropWhile nameByte).splitOn (chr '$') with
  | nil => exact absurd split (List.splitOn_ne_nil _ _)
  | cons text pieces =>
    obtain ⟨name, -⟩ := head_piece split
    simp [name]

/-- An expanded value consists of bytes of the value and of bytes of values of names. -/
theorem mem_assigned {m : Env} {b : Byte} (val : List Byte) (member : b ∈ assigned m val) :
    b ∈ val ∨ ∃ name value, m name = some value ∧ b ∈ value := by
  match val with
  | [] => simp at member
  | c :: rest =>
    by_cases dollar : c = chr '$'
    · subst dollar
      rw [assigned_cons_dollar, List.mem_append] at member
      rcases member with inName | later
      · cases found : m (rest.takeWhile nameByte) with
        | none =>
          rw [found, Option.getD_none, List.mem_cons] at inName
          rcases inName with rfl | inName
          · exact .inl (by simp)
          · exact .inl (List.mem_cons_of_mem _ ((List.takeWhile_sublist _).subset inName))
        | some value => exact .inr ⟨_, value, found, by simpa [found] using inName⟩
      · rcases mem_assigned (rest.dropWhile nameByte) later with inVal | inValue
        · exact .inl (List.mem_cons_of_mem _ ((List.dropWhile_sublist _).subset inVal))
        · exact .inr inValue
    · rw [assigned_cons_plain m dollar, List.mem_cons] at member
      rcases member with rfl | later
      · exact .inl (by simp)
      · rcases mem_assigned rest later with inVal | inValue
        · exact .inl (List.mem_cons_of_mem _ inVal)
        · exact .inr inValue
termination_by val.length
decreasing_by
  · have := (List.dropWhile_sublist (p := nameByte) (l := rest)).length_le
    simp only [List.length_cons]
    omega
  · simp

/-! ### Histories of assignments -/

/-- The assignments made so far, the newest first: each name with the value stored for it. -/
abbrev History := List (List Byte × List Byte)

/-- A name has the value stored by the newest assignment to it. -/
def History.env (h : History) : Env := fun name => h.lookup name

/-- An assignment stores the expansion of its text under the assignments before it. -/
def History.assign (h : History) (name val : List Byte) : History := (name, assigned h.env val) :: h

theorem History.env_assign (h : History) (name val key : List Byte) :
    (h.assign name val).env key = if key = name then some (assigned h.env val) else h.env key := by
  by_cases asked : key = name
  · simp [History.env, History.assign, asked]
  · have other : (key == name) = false := by simpa using asked
    simp [History.env, History.assign, List.lookup_cons, asked, other]

/-! ### Echoed words -/

theorem among_dollar : among (lit "$") = (· == chr '$') := among_singleton (chr '$')

theorem not_among_dollar : (fun b => !among (lit "$") b) = (· != chr '$') := by
  rw [among_dollar]
  rfl

/-- The text of a word in front of its first `$`. -/
def before (w : List Byte) : List Byte := w.takeWhile (· != chr '$')

/-- The maximal non-empty runs without `$` behind the first `$` of a word. -/
def runs (w : List Byte) : List (List Byte) := fields (among (lit "$")) (w.dropWhile (· != chr '$'))

/-- What `echo` prints for a word: a lone `$` as it is; otherwise each run behind the first `$` is a
    name that is replaced by its value, or by nothing when it is not bound. -/
def echoed (m : Env) (w : List Byte) : List Byte :=
  if w = [chr '$'] then [chr '$'] else before w ++ (runs w).flatMap fun run => (m run).getD []

/-- The words echoed, with single spaces between them. -/
def joined (m : Env) (words : List (List Byte)) : List Byte := [chr ' '].intercalate (words.map (echoed m))

/-- An echoed word consists of bytes of the word and of bytes of values of names. -/
theorem mem_echoed {m : Env} {b : Byte} {w : List Byte} (member : b ∈ echoed m w) :
    b ∈ w ∨ ∃ name value, m name = some value ∧ b ∈ value := by
  unfold echoed at member
  split at member
  · next lone => exact .inl (lone ▸ member)
  · rw [List.mem_append, List.mem_flatMap] at member
    rcases member with inText | ⟨run, -, inValue⟩
    · exact .inl ((List.takeWhile_sublist _).subset inText)
    · cases found : m run with
      | none => simp [found] at inValue
      | some value => exact .inr ⟨run, value, found, by simpa [found] using inValue⟩

/-- The words echoed consist of separators and of bytes of the echoed words. -/
theorem mem_joined {m : Env} {b : Byte} {ws : List (List Byte)} (member : b ∈ joined m ws) :
    b = chr ' ' ∨ ∃ w ∈ ws, b ∈ echoed m w := by
  unfold joined at member
  induction ws with
  | nil => simp at member
  | cons w ws ih =>
    cases ws with
    | nil => exact .inr ⟨w, by simp, by simpa using member⟩
    | cons w' ws =>
      rw [List.map_cons, List.map_cons, List.intercalate_cons_cons, List.mem_append, List.mem_append,
        List.mem_singleton] at member
      rcases member with (here | space) | later
      · exact .inr ⟨w, by simp, here⟩
      · exact .inl space
      · rcases ih later with space | ⟨v, inRest, inWord⟩
        · exact .inl space
        · exact .inr ⟨v, List.mem_cons_of_mem _ inRest, inWord⟩

end BashInC.Expansion
