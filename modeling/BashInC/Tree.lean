import BashInC.Clib.FileTree
import BashInC.Listing

/-!
`ls` on a file tree. The system calls answer from the tree (`tree`); what a
recursive listing is to print are the names of the entries in pre-order down to
its depth (`listed`). `list_directory` prints these as long as no path that it
rebuilds for a directory is cut at the end of `full_path` (`list_directory_lists`).
-/
namespace BashInC.Tree
open Clib.Strings Clib.FileTree BashInC.IoHelpers BashInC.System BashInC.Listing

/-! ### The system -/

/-- A file tree and the current directory. -/
structure Disk where
  root : Entries
  cwd : Place

def Disk.resolve (s : Disk) (follow : Bool) (path : List Byte) : Option Node :=
  Clib.FileTree.resolve (.dir s.root) s.cwd follow path

def fileKind : Node → FileKind
  | .dir _ => .directory
  | .file _ | .symlink _ => .other

/-- The system calls on a tree that anything may be done with; only `chdir` changes the state. -/
def tree : Kernel Disk where
  opendir s path :=
    match s.resolve true path with
    | some (.dir entries) => (some entries.names, s)
    | _ => (none, s)
  closedir s := s
  lstat s path :=
    -- a path that ends with a `/` is that of a directory, and a link in front of it is followed
    if path.getLast? = some (chr '/') then
      match s.resolve true path with
      | some (.dir _) => (some .directory, s)
      | _ => (none, s)
    else ((s.resolve false path).map fileKind, s)
  fopen s path :=
    match s.resolve true path with
    | some (.file content) => (if path.getLast? = some (chr '/') then none else some content, s)
    | some (.dir _) => (some [], s)
    | _ => (none, s)
  chdir s path :=
    match locate (.dir s.root) s.cwd true path with
    | some place =>
      match find (.dir s.root) place with
      | some (.dir _) => (true, { s with cwd := place })
      | _ => (false, s)
    | none => (false, s)
  cwd s := some (chr '/' :: [chr '/'].intercalate s.cwd)

/-! ### Listings -/

/-- The name, if it contains the filter. -/
def matching (filter name : List Byte) : List (List Byte) := if filter <:+: name then [name] else []

def belowOf (below : Entries → List (List Byte)) : Node → List (List Byte)
  | .dir entries => below entries
  | .file _ | .symlink _ => []

/-- The matching names in a directory, each in front of what is listed below it. -/
def namesOf (filter : List Byte) (below : Entries → List (List Byte)) : Entries → List (List Byte)
  | .done => []
  | .dot rest => matching filter (lit ".") ++ namesOf filter below rest
  | .dotdot rest => matching filter (lit "..") ++ namesOf filter below rest
  | .child name node rest => matching filter name.1 ++ belowOf below node ++ namesOf filter below rest

/-- The matching names of all entries of the directories fewer than `depth` levels below one, in pre-order. -/
def listed (filter : List Byte) : Nat → Entries → List (List Byte)
  | 0, _ => []
  | depth + 1, entries => namesOf filter (listed filter depth) entries

/-- What is written for these names. -/
def lines (names : List (List Byte)) : List Event := names.flatMap fun name => [.stdout name, .stdout (lit "\n")]

def outputs (events : List Event) : List Event :=
  events.filter fun
    | .stdout _ | .stderr _ => true
    | _ => false

/-- A call of `list_directory` writes the names listed and nothing else, and returns 0. -/
def Lists (s : Disk) (path : List Byte) (depth : Nat) (filter : List Byte) (entries : Entries) : Prop :=
  (list_directory tree s path depth filter).ret = 0 ∧
    outputs (list_directory tree s path depth filter).events = lines (listed filter depth entries)

/-- The path rebuilt for a directory is not cut, and that for another entry is not cut to one of a directory. -/
def PathFits (s : Disk) (path : List Byte) (name : Name) : Node → Prop
  | .dir _ => (path ++ chr '/' :: name.1).length ≤ 1023
  | _ => (path ++ chr '/' :: name.1).length ≤ 1023 ∨ (tree.lstat s (entry_path path name.1)).1 ≠ some .directory

/-- The paths fit for all entries of the directories fewer than `levels` levels below one. -/
def PathsFit (s : Disk) : Nat → List Byte → Entries → Prop
  | 0, _, _ => True
  | levels + 1, path, entries => ∀ entry ∈ entries.children, PathFits s path entry.1 entry.2 ∧
      match entry.2 with
      | .dir sub => PathsFit s levels (path ++ chr '/' :: entry.1.1) sub
      | _ => True

instance (s : Disk) (path : List Byte) (name : Name) : ∀ node, Decidable (PathFits s path name node)
  | .dir _ => inferInstanceAs (Decidable (_ ≤ 1023))
  | .file _ | .symlink _ => inferInstanceAs (Decidable (_ ∨ _))

instance decidablePathsFit (s : Disk) : ∀ levels path entries, Decidable (PathsFit s levels path entries)
  | 0, _, _ => inferInstanceAs (Decidable True)
  | levels + 1, path, entries =>
    have : ∀ entry : Name × Node, Decidable (PathFits s path entry.1 entry.2 ∧
        match entry.2 with
        | .dir sub => PathsFit s levels (path ++ chr '/' :: entry.1.1) sub
        | _ => True)
      | (name, .dir sub) =>
        have := decidablePathsFit s levels (path ++ chr '/' :: name.1) sub
        inferInstanceAs (Decidable (_ ∧ PathsFit s levels _ sub))
      | (_, .file _) | (_, .symlink _) => inferInstanceAs (Decidable (_ ∧ True))
    inferInstanceAs (Decidable (∀ entry ∈ entries.children, _))

/-! ### Entries -/

@[simp] theorem outputs_append (events more : List Event) : outputs (events ++ more) = outputs events ++ outputs more :=
  List.filter_append ..

@[simp] theorem lines_nil : lines [] = [] := rfl

@[simp] theorem lines_append (names more : List (List Byte)) : lines (names ++ more) = lines names ++ lines more :=
  List.flatMap_append

/-- What a name of at most `MAX_STR_LEN` bytes is printed as. -/
private theorem outputs_shown (filter : List Byte) {name : List Byte} (noNul : 0 ∉ name) (short : name.length ≤ MAX_STR_LEN) :
    outputs (if shown filter name then display_message name ++ display_message (lit "\n") else []) =
      lines (matching filter name) := by
  have whole : strnlenBytes name MAX_STR_LEN = name := strnlenBytes_short noNul short
  have newline : strnlenBytes (lit "\n") MAX_STR_LEN = lit "\n" := by decide
  have same := shown_iff filter name
  unfold matching
  by_cases inside : filter <:+: name
  · rw [if_pos (same.mpr inside), if_pos inside, display_message, display_message, whole, newline]
    rfl
  · rw [if_neg (fun seen => inside (same.mp seen)), if_neg inside]
    rfl

section
variable {s : Disk} {path filter : List Byte} {depth : Int} {recurse : Disk → List Byte → Effect Disk}
  {below : Entries → List (List Byte)}

/-- The call of `list_directory` for an entry, or that there is none, leaves what is below it. -/
private def Handles (s : Disk) (recurse : Disk → List Byte → Effect Disk) (path : List Byte)
    (below : Entries → List (List Byte)) (name : Name) (node : Node) : Prop :=
  if (tree.lstat s (entry_path path name.1)).1 = some .directory then
    (recurse s (entry_path path name.1)).world = s ∧
      outputs (recurse s (entry_path path name.1)).events = lines (belowOf below node)
  else belowOf below node = []

theorem lstat_world (s : Disk) (path : List Byte) : (tree.lstat s path).2 = s := by
  simp only [tree]
  split
  · split <;> rfl
  · rfl

private theorem list_entry_dots (s : Disk) (recurse : Disk → List Byte → Effect Disk) (path filter : List Byte)
    (recursive : depth ≠ -1) {name : List Byte} (dots : name = lit "." ∨ name = lit "..") :
    (list_entry tree recurse depth path filter s name).2 = s ∧
      outputs (list_entry tree recurse depth path filter s name).1 = lines (matching filter name) := by
  have noNul : 0 ∉ name := by
    rcases dots with rfl | rfl <;> decide
  have short : name.length ≤ MAX_STR_LEN := by
    rcases dots with rfl | rfl <;> decide
  rw [← outputs_shown filter noNul short]
  unfold list_entry
  dsimp only
  rw [if_pos ⟨recursive, dots⟩]
  exact ⟨rfl, rfl⟩

private theorem list_entry_child (filter : List Byte) (recursive : depth ≠ -1) {name : Name} {node : Node} (short : name.1.length ≤ MAX_STR_LEN)
    (handles : Handles s recurse path below name node) :
    (list_entry tree recurse depth path filter s name.1).2 = s ∧
      outputs (list_entry tree recurse depth path filter s name.1).1 =
        lines (matching filter name.1) ++ lines (belowOf below node) := by
  have noDots : ¬ (depth ≠ -1 ∧ (name.1 = lit "." ∨ name.1 = lit "..")) := by
    rintro ⟨-, dot | dotdot⟩
    · exact name.2.notDot dot
    · exact name.2.notDotdot dotdot
  rw [← outputs_shown filter name.2.noNul short]
  unfold Handles at handles
  have world := lstat_world s (entry_path path name.1)
  unfold list_entry
  dsimp only
  rw [if_neg noDots, if_pos recursive, world]
  by_cases directory : (tree.lstat s (entry_path path name.1)).1 = some .directory
  · rw [if_pos directory] at handles
    obtain ⟨same, written⟩ := handles
    rw [if_pos ⟨directory, name.2.notDot, name.2.notDotdot⟩]
    exact ⟨same, by rw [outputs_append, written]⟩
  · rw [if_neg directory] at handles
    rw [if_neg (fun opened => directory opened.1), handles]
    exact ⟨rfl, by simp⟩

/-- The loop over the entries writes the names in the directory, each in front of what is below it. -/
private theorem list_entries_lists (filter : List Byte) (recursive : depth ≠ -1) : ∀ entries : Entries,
    (∀ entry ∈ entries.children, entry.1.1.length ≤ MAX_STR_LEN ∧ Handles s recurse path below entry.1 entry.2) →
      (list_entries tree recurse depth path filter s entries.names).2 = s ∧
        outputs (list_entries tree recurse depth path filter s entries.names).1 = lines (namesOf filter below entries)
  | .done, _ => ⟨rfl, rfl⟩
  | .dot rest, handles => by
    obtain ⟨world, written⟩ := list_entry_dots s recurse path filter recursive (.inl rfl : lit "." = lit "." ∨ _)
    obtain ⟨world', written'⟩ := list_entries_lists filter recursive rest handles
    simp only [Entries.names, list_entries, world, world', outputs_append, written, written', namesOf, lines_append,
      and_self]
  | .dotdot rest, handles => by
    obtain ⟨world, written⟩ := list_entry_dots s recurse path filter recursive (.inr rfl : lit ".." = lit "." ∨ _)
    obtain ⟨world', written'⟩ := list_entries_lists filter recursive rest handles
    simp only [Entries.names, list_entries, world, world', outputs_append, written, written', namesOf, lines_append,
      and_self]
  | .child name node rest, handles => by
    simp only [Entries.children, List.forall_mem_cons] at handles
    obtain ⟨⟨short, here⟩, later⟩ := handles
    obtain ⟨world, written⟩ := list_entry_child filter recursive short here
    obtain ⟨world', written'⟩ := list_entries_lists filter recursive rest later
    simp only [Entries.names, list_entries, world, world', outputs_append, written, written', namesOf, lines_append,
      List.append_assoc, and_self]

end

/-! ### Directories -/

/-- What `lstat` says of the path of an entry that is not cut. -/
theorem lstat_child {s : Disk} {path : List Byte} {entries : Entries} {name : Name} {node : Node}
    (dir : s.resolve true path = some (.dir entries)) (there : entries.lookup name.1 = some node)
    (uncut : (path ++ chr '/' :: name.1).length ≤ 1023) :
    (tree.lstat s (entry_path path name.1)).1 = some (fileKind node) := by
  have last : (path ++ chr '/' :: name.1).getLast? ≠ some (chr '/') := by
    obtain ⟨front, b, isName⟩ := (List.eq_nil_or_concat name.1).resolve_left name.2.nonempty
    rw [isName]
    simp only [List.concat_eq_append, List.getLast?_append, List.getLast?_cons]
    simp only [Option.getD_some, Option.some_or, ne_eq, Option.some.injEq]
    rintro rfl
    apply name.2.noSlash
    simp [isName]
  have found : s.resolve false (path ++ chr '/' :: name.1) = some node := resolve_child dir there (by simp)
  rw [entry_path, List.take_of_length_le uncut]
  simp only [tree, if_neg last, found, Option.map_some]

theorem opendir_dir {s : Disk} {path : List Byte} {entries : Entries}
    (dir : s.resolve true path = some (.dir entries)) : tree.opendir s path = (some entries.names, s) := by
  simp only [tree, dir]

/-- A directory is listed once its entries are handled one level lower. -/
private theorem lists_succ {s : Disk} {path : List Byte} {entries : Entries} {depth : Nat} {filter : List Byte}
    (dir : s.resolve true path = some (.dir entries))
    (handles : ∀ entry ∈ entries.children, entry.1.1.length ≤ MAX_STR_LEN ∧
      Handles s (fun w path => list_directory tree w path depth filter) path (listed filter depth) entry.1 entry.2) :
    (list_directory tree s path ((depth + 1 : Nat) : Int) filter).world = s ∧ Lists s path (depth + 1) filter entries := by
  have recursive : ((depth + 1 : Nat) : Int) ≠ -1 := by omega
  have more : ((depth + 1 : Nat) : Int) ≠ 0 := by omega
  have lower : ((depth + 1 : Nat) : Int) - 1 = depth := by omega
  obtain ⟨world, written⟩ := list_entries_lists filter recursive entries handles
  unfold Lists
  rw [list_directory_eq tree s path (by omega), lower, list_body, if_neg more, opendir_dir dir]
  dsimp only
  rw [world]
  refine ⟨rfl, rfl, ?_⟩
  rw [listed, ← written]
  simp [outputs]

/-- `list_directory` prints the names of the entries of the tree in pre-order, down to its depth, as long as the
    paths it rebuilds fit. -/
theorem list_directory_lists {s : Disk} {path : List Byte} {entries : Entries}
    (dir : s.resolve true path = some (.dir entries)) (tidy : entries.Tidy MAX_STR_LEN) (depth : Nat) (filter : List Byte)
    (fits : PathsFit s (depth - 1) path entries) : Lists s path depth filter entries := by
  -- the calls for the entries also leave the state as it is
  suffices ∀ depth (path : List Byte) (entries : Entries), s.resolve true path = some (.dir entries) →
      entries.Tidy MAX_STR_LEN → PathsFit s depth path entries →
        (list_directory tree s path ((depth + 1 : Nat) : Int) filter).world = s ∧
          Lists s path (depth + 1) filter entries by
    cases depth with
    | zero =>
      constructor
      · rfl
      · rfl
    | succ depth => exact (this depth path entries dir tidy fits).2
  intro depth
  induction depth with
  | zero =>
    intro path entries dir tidy _
    apply lists_succ dir
    intro entry member
    refine ⟨(Entries.lookup_children tidy member).1, ?_⟩
    -- one level lower nothing is listed
    have nothing : belowOf (listed filter 0) entry.2 = [] := by cases entry.2 <;> rfl
    unfold Handles
    rw [nothing]
    split
    · exact ⟨rfl, rfl⟩
    · rfl
  | succ depth ih =>
    intro path entries dir tidy fits
    apply lists_succ dir
    intro entry member
    obtain ⟨short, there, tidy'⟩ := Entries.lookup_children tidy member
    refine ⟨short, ?_⟩
    obtain ⟨here, below⟩ := fits entry member
    obtain ⟨name, node⟩ := entry
    cases node with
    | dir sub =>
      have directory : (tree.lstat s (entry_path path name.1)).1 = some .directory := lstat_child dir there here
      have subdir : s.resolve true (path ++ chr '/' :: name.1) = some (.dir sub) := resolve_child dir there (by simp)
      have whole : entry_path path name.1 = path ++ chr '/' :: name.1 := List.take_of_length_le here
      unfold Handles
      rw [if_pos directory, whole]
      obtain ⟨world, -, written⟩ := ih _ sub subdir tidy' below
      exact ⟨world, written⟩
    | file | symlink =>
      have other : (tree.lstat s (entry_path path name.1)).1 ≠ some .directory := by
        rcases here with uncut | cut
        · rw [lstat_child dir there uncut]
          simp [fileKind]
        · exact cut
      unfold Handles
      rw [if_neg other]
      rfl

private theorem isName_replicate {count : Nat} (nonempty : count ≠ 0) : IsName (List.replicate count (chr 'a')) := by
  have only : ∀ b ∈ List.replicate count (chr 'a'), b = chr 'a' := fun _ => List.eq_of_mem_replicate
  have first : chr 'a' ∈ List.replicate count (chr 'a') := List.mem_replicate.mpr ⟨nonempty, rfl⟩
  refine ⟨List.ne_nil_of_mem first, fun member => ?_, fun member => ?_, fun same => ?_, fun same => ?_⟩
  · exact absurd (only _ member) (by decide)
  · exact absurd (only _ member) (by decide)
  · rw [same] at first
    exact absurd first (by decide)
  · rw [same] at first
    exact absurd first (by decide)

/-- A name of so many bytes more than one. -/
def nameOf (count : Nat) : Name := ⟨List.replicate (count + 1) (chr 'a'), isName_replicate (Nat.succ_ne_zero count)⟩

/-- A directory with a directory that holds a file and a link to its parent. -/
def small : Entries :=
  .dot (.dotdot (.child (nameOf 0)
    (.dir (.child (nameOf 1) (.file []) (.dot (.child (nameOf 0) (.symlink ⟨lit "..", by decide⟩) (.dotdot .done)))))
    .done))

theorem list_directory_lists_small : Lists ⟨small, []⟩ (lit "./") 3 (lit "a") small := by
  apply list_directory_lists rfl
  · simp only [small, Entries.Tidy, Node.Tidy]
    decide
  · decide +kernel

/-- Directories nested in one another, all with names of 128 bytes. -/
def nested : Nat → Entries
  | 0 => .dot (.dotdot .done)
  | levels + 1 => .dot (.dotdot (.child (nameOf 127) (.dir (nested levels)) .done))

private theorem tidy_nested (levels : Nat) : (nested levels).Tidy MAX_STR_LEN := by
  induction levels with
  | zero => simp only [nested, Entries.Tidy]
  | succ levels ih =>
    simp only [nested, Entries.Tidy, Node.Tidy, Entries.lookup, ih, and_true]
    exact Nat.le_of_eq List.length_replicate

/-- The path of the directory eight levels down is cut, and leads nowhere. -/
theorem list_directory_stops : ¬ ∀ (s : Disk) (path : List Byte) (entries : Entries), s.resolve true path = some (.dir entries) →
    entries.Tidy MAX_STR_LEN → ∀ (depth : Nat) (filter : List Byte), Lists s path depth filter entries := by
  intro lists
  obtain ⟨-, written⟩ := lists ⟨nested 8, []⟩ (lit ".") (nested 8) rfl (tidy_nested 8) 9 []
  have fewer : (outputs (list_directory tree ⟨nested 8, []⟩ (lit ".") (9 : Nat) []).events).length ≠
      (lines (listed [] 9 (nested 8))).length := by decide +kernel
  exact fewer (congrArg List.length written)

end BashInC.Tree
