import BashInC.Refinement
import BashInC.Tree

/-!
The current directory over whole sessions on a file tree. A session leaves the tree
as it is, and the current directory where its `cd` lines lead one after another
(`session_place`). A path with a relative path behind it can be walked in one `cd`
or in two (`cd_composes`), and an `ls` of a path is a `cd` to it with an `ls` behind
it, as long as no path is cut on the way (`ls_behind_cd`).
-/
namespace BashInC.Directories
open Clib.Fields Clib.Strings Clib.FileTree Clib.Streams BashInC.IoHelpers BashInC.Variables BashInC.Echo BashInC.System
open BashInC.Files BashInC.Listing BashInC.Tree BashInC.Mysh BashInC.Commands BashInC.Sessions BashInC.Input BashInC.Refinement

/-! ### Sessions -/

/-- The disk behind a `cd` to a path. -/
def enter (s : Disk) (path : List Byte) : Disk := (tree.chdir s path).2

/-- The path in a line that is a `cd`. -/
def cdPath : List (List Byte) → Option (List Byte)
  | cmd :: path :: _ => if cmd = lit "cd" then some path else none
  | _ => none

/-- `cd` leads to a directory of the tree, or nowhere. -/
theorem chdir_tree (s : Disk) (path : List Byte) :
    (∃ place entries, locate (.dir s.root) s.cwd true path = some place ∧ find (.dir s.root) place = some (.dir entries) ∧
      tree.chdir s path = (true, ⟨s.root, place⟩)) ∨ tree.chdir s path = (false, s) := by
  cases located : locate (.dir s.root) s.cwd true path with
  | none => exact .inr (by simp [tree, located])
  | some place =>
    cases found : find (.dir s.root) place with
    | none => exact .inr (by simp [tree, located, found])
    | some node =>
      cases node with
      | dir entries => exact .inl ⟨place, entries, rfl, found, by simp [tree, located, found]⟩
      | file content => exact .inr (by simp [tree, located, found])
      | symlink target => exact .inr (by simp [tree, located, found])

private theorem opendir_world (s : Disk) (path : List Byte) : (tree.opendir s path).2 = s := by
  simp only [tree]
  split <;> rfl

private theorem fopen_world (s : Disk) (path : List Byte) : (tree.fopen s path).2 = s := by
  simp only [tree]
  split <;> rfl

section
variable {recurse : Disk → List Byte → Effect Disk} (kept : ∀ s path, (recurse s path).world = s)
include kept

private theorem list_entry_world (depth : Int) (path filter : List Byte) (s : Disk) (d_name : List Byte) :
    (list_entry tree recurse depth path filter s d_name).2 = s := by
  by_cases flat : depth = -1 ∨ d_name = lit "." ∨ d_name = lit ".."
  · rw [list_entry_flat tree recurse path filter s flat]
  · rw [not_or] at flat
    rw [list_entry_deep tree recurse path filter s flat.1 flat.2]
    dsimp only
    rw [lstat_world]
    split
    · exact kept s _
    · rfl

private theorem list_entries_world (depth : Int) (path filter : List Byte) (s : Disk) (names : List CStr) :
    (list_entries tree recurse depth path filter s names).2 = s := by
  induction names with
  | nil => rfl
  | cons d_name names ih =>
    simp only [list_entries, list_entry_world kept depth path filter s d_name.1, ih]

private theorem list_body_world (depth : Int) (s : Disk) (path filter : List Byte) :
    (list_body tree recurse depth s path filter).world = s := by
  have opened := opendir_world s path
  unfold list_body
  split
  · rfl
  · generalize tree.opendir s path = result at opened
    obtain ⟨names, s'⟩ := result
    subst opened
    cases names with
    | none => rfl
    | some names => exact list_entries_world kept depth path filter _ names

end

/-- A listing leaves the disk as it is. -/
theorem list_directory_world (s : Disk) (path : List Byte) (depth : Int) (filter : List Byte) :
    (list_directory tree s path depth filter).world = s := by
  unfold list_directory
  generalize depth.toNat = levels
  induction levels generalizing depth s path with
  | zero => exact list_body_world (fun _ _ => rfl) depth s path filter
  | succ levels ih => exact list_body_world (fun s path => ih s path (depth - 1)) depth s path filter

private theorem with_file_world (s : Disk) (name : List Byte) (arg : Option (List Byte)) (use : List Byte → List Event) :
    (with_file tree s name arg use).world = s := by
  cases arg with
  | none => rfl
  | some path =>
    have opened := fopen_world s path
    unfold with_file
    dsimp only
    generalize tree.fopen s path = result at opened
    obtain ⟨content, s'⟩ := result
    subst opened
    cases content <;> rfl

section
variable {s : Shell Disk} {region post : List Byte} {first : Nat} {ptrs : List Nat} {tokens : List (Option Nat)}
  {cmd : List Byte} {args : List (List Byte)} (t : Tokens s region post first ptrs tokens cmd args) (stack : Residue)
include t

/-- Only `cd` changes the disk. -/
private theorem call_builtin_world {builtin_fn : Builtin} (known : check_builtin cmd = some builtin_fn) :
    (call_builtin tree stack s builtin_fn).1.world = match cdPath (cmd :: args) with
      | none => s.world
      | some path => enter s.world path := by
  have named : builtin_fn = .cd ↔ cmd = lit "cd" := by
    constructor
    · rintro rfl
      rw [check_builtin_eq] at known
      split_ifs at known <;> first | assumption | cases known
    · rintro rfl
      have found : check_builtin (lit "cd") = some .cd := by decide
      exact Option.some.inj (known.symm.trans found)
  by_cases isCd : cmd = lit "cd"
  · obtain rfl := named.mpr isCd
    simp only [call_builtin, t.arg_one]
    cases args with
    | nil => rfl
    | cons path args =>
      simp only [cd, List.head?_cons, cdPath, if_pos isCd, enter]
      rcases tree.chdir s.world path with ⟨moved, disk⟩
      cases moved <;> rfl
  · have other : cdPath (cmd :: args) = none := by
      cases args with
      | nil => rfl
      | cons path args => exact if_neg isCd
    rw [other]
    cases builtin_fn with
    | bn_echo => rfl
    | word_count => exact with_file_world ..
    | cat => exact with_file_world ..
    | cd => exact absurd (named.mp rfl) isCd
    | pwd =>
      simp only [call_builtin, pwd]
      split <;> rfl
    | bn_ls =>
      obtain ⟨events, -, ⟨message, ran⟩ | ⟨path, depth, filter, ran⟩⟩ := bn_ls_cases tree s.world s.input_buf s.token_arr
      · exact congrArg Effect.world ran
      · exact (congrArg Effect.world ran).trans (list_directory_world s.world path depth filter)

private theorem command_world {s' : Shell Disk} (ran : (command tree stack s first).2 = some s') :
    s'.world = match cdPath (cmd :: args) with
      | none => s.world
      | some path => enter s.world path := by
  have noNul : 0 ∉ cmd := laid_noNul t.laid cmd (by simp)
  have plain : chr '=' ∉ lit "cd" := by decide
  have unknown : cmd ≠ lit "cd" → cdPath (cmd :: args) = none := by
    intro other
    cases args with
    | nil => rfl
    | cons path args => exact if_neg other
  simp only [command, t.texts.1, exit_iff noNul] at ran
  split_ifs at ran with leaves assigns
  · rw [unknown (by rintro rfl; exact plain assigns)]
    cases ran
    unfold assignment
    dsimp only
    split <;> rfl
  · cases known : check_builtin cmd with
    | none =>
      rw [known] at ran
      cases ran
      rw [unknown]
      rintro rfl
      exact absurd known (by decide)
    | some builtin_fn =>
      rw [known] at ran
      cases ran
      exact call_builtin_world t stack known

end

/-- A round leaves the disk as it is, unless its line is a `cd`. -/
theorem step_world {stack : Residue} {s s' : Shell Disk} (sized : s.Sized) {line : List Byte}
    (short : line.length ≤ MAX_STR_LEN) (next : (step tree stack line s).outcome = .next s') :
    s'.world = match cdPath (words (CStr.of line)) with
      | none => s.world
      | some path => enter s.world path := by
  by_cases input : line = []
  · rw [input, step_eof] at next
    cases next
  · have ran := step_tokens tree stack sized short input
    cases isWords : words (CStr.of line) with
    | nil =>
      rw [isWords] at ran
      rw [ran] at next
      cases next
      rfl
    | cons cmd args =>
      rw [isWords] at ran
      obtain ⟨region, post, first, ptrs, tokens, ran⟩ := ran
      rw [ran] at next
      exact command_world tokens stack (outcome_eq_next_iff.mp next).2

/-- The paths of the `cd` lines of a session. -/
def cdPaths (lines : List (Residue × List Byte)) : List (List Byte) :=
  lines.filterMap fun line => cdPath (words (CStr.of line.2))

/-- The current directory is a directory of the tree. -/
def Disk.Valid (s : Disk) : Prop := ∃ entries, find (.dir s.root) s.cwd = some (.dir entries)

private theorem enter_kept {s : Disk} (valid : Disk.Valid s) (path : List Byte) :
    (enter s path).root = s.root ∧ Disk.Valid (enter s path) := by
  unfold enter
  rcases chdir_tree s path with ⟨place, entries, -, found, moved⟩ | stayed
  · rw [moved]
    exact ⟨rfl, entries, found⟩
  · rw [stayed]
    exact ⟨rfl, valid⟩

private theorem enter_paths {s : Disk} (valid : Disk.Valid s) (paths : List (List Byte)) :
    (paths.foldl enter s).root = s.root ∧ Disk.Valid (paths.foldl enter s) := by
  induction paths generalizing s with
  | nil => exact ⟨rfl, valid⟩
  | cons path paths ih =>
    obtain ⟨root, still⟩ := enter_kept valid path
    obtain ⟨root', last⟩ := ih still
    exact ⟨root'.trans root, last⟩

private theorem after_world {s s' : Shell Disk} (sized : s.Sized) {lines : List (Residue × List Byte)}
    (short : ∀ line ∈ lines, line.2.length ≤ MAX_STR_LEN) (ran : after tree s lines = some s') :
    s'.world = (cdPaths lines).foldl enter s.world := by
  induction lines generalizing s with
  | nil =>
    cases ran
    rfl
  | cons line lines ih =>
    obtain ⟨stack, text⟩ := line
    rw [List.forall_mem_cons] at short
    rw [after] at ran
    cases next : (step tree stack text s).outcome with
    | next s'' =>
      rw [next] at ran
      have here := step_world sized short.1 next
      rw [ih (sized_step sized short.1 next) short.2 ran, here, cdPaths, cdPaths, List.filterMap_cons]
      cases cdPath (words (CStr.of text)) <;> rfl
    | exit => simp [next] at ran
    | undefined => simp [next] at ran

/-- A session leaves the tree as it is, and the shell in the directory where its `cd` lines have led it. -/
theorem session_place (stack : Residue) {disk : Disk} (valid : Disk.Valid disk) {lines : List (Residue × List Byte)}
    (short : ∀ line ∈ lines, line.2.length ≤ MAX_STR_LEN) {s : Shell Disk}
    (ran : after tree (start stack disk) lines = some s) :
    s.world = (cdPaths lines).foldl enter disk ∧ s.world.root = disk.root ∧ Disk.Valid s.world := by
  have sized := reachable_sized (Reachable.start (k := tree) stack disk)
  have led : s.world = (cdPaths lines).foldl enter disk := after_world sized short ran
  obtain ⟨root, still⟩ := enter_paths valid (cdPaths lines)
  rw [← led] at root still
  exact ⟨led, root, still⟩

theorem up_ne : lit ".." ≠ [] := by decide

/-- A directory with a file and a link to its parent. -/
def sub : Entries :=
  .child (nameOf 1) (.file []) (.dot (.child (nameOf 0) (.symlink ⟨lit "..", up_ne⟩) (.dotdot .done)))

/-- A disk with this directory. -/
def linked : Disk := ⟨.dot (.dotdot (.child (nameOf 0) (.dir sub) .done)), []⟩

private theorem linked_valid : Disk.Valid linked := ⟨_, rfl⟩

/-- The second `cd` leads back over the link. -/
theorem session_place_linked : ∃ s, after tree (start zeros linked) (typed [lit "cd a", lit "ls", lit "cd a"]) = some s ∧
    s.world.cwd = [] := by
  have goes : (after tree (start zeros linked) (typed [lit "cd a", lit "ls", lit "cd a"])).isSome = true := by decide +kernel
  obtain ⟨s, ran⟩ := Option.isSome_iff_exists.mp goes
  obtain ⟨led, -, -⟩ := session_place zeros linked_valid (by decide +kernel) ran
  have back : ((cdPaths (typed [lit "cd a", lit "ls", lit "cd a"])).foldl enter linked).cwd = [] := by decide +kernel
  exact ⟨s, ran, by rw [led, back]⟩

/-! ### Paths -/

section
variable {s : Shell Disk} (sized : s.Sized) (stack : Residue) {line path : List Byte} (short : line.length ≤ MAX_STR_LEN)
  (isCd : words (CStr.of line) = [lit "cd", path])
include sized short isCd

/-- A `cd` to a directory shows the prompt and changes the current directory. -/
private theorem step_cd {place : Place} (moved : tree.chdir s.world path = (true, ⟨s.world.root, place⟩)) :
    ∃ s', (step tree stack line s).outcome = .next s' ∧ visible (step tree stack line s).events = display_message prompt ∧
      s'.Sized ∧ view s' = ⟨s.vars, ⟨s.world.root, place⟩⟩ := by
  have input : line ≠ [] := by
    rintro rfl
    cases isCd
  have settled : line_round tree (view s) (words (CStr.of line)) = some ⟨[], .next ⟨s.vars, ⟨s.world.root, place⟩⟩⟩ := by
    have runs : lit "cd" ≠ lit "exit" := by decide
    have plain : chr '=' ∉ lit "cd" := by decide
    have known : check_builtin (lit "cd") = some .cd := by decide
    rw [isCd]
    simp [line_round, command_words, runs, plain, known, builtin_words, cd, view, moved]
  have stepped := step_words stack sized short input settled
  have events := congrArg Round.events stepped
  have outcome := congrArg Round.outcome stepped
  obtain ⟨s', next, same⟩ := map_eq_next_iff.mp outcome
  exact ⟨s', next, events, sized_step sized short next, same⟩

end

/-- What a `cd` along a path does, two do along its parts. -/
private theorem chdir_append {s : Disk} {path more : List Byte} (nonempty : path ≠ []) (relative : more.head? ≠ some (chr '/'))
    (further : more ≠ []) {place : Place} (moved : tree.chdir s (path ++ chr '/' :: more) = (true, ⟨s.root, place⟩)) :
    ∃ mid, tree.chdir s path = (true, ⟨s.root, mid⟩) ∧ tree.chdir ⟨s.root, mid⟩ more = (true, ⟨s.root, place⟩) := by
  rcases chdir_tree s (path ++ chr '/' :: more) with ⟨place', entries, located, found, moved'⟩ | stayed
  · rw [moved] at moved'
    cases moved'
    obtain ⟨mid, entries', came, dir, went⟩ := locate_append nonempty relative further located
    exact ⟨mid, by simp only [tree, came, dir], by simp only [tree, went, found]⟩
  · rw [stayed] at moved
    cases moved

/-- A `cd` to a path that goes on behind a directory leaves the shell as a `cd` to the directory with one to the
    rest behind it: from then on the two show the same. -/
theorem cd_composes {s : Shell Disk} (sized : s.Sized) {path more : List Byte} (relative : more.head? ≠ some (chr '/'))
    {whole first second : Residue × List Byte} (short : ∀ line ∈ [whole, first, second], line.2.length ≤ MAX_STR_LEN)
    (isWhole : words (CStr.of whole.2) = [lit "cd", path ++ chr '/' :: more])
    (isFirst : words (CStr.of first.2) = [lit "cd", path]) (isSecond : words (CStr.of second.2) = [lit "cd", more])
    (there : (tree.chdir s.world (path ++ chr '/' :: more)).1 = true) :
    ∃ s₁ s₂, after tree s [whole] = some s₁ ∧ after tree s [first, second] = some s₂ ∧
      ∀ bufsiz residues stdin, (meaning tree bufsiz residues.length (session ⟨s₁, stdin⟩)).isSome →
        display tree bufsiz residues ⟨s₁, stdin⟩ = display tree bufsiz residues ⟨s₂, stdin⟩ := by
  simp only [List.forall_mem_cons] at short
  obtain ⟨shortWhole, shortFirst, shortSecond, -⟩ := short
  have nonempty : path ≠ [] := fields_ne_nil (show path ∈ words (CStr.of first.2) by simp [isFirst])
  have further : more ≠ [] := fields_ne_nil (show more ∈ words (CStr.of second.2) by simp [isSecond])
  rcases chdir_tree s.world (path ++ chr '/' :: more) with ⟨place, entries, -, -, moved⟩ | stayed
  · obtain ⟨mid, came, went⟩ := chdir_append nonempty relative further moved
    obtain ⟨s₁, next, -, sized₁, view₁⟩ := step_cd sized whole.1 shortWhole isWhole moved
    obtain ⟨s', next', -, sized', view'⟩ := step_cd sized first.1 shortFirst isFirst came
    have world : s'.world = ⟨s.world.root, mid⟩ := congrArg View.world view'
    have vars : s'.vars = s.vars := congrArg View.vars view'
    have moved' : tree.chdir s'.world more = (true, ⟨s'.world.root, place⟩) := by rw [world, went]
    obtain ⟨s₂, next₂, -, sized₂, view₂⟩ := step_cd sized' second.1 shortSecond isSecond moved'
    have same : view s₂ = view s₁ := by rw [view₂, view₁, vars, world]
    refine ⟨s₁, s₂, by simp [after, next], by simp [after, next', next₂], fun bufsiz residues stdin settled => ?_⟩
    obtain ⟨es, isMeaning⟩ := Option.isSome_iff_exists.mp settled
    have isMeaning' : meaning tree bufsiz residues.length (session ⟨s₂, stdin⟩) = some es := by
      rw [← isMeaning, session, session]
      exact congrArg (fun v => meaning tree bufsiz residues.length ⟨v, stdin⟩) same
    rw [display_meaning sized₁ isMeaning, display_meaning sized₂ isMeaning']
  · rw [stayed] at there
    cases there

theorem cd_composes_linked : ∃ s₁ s₂, after tree (start zeros linked) (typed [lit "cd a/a"]) = some s₁ ∧
    after tree (start zeros linked) (typed [lit "cd a", lit "cd a"]) = some s₂ ∧
      ∀ bufsiz residues stdin, (meaning tree bufsiz residues.length (session ⟨s₁, stdin⟩)).isSome →
        display tree bufsiz residues ⟨s₁, stdin⟩ = display tree bufsiz residues ⟨s₂, stdin⟩ :=
  @cd_composes (start zeros linked) (reachable_sized (Reachable.start (k := tree) zeros linked)) (lit "a") (lit "a") (by decide)
    (zeros, lit "cd a/a\n") (zeros, lit "cd a\n") (zeros, lit "cd a\n") (by decide +kernel) (by decide) (by decide) (by decide)
    (by decide +kernel)

/-! ### Listings from two directories -/

private theorem mem_names : ∀ {entries : Entries} {d_name : CStr}, d_name ∈ entries.names →
    d_name.1 = lit "." ∨ d_name.1 = lit ".." ∨ ∃ entry ∈ entries.children, d_name.1 = entry.1.1
  | .done, _, member => by cases member
  | .dot rest, _, member => by
    rcases List.mem_cons.mp member with rfl | later
    · exact .inl rfl
    · have below := mem_names later
      exact below
  | .dotdot rest, _, member => by
    rcases List.mem_cons.mp member with rfl | later
    · exact .inr (.inl rfl)
    · have below := mem_names later
      exact below
  | .child name node rest, _, member => by
    rcases List.mem_cons.mp member with rfl | later
    · exact .inr (.inr ⟨(name, node), by simp [Entries.children], rfl⟩)
    · rcases mem_names later with dot | dotdot | ⟨entry, below, same⟩
      · exact .inl dot
      · exact .inr (.inl dotdot)
      · exact .inr (.inr ⟨entry, by simp [Entries.children, below], same⟩)

/-- The two paths, each on its disk, are those of a directory with these entries, and none that is rebuilt
    below them is cut. -/
structure Twins (s s' : Disk) (path path' : List Byte) (levels : Nat) (entries : Entries) : Prop where
  dir : s.resolve true path = some (.dir entries)
  dir' : s'.resolve true path' = some (.dir entries)
  fits : PathsFit s levels path entries
  fits' : PathsFit s' levels path' entries

section
variable {s s' : Disk} {path path' : List Byte} {limit : Nat} {entries : Entries} (tidy : entries.Tidy limit)

/-- A path that fits is that of a directory exactly if the entry is one. -/
private theorem lstat_fits (dir : s.resolve true path = some (.dir entries)) {entry : Name × Node}
    (there : entries.lookup entry.1.1 = some entry.2) (fits : PathFits s path entry.1 entry.2) :
    (tree.lstat s (entry_path path entry.1.1)).1 = some .directory ↔ ∃ sub, entry.2 = .dir sub := by
  obtain ⟨name, node⟩ := entry
  cases node with
  | dir sub =>
    rw [lstat_child dir there fits]
    simp [fileKind]
  | file | symlink =>
    rcases fits with uncut | other
    · rw [lstat_child dir there uncut]
      simp [fileKind]
    · simp [other]

include tidy

/-- The subdirectories of twins are twins. -/
private theorem Twins.child {levels : Nat} (twins : Twins s s' path path' (levels + 1) entries) {name : Name} {sub : Entries}
    (member : (name, Node.dir sub) ∈ entries.children) :
    Twins s s' (entry_path path name.1) (entry_path path' name.1) levels sub := by
  obtain ⟨-, there, -⟩ := Entries.lookup_children tidy member
  obtain ⟨here, below⟩ := twins.fits (name, .dir sub) member
  obtain ⟨here', below'⟩ := twins.fits' (name, .dir sub) member
  have whole : entry_path path name.1 = path ++ chr '/' :: name.1 := List.take_of_length_le here
  have whole' : entry_path path' name.1 = path' ++ chr '/' :: name.1 := List.take_of_length_le here'
  rw [whole, whole']
  exact ⟨resolve_child twins.dir there (by simp), resolve_child twins.dir' there (by simp), below, below'⟩

end

/-- Listings of the same entries write the same when their calls for the subdirectories do. -/
private theorem list_entries_twins {recurse recurse' : Disk → List Byte → Effect Disk} {depth : Int}
    {path path' filter : List Byte} {s s' : Disk} {names : List CStr}
    (each : ∀ d_name ∈ names, (list_entry tree recurse depth path filter s d_name.1).2 = s ∧
      (list_entry tree recurse' depth path' filter s' d_name.1).2 = s' ∧
      outputs (list_entry tree recurse depth path filter s d_name.1).1 =
        outputs (list_entry tree recurse' depth path' filter s' d_name.1).1) :
    outputs (list_entries tree recurse depth path filter s names).1 =
      outputs (list_entries tree recurse' depth path' filter s' names).1 := by
  induction names with
  | nil => rfl
  | cons d_name names ih =>
    rw [List.forall_mem_cons] at each
    obtain ⟨⟨world, world', same⟩, later⟩ := each
    simp only [list_entries, world, world', outputs_append, same, ih later]

/-- What two listings of the same entries return and write is the same. -/
private theorem list_body_twins {recurse recurse' : Disk → List Byte → Effect Disk} {depth : Int}
    {path path' filter : List Byte} {s s' : Disk} {entries : Entries} (dir : s.resolve true path = some (.dir entries))
    (dir' : s'.resolve true path' = some (.dir entries))
    (each : ∀ d_name ∈ entries.names, (list_entry tree recurse depth path filter s d_name.1).2 = s ∧
      (list_entry tree recurse' depth path' filter s' d_name.1).2 = s' ∧
      outputs (list_entry tree recurse depth path filter s d_name.1).1 =
        outputs (list_entry tree recurse' depth path' filter s' d_name.1).1) :
    (list_body tree recurse depth s path filter).ret = (list_body tree recurse' depth s' path' filter).ret ∧
      outputs (list_body tree recurse depth s path filter).events =
        outputs (list_body tree recurse' depth s' path' filter).events := by
  have same := list_entries_twins each
  unfold list_body
  split
  · exact ⟨rfl, rfl⟩
  · rw [opendir_dir dir, opendir_dir dir']
    dsimp only
    have opened : ∀ path events, outputs (Event.opendir path true :: events ++ [.closedir]) = outputs events := by
      intro path events
      simp [outputs]
    rw [opened, opened]
    exact ⟨rfl, same⟩

/-- Listings of twins return and write the same. -/
theorem list_directory_twins {s s' : Disk} {path path' : List Byte} {limit : Nat} {entries : Entries}
    (tidy : entries.Tidy limit) {depth : Int} (valid : -1 ≤ depth) (filter : List Byte)
    (twins : Twins s s' path path' (depth.toNat - 1) entries) :
    (list_directory tree s path depth filter).ret = (list_directory tree s' path' depth filter).ret ∧
      outputs (list_directory tree s path depth filter).events =
        outputs (list_directory tree s' path' depth filter).events := by
  obtain flat | ⟨levels, rfl⟩ : depth = -1 ∨ ∃ n : Nat, depth = n := by
    rcases Int.lt_or_le depth 0 with low | high
    · exact .inl (by omega)
    · exact .inr ⟨depth.toNat, by omega⟩
  · subst flat
    rw [list_directory_eq tree s path (by omega), list_directory_eq tree s' path' (by omega)]
    refine list_body_twins twins.dir twins.dir' fun d_name _ => ?_
    rw [list_entry_flat tree _ path filter s (.inl rfl), list_entry_flat tree _ path' filter s' (.inl rfl)]
    exact ⟨rfl, rfl, rfl⟩
  · rw [Int.toNat_natCast] at twins
    induction levels generalizing path path' entries with
    | zero => exact ⟨rfl, rfl⟩
    | succ levels ih =>
      rw [list_directory_eq tree s path (by omega), list_directory_eq tree s' path' (by omega)]
      have lower : ((levels + 1 : Nat) : Int) - 1 = levels := by omega
      rw [lower]
      refine list_body_twins twins.dir twins.dir' fun d_name member => ?_
      have kept := fun (s : Disk) (path : List Byte) => list_directory_world s path levels filter
      have world := list_entry_world kept ((levels + 1 : Nat) : Int) path filter s d_name.1
      have world' := list_entry_world kept ((levels + 1 : Nat) : Int) path' filter s' d_name.1
      refine ⟨world, world', ?_⟩
      rcases mem_names member with dot | dotdot | ⟨entry, below, same⟩
      · rw [list_entry_flat tree _ path filter s (.inr (.inl dot)), list_entry_flat tree _ path' filter s' (.inr (.inl dot))]
      · rw [list_entry_flat tree _ path filter s (.inr (.inr dotdot)),
          list_entry_flat tree _ path' filter s' (.inr (.inr dotdot))]
      · have deep : ((levels + 1 : Nat) : Int) ≠ -1 := by omega
        have noDots : ¬ (d_name.1 = lit "." ∨ d_name.1 = lit "..") := by
          rw [same]
          exact not_or.mpr ⟨entry.1.2.notDot, entry.1.2.notDotdot⟩
        rw [list_entry_deep tree _ path filter s deep noDots, list_entry_deep tree _ path' filter s' deep noDots]
        dsimp only
        rw [lstat_world, lstat_world, same]
        cases levels with
        | zero =>
          -- whatever the entry is, a listing of depth 0 writes nothing
          have nothing : ∀ s path, outputs (list_directory tree s path ((0 : Nat) : Int) filter).events = [] := fun _ _ => rfl
          split <;> split <;> simp only [outputs_append, nothing, List.append_nil]
        | succ levels =>
          obtain ⟨-, there, tidy'⟩ := Entries.lookup_children tidy below
          have kind := lstat_fits twins.dir there (twins.fits entry below).1
          have kind' := lstat_fits twins.dir' there (twins.fits' entry below).1
          obtain ⟨name, node⟩ := entry
          cases node with
          | dir sub =>
            rw [if_pos (kind.mpr ⟨sub, rfl⟩), if_pos (kind'.mpr ⟨sub, rfl⟩)]
            obtain ⟨-, same'⟩ := ih tidy' (by omega) (twins.child tidy below)
            rw [outputs_append, outputs_append, same']
          | file | symlink =>
            rw [if_neg (by simp [kind]), if_neg (by simp [kind'])]

/-! ### Options -/

/-- What `ls` does with a path and these options. -/
def listing (s : Disk) (opts : List (List Byte)) (path : List Byte) : Effect Disk :=
  match ls_depth (opts.contains (lit "--rec")) (valueOf (lit "--d") opts) with
  | .error message => ⟨-1, display_error message (lit "-1"), s⟩
  | .ok depth => list_directory tree s path depth ((valueOf (lit "--f") opts).getD [])

/-- No path that `ls` rebuilds with these options is cut. -/
def Uncut (s : Disk) (opts : List (List Byte)) (path : List Byte) (entries : Entries) : Prop :=
  match ls_depth (opts.contains (lit "--rec")) (valueOf (lit "--d") opts) with
  | .error _ => True
  | .ok depth => PathsFit s (depth.toNat - 1) path entries

instance (s : Disk) (opts : List (List Byte)) (path : List Byte) (entries : Entries) :
    Decidable (Uncut s opts path entries) := by
  unfold Uncut; split <;> infer_instance

private theorem pathOf_found {ws : List (List Byte)} {skip : Bool} {path : List Byte} {found : Option (List Byte)}
    (scanned : pathOf skip (some path) ws = some (.path found)) : found = some path := by
  induction ws generalizing skip with
  | nil => cases skip <;> simp_all [pathOf]
  | cons w ws ih =>
    cases skip with
    | true => exact ih scanned
    | false =>
      by_cases flag : w = lit "--d" ∨ w = lit "--f"
      · rw [pathOf, if_pos flag] at scanned
        exact ih scanned
      · by_cases recursive : w = lit "--rec"
        · rw [pathOf, if_neg flag, if_pos recursive] at scanned
          exact ih scanned
        · simp [pathOf, flag, recursive] at scanned

/-- Options leave the path that is found in front of them. -/
private theorem pathOf_options {opts : List (List Byte)} {skip : Bool} (options : pathOf skip none opts = some (.path none))
    (path : List Byte) : pathOf skip (some path) opts = some (.path (some path)) := by
  induction opts generalizing skip with
  | nil =>
    cases skip with
    | true => cases options
    | false => rfl
  | cons w ws ih =>
    cases skip with
    | true => exact ih options
    | false =>
      by_cases flag : w = lit "--d" ∨ w = lit "--f"
      · rw [pathOf, if_pos flag] at options ⊢
        exact ih options
      · by_cases recursive : w = lit "--rec"
        · rw [pathOf, if_neg flag, if_pos recursive] at options ⊢
          exact ih options
        · rw [pathOf, if_neg flag, if_neg recursive] at options
          cases pathOf_found options

section
variable {opts : List (List Byte)} (options : pathOf false none opts = some (.path none))
include options

private theorem ls_words_options (s : Disk) : ls_words tree s opts = some (listing s opts (lit "./")) := by
  unfold ls_words listing
  rw [List.contains_eq_mem]
  cases ls_depth (decide (lit "--rec" ∈ opts)) (valueOf (lit "--d") opts) with
  | error message => rfl
  | ok depth => simp only [options, Option.getD_none]

private theorem ls_words_path {path : List Byte} (plain : path ∉ [lit "--rec", lit "--d", lit "--f"]) (s : Disk) :
    ls_words tree s (path :: opts) = some (listing s opts path) := by
  simp only [List.mem_cons, List.not_mem_nil, or_false, not_or] at plain
  obtain ⟨notRec, notD, notF⟩ := plain
  have values : ∀ flag, path ≠ flag → valueOf flag (path :: opts) = valueOf flag opts := by
    intro flag other
    cases opts with
    | nil => rfl
    | cons value ws => exact if_neg other
  have recursive : (lit "--rec" ∈ path :: opts) = (lit "--rec" ∈ opts) := by simp [Ne.symm notRec]
  have scanned : pathOf false none (path :: opts) = some (.path (some path)) := by
    rw [pathOf, if_neg (by simp [notD, notF]), if_neg notRec]
    exact pathOf_options options path
  unfold ls_words listing
  simp only [recursive, values _ notD, values _ notF, scanned, Option.getD_some, List.contains_eq_mem]
  cases ls_depth (decide (lit "--rec" ∈ opts)) (valueOf (lit "--d") opts) <;> rfl

end

private theorem outputs_visible (events : List Event) : outputs (visible events) = outputs events := by
  induction events with
  | nil => rfl
  | cons e events ih =>
    rw [← List.singleton_append, visible_append, outputs_append, outputs_append, ih]
    cases e <;> rfl

/-- What a line with an `ls` writes behind the prompt. -/
private theorem step_ls {s : Shell Disk} (sized : s.Sized) (stack : Residue) {line : List Byte}
    (short : line.length ≤ MAX_STR_LEN) {args : List (List Byte)} (isLs : words (CStr.of line) = lit "ls" :: args)
    {effect : Effect Disk} (ran : ls_words tree s.world args = some effect) :
    outputs (step tree stack line s).events = outputs (display_message prompt) ++ (outputs effect.events ++
      outputs (if effect.ret = -1 then display_error (lit "ERROR: Builtin failed: ") (lit "ls") else [])) := by
  have input : line ≠ [] := by
    rintro rfl
    cases isLs
  have runs : lit "ls" ≠ lit "exit" := by decide
  have plain : chr '=' ∉ lit "ls" := by decide
  have known : check_builtin (lit "ls") = some .bn_ls := by decide
  have settled : line_round tree (view s) (words (CStr.of line)) =
      some ⟨effect.events ++ if effect.ret = -1 then display_error (lit "ERROR: Builtin failed: ") (lit "ls") else [],
        .next ⟨s.vars, effect.world⟩⟩ := by
    rw [isLs]
    simp [line_round, command_words, runs, plain, known, builtin_words, view, ran]
  have stepped := step_words stack sized short input settled
  have events := congrArg (fun round => outputs round.events) stepped
  rw [observe] at events
  dsimp only at events
  rw [outputs_visible] at events
  rw [events, outputs_append, outputs_append]

private theorem listing_twins {s s' : Disk} {opts : List (List Byte)} {path path' : List Byte} {limit : Nat} {entries : Entries}
    (tidy : entries.Tidy limit) (dir : s.resolve true path = some (.dir entries))
    (dir' : s'.resolve true path' = some (.dir entries)) (uncut : Uncut s opts path entries)
    (uncut' : Uncut s' opts path' entries) :
    (listing s opts path).ret = (listing s' opts path').ret ∧
      outputs (listing s opts path).events = outputs (listing s' opts path').events := by
  unfold Uncut at uncut uncut'
  unfold listing
  cases read : ls_depth (opts.contains (lit "--rec")) (valueOf (lit "--d") opts) with
  | error message => exact ⟨rfl, rfl⟩
  | ok depth =>
    rw [read] at uncut uncut'
    exact list_directory_twins tidy (ls_depth_valid read) _ ⟨dir, dir', uncut, uncut'⟩

/-- An `ls` of a directory writes what an `ls` without the path writes behind a `cd` to it, with the same options,
    if no path is cut in either. -/
theorem ls_behind_cd {s : Shell Disk} (sized : s.Sized) {path : List Byte} {opts : List (List Byte)}
    (plain : path ∉ [lit "--rec", lit "--d", lit "--f"]) (options : pathOf false none opts = some (.path none))
    {here first second : Residue × List Byte} (short : ∀ line ∈ [here, first, second], line.2.length ≤ MAX_STR_LEN)
    (isHere : words (CStr.of here.2) = lit "ls" :: path :: opts) (isFirst : words (CStr.of first.2) = [lit "cd", path])
    (isSecond : words (CStr.of second.2) = lit "ls" :: opts) {limit : Nat} {entries : Entries} (tidy : entries.Tidy limit)
    (dir : s.world.resolve true path = some (.dir entries)) (uncut : Uncut s.world opts path entries)
    (uncut' : Uncut (enter s.world path) opts (lit "./") entries) :
    ∃ s', (step tree first.1 first.2 s).outcome = .next s' ∧
      visible (step tree first.1 first.2 s).events = display_message prompt ∧
      outputs (step tree here.1 here.2 s).events = outputs (step tree second.1 second.2 s').events := by
  simp only [List.forall_mem_cons] at short
  obtain ⟨shortHere, shortFirst, shortSecond, -⟩ := short
  obtain ⟨place, located, found⟩ := Option.bind_eq_some_iff.mp dir
  have moved : tree.chdir s.world path = (true, ⟨s.world.root, place⟩) := by simp only [tree, located, found]
  obtain ⟨s', next, events, sized', view'⟩ := step_cd sized first.1 shortFirst isFirst moved
  have world : s'.world = ⟨s.world.root, place⟩ := congrArg View.world view'
  have entered : enter s.world path = s'.world := by rw [enter, moved, world]
  have inside : s'.world.resolve true (lit "./") = some (.dir entries) := by
    rw [world]
    exact resolve_here found
  rw [entered] at uncut'
  obtain ⟨ret, written⟩ := listing_twins tidy dir inside uncut uncut'
  refine ⟨s', next, events, ?_⟩
  rw [step_ls sized here.1 shortHere isHere (ls_words_path options plain s.world),
    step_ls sized' second.1 shortSecond isSecond (ls_words_options options s'.world), ret, written]

/-- The link in the directory is listed, and not entered. -/
theorem ls_behind_cd_linked : ∃ s', (step tree zeros (lit "cd a\n") (start zeros linked)).outcome = .next s' ∧
    outputs (step tree zeros (lit "ls a --rec --d 2\n") (start zeros linked)).events =
      outputs (step tree zeros (lit "ls --rec --d 2\n") s').events := by
  have sized : (start zeros linked).Sized := reachable_sized (Reachable.start (k := tree) zeros linked)
  have tidy : sub.Tidy 2 := by
    simp only [sub, Entries.Tidy, Node.Tidy]
    decide
  obtain ⟨s', next, -, same⟩ := @ls_behind_cd _ sized (lit "a") [lit "--rec", lit "--d", lit "2"] (by decide) (by decide)
    (zeros, lit "ls a --rec --d 2\n") (zeros, lit "cd a\n") (zeros, lit "ls --rec --d 2\n") (by decide +kernel) (by decide)
    (by decide) (by decide) 2 sub tidy rfl (by decide +kernel) (by decide +kernel)
  exact ⟨s', next, same⟩

end BashInC.Directories
