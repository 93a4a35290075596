import BashInC.Clib.Strings

/-!
A finite file tree and the resolution of paths in it. A directory is the list of
what `readdir` yields, in its order: `.` and `..` among the entries for its files.
A path is walked component by component from the root or from the current
directory; a symbolic link in it is replaced by its target, a limited number of
times. `resolve_child` says that the path of a directory with a name of that
directory behind it leads to the entry of that name.
-/
namespace Clib.FileTree
open Clib.Fields Clib.Strings

/-- The name of an entry other than `.` and `..`. -/
structure IsName (name : List Byte) : Prop where
  nonempty : name ≠ []
  noSlash : chr '/' ∉ name
  noNul : 0 ∉ name
  notDot : name ≠ lit "."
  notDotdot : name ≠ lit ".."

abbrev Name := {name : List Byte // IsName name}

mutual
/-- A file, a symbolic link or a directory. -/
inductive Node
  | file (content : List Byte)
  | symlink (target : {text : List Byte // text ≠ []})
  | dir (entries : Entries)

/-- What `readdir` yields, in its order. -/
inductive Entries
  | done
  | dot (rest : Entries)
  | dotdot (rest : Entries)
  | child (name : Name) (node : Node) (rest : Entries)
end

def Entries.names : Entries → List CStr
  | .done => []
  | .dot rest => ⟨lit ".", by decide⟩ :: rest.names
  | .dotdot rest => ⟨lit "..", by decide⟩ :: rest.names
  | .child name _ rest => ⟨name.1, name.2.noNul⟩ :: rest.names

def Entries.children : Entries → List (Name × Node)
  | .done => []
  | .dot rest | .dotdot rest => rest.children
  | .child name node rest => (name, node) :: rest.children

def Entries.lookup (name : List Byte) : Entries → Option Node
  | .done => none
  | .dot rest | .dotdot rest => rest.lookup name
  | .child n node rest => if n.1 = name then some node else rest.lookup name

mutual
/-- All names below have at most `limit` bytes, and those of one directory are distinct. -/
def Node.Tidy (limit : Nat) : Node → Prop
  | .file _ | .symlink _ => True
  | .dir entries => entries.Tidy limit

def Entries.Tidy (limit : Nat) : Entries → Prop
  | .done => True
  | .dot rest | .dotdot rest => rest.Tidy limit
  | .child name node rest => name.1.length ≤ limit ∧ rest.lookup name.1 = none ∧ node.Tidy limit ∧ rest.Tidy limit
end

/-! ### Paths -/

/-- A place in the tree: the names that lead to it from the root. -/
abbrev Place := List (List Byte)

def find : Node → Place → Option Node
  | node, [] => some node
  | .dir entries, name :: place =>
    match entries.lookup name with
    | some node => find node place
    | none => none
  | _, _ :: _ => none

/-- The components of a path; empty ones do not matter. -/
def components (path : List Byte) : List (List Byte) := fields (among (lit "/")) path

/-- Where a path starts. -/
def origin (path : List Byte) (cwd : Place) : Place := if path.head? = some (chr '/') then [] else cwd

/-- The components of the target of a link, which leads to a directory if there is a `/` behind them. -/
def targetOf (text : List Byte) : List (List Byte) :=
  components text ++ if text.getLast? = some (chr '/') then [lit "."] else []

/-- A walk along some components; `jump` goes on where a link leads. A link at the very end is followed only
    if asked for. -/
def steps (root : Node) (follow : Bool) (jump : Place → List (List Byte) → Option Place) :
    Place → List (List Byte) → Option Place
  | place, [] => some place
  | place, name :: rest =>
    match find root place with
    | some (.dir entries) =>
      if name = lit "." then steps root follow jump place rest
      else if name = lit ".." then steps root follow jump place.dropLast rest
      else
        match entries.lookup name with
        | none => none
        | some (.symlink target) =>
          if rest = [] ∧ follow = false then some (place ++ [name])
          else jump (origin target.1 place) (targetOf target.1 ++ rest)
        | some _ => steps root follow jump (place ++ [name]) rest
    | _ => none

/-- A walk that follows at most `links` symbolic links. -/
def walk (root : Node) (follow : Bool) : Nat → Place → List (List Byte) → Option Place
  | 0 => steps root follow fun _ _ => none
  | links + 1 => steps root follow (walk root follow links)

/-- The limit of the system on the links in a path. -/
def MAXSYMLINKS : Nat := 40

/-- The place that a path leads to. -/
def locate (root : Node) (cwd : Place) (follow : Bool) (path : List Byte) : Option Place :=
  if path = [] then none else walk root follow MAXSYMLINKS (origin path cwd) (components path)

/-- What a path denotes. -/
def resolve (root : Node) (cwd : Place) (follow : Bool) (path : List Byte) : Option Node :=
  (locate root cwd follow path).bind (find root)

/-! ### The path of an entry -/

/-- In a tidy directory every entry is found by its name. -/
theorem Entries.lookup_children {limit : Nat} : ∀ {entries : Entries}, entries.Tidy limit →
    ∀ {entry : Name × Node}, entry ∈ entries.children →
      entry.1.1.length ≤ limit ∧ entries.lookup entry.1.1 = some entry.2 ∧ entry.2.Tidy limit
  | .done, _, _, member => by cases member
  | .dot rest, tidy, _, member => by
    simp only [Entries.Tidy, Entries.children, Entries.lookup] at tidy member ⊢
    exact rest.lookup_children tidy member
  | .dotdot rest, tidy, _, member => by
    simp only [Entries.Tidy, Entries.children, Entries.lookup] at tidy member ⊢
    exact rest.lookup_children tidy member
  | .child name node rest, tidy, entry, member => by
    simp only [Entries.Tidy, Entries.children, Entries.lookup] at tidy member ⊢
    obtain ⟨short, new, here, later⟩ := tidy
    rcases List.mem_cons.mp member with rfl | member
    · exact ⟨short, if_pos rfl, here⟩
    · obtain ⟨short', found, tidy'⟩ := rest.lookup_children later member
      have other : name.1 ≠ entry.1.1 := by
        intro same
        rw [same, found] at new
        cases new
      exact ⟨short', (if_neg other).trans found, tidy'⟩

theorem find_snoc {root : Node} {place : Place} {entries : Entries} (dir : find root place = some (.dir entries))
    {name : List Byte} {node : Node} (there : entries.lookup name = some node) :
    find root (place ++ [name]) = some node := by
  induction place generalizing root with
  | nil =>
    obtain rfl : root = .dir entries := Option.some.inj dir
    simp [find, there]
  | cons first place ih =>
    cases root with
    | file | symlink => cases dir
    | dir top =>
      rw [List.cons_append]
      unfold find at dir ⊢
      split at dir
      · next next _ => exact ih dir
      · cases dir

section
variable {root : Node} {entries : Entries} {name : Name} {node : Node} {follow : Bool}

/-- A walk to a directory goes on to its entries. -/
private theorem steps_snoc {jump jump' : Place → List (List Byte) → Option Place} {goal : Place}
    (jumps : ∀ place rest, jump place rest = some goal → jump' place (rest ++ [name.1]) = some (goal ++ [name.1]))
    (dir : find root goal = some (.dir entries)) (there : entries.lookup name.1 = some node)
    (stays : follow = true → ∀ target, node ≠ .symlink target) {place : Place} {rest : List (List Byte)}
    (walked : steps root true jump place rest = some goal) :
    steps root follow jump' place (rest ++ [name.1]) = some (goal ++ [name.1]) := by
  induction rest generalizing place with
  | nil =>
    obtain rfl : place = goal := Option.some.inj walked
    rw [List.nil_append, steps, dir]
    simp only [if_neg name.2.notDot, if_neg name.2.notDotdot, there]
    cases node with
    | file | dir => rfl
    | symlink target =>
      cases follow with
      | false => rfl
      | true => exact absurd rfl (stays rfl target)
  | cons first rest ih =>
    rw [List.cons_append]
    unfold steps at walked ⊢
    split at walked
    · next here _ =>
      by_cases dot : first = lit "."
      · rw [if_pos dot] at walked ⊢
        exact ih walked
      · rw [if_neg dot] at walked ⊢
        by_cases dotdot : first = lit ".."
        · rw [if_pos dotdot] at walked ⊢
          exact ih walked
        · rw [if_neg dotdot] at walked ⊢
          split at walked
          · cases walked
          · have more : ¬ (rest ++ [name.1] = [] ∧ follow = false) := by simp
            rw [if_neg (by simp)] at walked
            rw [if_neg more, ← List.append_assoc]
            exact jumps _ _ walked
          · exact ih walked
    · cases walked

private theorem walk_snoc {goal : Place} (dir : find root goal = some (.dir entries))
    (there : entries.lookup name.1 = some node) (stays : follow = true → ∀ target, node ≠ .symlink target) {links : Nat}
    {place : Place} {rest : List (List Byte)} (walked : walk root true links place rest = some goal) :
    walk root follow links place (rest ++ [name.1]) = some (goal ++ [name.1]) := by
  induction links generalizing place rest with
  | zero => exact steps_snoc (by simp) dir there stays walked
  | succ links ih =>
    apply steps_snoc _ dir there stays walked
    intro place rest jumped
    exact ih jumped

/-- Behind the path of a directory, a name of that directory leads to the entry of that name. A link is the
    entry itself as long as it is not to be followed. -/
theorem resolve_child {cwd : Place} {path : List Byte} (dir : resolve root cwd true path = some (.dir entries))
    (there : entries.lookup name.1 = some node) (stays : follow = true → ∀ target, node ≠ .symlink target) :
    resolve root cwd follow (path ++ chr '/' :: name.1) = some node := by
  obtain ⟨goal, walked, found⟩ := Option.bind_eq_some_iff.mp dir
  unfold resolve locate at *
  split at walked
  · cases walked
  · next nonempty =>
    have longer : path ++ chr '/' :: name.1 ≠ [] := by simp
    have sameOrigin : origin (path ++ chr '/' :: name.1) cwd = origin path cwd := by
      obtain ⟨b, rest, rfl⟩ := List.exists_cons_of_ne_nil nonempty
      rfl
    have oneMore : components (path ++ chr '/' :: name.1) = components path ++ [name.1] := by
      have plain : ∀ b ∈ name.1, among (lit "/") b = false := by
        intro b member
        rw [show lit "/" = [chr '/'] from rfl, among_singleton, beq_eq_false_iff_ne]
        rintro rfl
        exact name.2.noSlash member
      unfold components
      rw [fields_append_cons _ _ (by decide), fields_single name.2.nonempty plain]
    rw [if_neg longer, sameOrigin, oneMore, walk_snoc found there stays walked, Option.bind_some]
    exact find_snoc found there

end

/-! ### A path behind a path -/

section
variable {root : Node} {follow : Bool} {goal : Place}

private theorem steps_mono {jump jump' : Place → List (List Byte) → Option Place}
    (jumps : ∀ place rest, jump place rest = some goal → jump' place rest = some goal) {place : Place}
    {names : List (List Byte)} (walked : steps root follow jump place names = some goal) :
    steps root follow jump' place names = some goal := by
  induction names generalizing place with
  | nil => exact walked
  | cons name rest ih =>
    unfold steps at walked ⊢
    split at walked
    · by_cases dot : name = lit "."
      · rw [if_pos dot] at walked ⊢
        exact ih walked
      · rw [if_neg dot] at walked ⊢
        by_cases dotdot : name = lit ".."
        · rw [if_pos dotdot] at walked ⊢
          exact ih walked
        · rw [if_neg dotdot] at walked ⊢
          split at walked
          · cases walked
          · split_ifs at walked ⊢ with last
            · exact walked
            · exact jumps _ _ walked
          · exact ih walked
    · cases walked

/-- More links may be followed than are met. -/
private theorem walk_mono {links : Nat} {place : Place} {names : List (List Byte)}
    (walked : walk root follow links place names = some goal) : walk root follow (links + 1) place names = some goal := by
  induction links generalizing place names with
  | zero => exact steps_mono (by simp) walked
  | succ links ih => exact steps_mono (fun _ _ jumped => ih jumped) walked

private theorem steps_append {jump : Place → List (List Byte) → Option Place} {names : List (List Byte)} {Ends : Place → Prop}
    (jumps : ∀ place rest, jump place (rest ++ names) = some goal → ∃ mid, jump place rest = some mid ∧ Ends mid)
    (here : ∀ mid, steps root true jump mid names = some goal → Ends mid) {place : Place} {first : List (List Byte)}
    (walked : steps root true jump place (first ++ names) = some goal) :
    ∃ mid, steps root true jump place first = some mid ∧ Ends mid := by
  induction first generalizing place with
  | nil => exact ⟨place, rfl, here place walked⟩
  | cons name rest ih =>
    rw [List.cons_append] at walked
    unfold steps at walked ⊢
    split at walked
    · by_cases dot : name = lit "."
      · rw [if_pos dot] at walked ⊢
        exact ih walked
      · rw [if_neg dot] at walked ⊢
        by_cases dotdot : name = lit ".."
        · rw [if_pos dotdot] at walked ⊢
          exact ih walked
        · rw [if_neg dotdot] at walked ⊢
          split at walked
          · cases walked
          · rw [if_neg (by simp)] at walked ⊢
            rw [← List.append_assoc] at walked
            exact jumps _ _ walked
          · exact ih walked
    · cases walked

/-- A walk along two paths is a walk along the first, and from where that leads along the second. -/
private theorem walk_append {links : Nat} {place : Place} {first names : List (List Byte)}
    (walked : walk root true links place (first ++ names) = some goal) :
    ∃ mid, walk root true links place first = some mid ∧ walk root true links mid names = some goal := by
  induction links generalizing place first with
  | zero => exact steps_append (by simp) (fun _ ended => ended) walked
  | succ links ih =>
    refine steps_append (fun place rest jumped => ?_) (fun _ ended => ended) walked
    -- a link has been used up on the way, which the second path may not miss
    obtain ⟨mid, came, ended⟩ := ih jumped
    exact ⟨mid, came, walk_mono ended⟩

/-- Only a directory has something behind it. -/
private theorem walk_dir {links : Nat} {place : Place} {names : List (List Byte)} (more : names ≠ [])
    (walked : walk root follow links place names = some goal) : ∃ entries, find root place = some (.dir entries) := by
  obtain ⟨name, rest, rfl⟩ := List.exists_cons_of_ne_nil more
  cases links with
  | zero =>
    unfold walk steps at walked
    split at walked
    · next entries here => exact ⟨entries, here⟩
    · cases walked
  | succ links =>
    unfold walk steps at walked
    split at walked
    · next entries here => exact ⟨entries, here⟩
    · cases walked

/-- `./` is the current directory. -/
theorem resolve_here {cwd : Place} {entries : Entries} (dir : find root cwd = some (.dir entries)) :
    resolve root cwd true (lit "./") = some (.dir entries) := by
  have nonempty : lit "./" ≠ [] := by decide
  have relative : (lit "./").head? ≠ some (chr '/') := by decide
  have only : components (lit "./") = [lit "."] := by decide
  have stays : ∀ links, walk root true links cwd [lit "."] = some cwd := by
    intro links
    cases links <;> simp [walk, steps, dir]
  rw [resolve, locate, if_neg nonempty, origin, if_neg relative, only, stays, Option.bind_some, dir]

/-- A path with a relative path behind it leads through the directory of the first. -/
theorem locate_append {cwd : Place} {path more : List Byte} (nonempty : path ≠ []) (relative : more.head? ≠ some (chr '/'))
    (further : more ≠ []) (located : locate root cwd true (path ++ chr '/' :: more) = some goal) :
    ∃ mid entries, locate root cwd true path = some mid ∧ find root mid = some (.dir entries) ∧
      locate root mid true more = some goal := by
  have longer : path ++ chr '/' :: more ≠ [] := by simp
  have sameOrigin : origin (path ++ chr '/' :: more) cwd = origin path cwd := by
    obtain ⟨b, rest, rfl⟩ := List.exists_cons_of_ne_nil nonempty
    rfl
  have names : components more ≠ [] := by
    intro none
    have split := split_fields (among (lit "/")) more
    rw [show fields (among (lit "/")) more = [] from none] at split
    cases split with
    | none delims =>
      obtain ⟨b, rest, rfl⟩ := List.exists_cons_of_ne_nil further
      have first := delims b (by simp)
      rw [show lit "/" = [chr '/'] from rfl, among_singleton, beq_iff_eq] at first
      simp [first] at relative
  rw [locate, if_neg longer, sameOrigin, components, fields_append_cons _ _ (by decide)] at located
  obtain ⟨mid, came, ended⟩ := walk_append located
  obtain ⟨entries, dir⟩ := walk_dir names ended
  refine ⟨mid, entries, ?_, dir, ?_⟩
  · rw [locate, if_neg nonempty]
    exact came
  · rw [locate, if_neg further, origin, if_neg relative]
    exact ended

end

end Clib.FileTree
