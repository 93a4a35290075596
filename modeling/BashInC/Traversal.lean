import BashInC.Listing
import Mathlib.Data.List.Flatten

/-!
The traversal that a call of `list_directory` makes. What it comes to, the entries
with their full names and the directories that it opens, does not depend on the
filter, which only selects the names that are printed (`list_directory_walk`), so
filtering commutes with the traversal (`list_directory_filter`). On a system whose
answers are functions of the path, a deeper traversal comes to the entries of a
shallower one and to more, and that of depth 1 to those of a plain listing
(`list_directory_depth`).
-/
namespace BashInC.Traversal
open Clib.Strings BashInC.IoHelpers BashInC.System BashInC.Listing
variable {W : Type*}

/-- What a traversal comes to; a `readdir` is an entry. -/
inductive Visit
  | entry (d_name : CStr)
  | opendir (path : List Byte) (opened : Bool)
  | closedir
  deriving DecidableEq

structure Walk (W : Type*) where
  ret : Int
  visits : List Visit
  world : W

/-- What lies below an entry: nothing in a plain listing, for `.` and `..`, and for what is no directory. -/
def walk_below (k : Kernel W) (recurse : W → List Byte → Walk W) (depth : Int) (path : List Byte) (w : W)
    (d_name : List Byte) : List Visit × W :=
  if depth = -1 ∨ d_name = lit "." ∨ d_name = lit ".." then ([], w)
  else
    let full_path := entry_path path d_name
    let (st, w) := k.lstat w full_path
    if st = some .directory then
      let sub := recurse w full_path
      (sub.visits, sub.world)
    else ([], w)

def walk_entries (k : Kernel W) (recurse : W → List Byte → Walk W) (depth : Int) (path : List Byte) :
    W → List CStr → List Visit × W
  | w, [] => ([], w)
  | w, d_name :: entries =>
    let (below, w) := walk_below k recurse depth path w d_name
    let (more, w) := walk_entries k recurse depth path w entries
    (.entry d_name :: below ++ more, w)

def walk_body (k : Kernel W) (recurse : W → List Byte → Walk W) (depth : Int) (w : W) (path : List Byte) : Walk W :=
  if depth = 0 then ⟨0, [], w⟩
  else
    match k.opendir w path with
    | (none, w) => ⟨-1, [.opendir path false], w⟩
    | (some entries, w) =>
      let (visits, w) := walk_entries k recurse depth path w entries
      ⟨0, .opendir path true :: visits ++ [.closedir], k.closedir w⟩

def walk_levels (k : Kernel W) : Nat → Int → W → List Byte → Walk W
  | 0, depth, w, path => walk_body k (fun w _ => ⟨0, [], w⟩) depth w path
  | levels + 1, depth, w, path => walk_body k (fun w path => walk_levels k levels (depth - 1) w path) depth w path

/-- The traversal from a directory, for a depth of at least -1. -/
def walk (k : Kernel W) (w : W) (path : List Byte) (depth : Int) : Walk W := walk_levels k depth.toNat depth w path

/-- What `list_directory` does at a visit. -/
def Visit.events (filter : List Byte) : Visit → List Event
  | .entry d_name => printName filter d_name
  | .opendir path true => [.opendir path true]
  | .opendir path false => .opendir path false :: display_error (lit "Invalid path") (lit "one")
  | .closedir => [.closedir]

def Walk.effect (filter : List Byte) (t : Walk W) : Effect W :=
  ⟨t.ret, t.visits.flatMap (Visit.events filter), t.world⟩

def Visit.name : Visit → Option (List Byte)
  | .entry d_name => some d_name.1
  | _ => none

/-- The names of the entries that a traversal comes to, in order. -/
def Walk.names (t : Walk W) : List (List Byte) := t.visits.filterMap Visit.name

/-! ### The listing of a traversal -/

section
variable {k : Kernel W} {filter : List Byte} {listing : W → List Byte → Effect W} {recurse : W → List Byte → Walk W}
  (follows : ∀ w path, listing w path = (recurse w path).effect filter) (depth : Int)
include follows

private theorem list_entry_walk (path : List Byte) (w : W) (d_name : List Byte) :
    list_entry k listing depth path filter w d_name =
      (printName filter d_name ++ (walk_below k recurse depth path w d_name).1.flatMap (Visit.events filter),
        (walk_below k recurse depth path w d_name).2) := by
  unfold walk_below
  by_cases flat : depth = -1 ∨ d_name = lit "." ∨ d_name = lit ".."
  · rw [list_entry_flat k listing path filter w flat, if_pos flat]
    simp
  · rw [if_neg flat]
    rw [not_or] at flat
    rw [list_entry_deep k listing path filter w flat.1 flat.2]
    dsimp only
    rw [follows]
    split
    · rfl
    · simp

private theorem list_entries_walk (path : List Byte) (w : W) (entries : List CStr) :
    list_entries k listing depth path filter w entries =
      ((walk_entries k recurse depth path w entries).1.flatMap (Visit.events filter),
        (walk_entries k recurse depth path w entries).2) := by
  induction entries generalizing w with
  | nil => rfl
  | cons d_name entries ih =>
    simp only [list_entries, walk_entries, list_entry_walk follows depth path w d_name, ih]
    simp [Visit.events]

private theorem list_body_walk (w : W) (path : List Byte) :
    list_body k listing depth w path filter = (walk_body k recurse depth w path).effect filter := by
  unfold list_body walk_body
  by_cases stop : depth = 0
  · rw [if_pos stop, if_pos stop]
    rfl
  · rw [if_neg stop, if_neg stop]
    rcases k.opendir w path with ⟨entries, w'⟩
    cases entries with
    | none => rfl
    | some entries =>
      simp only [list_entries_walk follows depth path w' entries]
      simp [Walk.effect, Visit.events]

end

/-- `list_directory` prints the matching names of the entries that its traversal comes to, in between what it
    does whatever the filter. -/
theorem list_directory_walk (k : Kernel W) (w : W) (path : List Byte) (depth : Int) (filter : List Byte) :
    list_directory k w path depth filter = (walk k w path depth).effect filter := by
  unfold list_directory walk
  generalize depth.toNat = levels
  induction levels generalizing depth w path with
  | zero =>
    have nothing : ∀ (w : W) (_ : List Byte), (⟨0, [], w⟩ : Effect W) = Walk.effect filter ⟨0, [], w⟩ := fun _ _ => rfl
    exact list_body_walk nothing depth w path
  | succ levels ih => exact list_body_walk (fun w path => ih w path (depth - 1)) depth w path

/-! ### Filters -/

/-- What a call writes to stdout are the first bytes of these names, at most `MAX_STR_LEN`, each with a newline. -/
def Prints (effect : Effect W) (names : List (List Byte)) : Prop :=
  (effect.events.filter fun
    | .stdout _ => true
    | _ => false) = names.flatMap fun name => [.stdout (name.take MAX_STR_LEN), .stdout (lit "\n")]

/-- The calls of `opendir`, with their success. -/
def opendirs (events : List Event) : List (List Byte × Bool) :=
  events.filterMap fun
    | .opendir path opened => some (path, opened)
    | _ => none

/-- The names that a filter leaves. -/
def filtered (filter : List Byte) (names : List (List Byte)) : List (List Byte) := names.filter (filter <:+: ·)

/-- A traversal prints the names that the filter leaves. -/
private theorem effect_prints (t : Walk W) (filter : List Byte) : Prints (t.effect filter) (filtered filter t.names) := by
  obtain ⟨ret, visits, w⟩ := t
  unfold Prints Walk.effect
  dsimp only
  induction visits with
  | nil => rfl
  | cons visit visits ih =>
    rw [List.flatMap_cons, List.filter_append, ih]
    cases visit with
    | entry d_name =>
      have written : display_message d_name.1 = [.stdout (d_name.1.take MAX_STR_LEN)] := by
        rw [display_message, strnlenBytes, takeWhile_noNul d_name.2]
      have newline : display_message (lit "\n") = [.stdout (lit "\n")] := rfl
      by_cases inside : filter <:+: d_name
      · have seen := (shown_iff filter d_name).mpr inside
        simp [Visit.events, printName, seen, inside, filtered, Walk.names, Visit.name, written, newline]
      · have hidden : ¬ shown filter d_name := fun seen => inside ((shown_iff filter d_name).mp seen)
        simp [Visit.events, printName, hidden, inside, filtered, Walk.names, Visit.name]
    | opendir path opened => cases opened <;> rfl
    | closedir => rfl

/-- The calls of `opendir` do not depend on the filter. -/
private theorem opendirs_effect (t : Walk W) (filter : List Byte) :
    opendirs (t.effect filter).events = t.visits.filterMap fun
      | .opendir path opened => some (path, opened)
      | _ => none := by
  obtain ⟨ret, visits, w⟩ := t
  unfold Walk.effect opendirs
  dsimp only
  induction visits with
  | nil => rfl
  | cons visit visits ih =>
    rw [List.flatMap_cons, List.filterMap_append, ih]
    cases visit with
    | entry d_name =>
      have quiet : (printName filter d_name).filterMap (fun
          | .opendir path opened => some (path, opened)
          | _ => none) = [] := by
        rw [List.filterMap_eq_nil_iff]
        intro e member
        obtain ⟨bytes, rfl⟩ := mem_printName member
        rfl
      rw [Visit.events, quiet]
      rfl
    | opendir path opened => cases opened <;> rfl
    | closedir => rfl

/-- Whatever the system answers, a listing with a filter prints those of the entries that it prints without one
    whose names contain the filter, returns the same and opens the same directories. -/
theorem list_directory_filter (k : Kernel W) (w : W) (path : List Byte) (depth : Int) (filter : List Byte) :
    let whole := list_directory k w path depth []
    let part := list_directory k w path depth filter
    Prints whole (walk k w path depth).names ∧ Prints part (filtered filter (walk k w path depth).names) ∧
      part.ret = whole.ret ∧ opendirs part.events = opendirs whole.events := by
  intro whole part
  have wholeWalk : whole = (walk k w path depth).effect [] := list_directory_walk k w path depth []
  have partWalk : part = (walk k w path depth).effect filter := list_directory_walk k w path depth filter
  have everything : filtered [] (walk k w path depth).names = (walk k w path depth).names := by
    simp [filtered]
  rw [wholeWalk, partWalk]
  refine ⟨?_, effect_prints _ filter, rfl, ?_⟩
  · have printed := effect_prints (walk k w path depth) []
    rwa [everything] at printed
  · rw [opendirs_effect, opendirs_effect]

/-! ### Depths -/

/-- Directories and the kinds of files, as functions of the path. -/
structure FileSystem where
  opendir : List Byte → Option (List CStr)
  lstat : List Byte → Option FileKind

def FileSystem.kernel (fs : FileSystem) : Kernel Unit :=
  { bare with opendir := fun _ path => (fs.opendir path, ()), lstat := fun _ path => (fs.lstat path, ()) }

/-- `list_directory` with its recursive calls unrolled so many times, over any function for the calls below. -/
def unrolled (k : Kernel W) (bottom : W → List Byte → Int → List Byte → Effect W) :
    Nat → W → List Byte → Int → List Byte → Effect W
  | 0 => bottom
  | levels + 1 => fun w path depth filter =>
    list_body k (fun w path => unrolled k bottom levels w path (depth - 1) filter) depth w path filter

/-- The calls of `list_directory` for a depth end at that depth, whatever a call below it would do. -/
theorem unrolled_eq (k : Kernel W) (bottom : W → List Byte → Int → List Byte → Effect W) {levels depth : Nat}
    (enough : depth < levels) (w : W) (path filter : List Byte) :
    unrolled k bottom levels w path depth filter = list_directory k w path depth filter := by
  induction levels generalizing depth w path with
  | zero => omega
  | succ levels ih =>
    rw [unrolled, list_directory_eq k w path (by omega) filter]
    cases depth with
    | zero => rfl
    | succ depth =>
      have below : ((depth + 1 : Nat) : Int) - 1 = depth := by omega
      have deeper : ∀ w path, unrolled k bottom levels w path depth filter = list_directory k w path depth filter :=
        fun w path => ih (by omega) w path
      simp only [below, deeper]

/-- The names that a listing prints. -/
def printed (fs : FileSystem) (path : List Byte) (depth : Int) (filter : List Byte) : List (List Byte) :=
  filtered filter (walk fs.kernel () path depth).names

section
variable (fs : FileSystem)

/-- The names below an entry, by those in a directory. -/
def below (namesIn : List Byte → List (List Byte)) (path d_name : List Byte) : List (List Byte) :=
  if d_name = lit "." ∨ d_name = lit ".." then []
  else if fs.lstat (entry_path path d_name) = some .directory then namesIn (entry_path path d_name)
  else []

private theorem names_below (recurse : Unit → List Byte → Walk Unit) {depth : Int} (deep : depth ≠ -1)
    (path d_name : List Byte) : (walk_below fs.kernel recurse depth path () d_name).1.filterMap Visit.name =
      below fs (fun path => (recurse () path).names) path d_name := by
  unfold walk_below below
  by_cases dots : d_name = lit "." ∨ d_name = lit ".."
  · rw [if_pos (.inr dots), if_pos dots]
    rfl
  · rw [if_neg (not_or.mpr ⟨deep, dots⟩), if_neg dots]
    by_cases directory : fs.lstat (entry_path path d_name) = some .directory
    · simp [FileSystem.kernel, directory, Walk.names]
    · simp [FileSystem.kernel, directory]

private theorem names_entries (recurse : Unit → List Byte → Walk Unit) (depth : Int) (path : List Byte) (entries : List CStr) :
    (walk_entries fs.kernel recurse depth path () entries).1.filterMap Visit.name =
      entries.flatMap fun d_name : CStr =>
        d_name.1 :: (walk_below fs.kernel recurse depth path () d_name).1.filterMap Visit.name := by
  induction entries with
  | nil => rfl
  | cons d_name entries ih =>
    simp only [walk_entries, List.flatMap_cons, ← ih]
    simp [Visit.name]

private theorem names_body (recurse : Unit → List Byte → Walk Unit) {depth : Int} (more : depth ≠ 0) (path : List Byte) :
    (walk_body fs.kernel recurse depth () path).names =
      ((fs.opendir path).getD []).flatMap fun d_name : CStr =>
        d_name.1 :: (walk_below fs.kernel recurse depth path () d_name).1.filterMap Visit.name := by
  have answer : fs.kernel.opendir () path = (fs.opendir path, ()) := rfl
  rw [← names_entries, walk_body, if_neg more, answer]
  cases fs.opendir path with
  | none => rfl
  | some entries =>
    dsimp only [Walk.names]
    rw [List.cons_append, List.filterMap_cons, List.filterMap_append]
    simp [Visit.name]

/-- A recursive listing comes to the entries of a directory, each in front of what is below it. -/
private theorem names_succ (path : List Byte) (depth : Nat) :
    (walk fs.kernel () path ((depth + 1 : Nat) : Int)).names =
      ((fs.opendir path).getD []).flatMap fun d_name : CStr =>
        d_name.1 :: below fs (fun path => (walk fs.kernel () path depth).names) path d_name := by
  have deep : ((depth + 1 : Nat) : Int) ≠ -1 := by omega
  have lower : ((depth + 1 : Nat) : Int) - 1 = depth := by omega
  rw [walk, Int.toNat_natCast, walk_levels, lower, names_body fs _ (by omega)]
  simp only [names_below fs _ deep]
  rfl

/-- A plain listing comes to the entries of a directory. -/
private theorem names_flat (path : List Byte) :
    (walk fs.kernel () path (-1)).names = ((fs.opendir path).getD []).map (·.1) := by
  rw [walk, show (-1 : Int).toNat = 0 from rfl, walk_levels, names_body fs _ (by omega)]
  simp [walk_below]

private theorem names_one (path : List Byte) : (walk fs.kernel () path 1).names = (walk fs.kernel () path (-1)).names := by
  have nothing : ∀ d_name, below fs (fun path => (walk fs.kernel () path (0 : Nat)).names) path d_name = [] := by
    intro d_name
    unfold below
    split
    · rfl
    · split <;> rfl
  have lists := names_succ fs path 0
  simp only [nothing] at lists
  rw [names_flat, ← List.flatMap_pure_eq_map]
  exact lists

/-- What is below an entry grows with what is in the directories. -/
private theorem below_sublist {namesIn namesIn' : List Byte → List (List Byte)}
    (grows : ∀ path, (namesIn path).Sublist (namesIn' path)) (path d_name : List Byte) :
    (below fs namesIn path d_name).Sublist (below fs namesIn' path d_name) := by
  unfold below
  split
  · exact .slnil
  · split
    · exact grows _
    · exact .slnil

/-- A deeper traversal comes to the entries of a shallower one, and to more between them. -/
private theorem names_sublist (depth : Nat) (path : List Byte) :
    (walk fs.kernel () path depth).names.Sublist (walk fs.kernel () path ((depth + 1 : Nat) : Int)).names := by
  induction depth generalizing path with
  | zero => exact List.nil_sublist _
  | succ depth ih =>
    rw [names_succ, names_succ]
    apply List.Sublist.flatMap_right
    intro d_name _
    exact (below_sublist fs ih path d_name).cons_cons _

/-- A listing ends, and prints among its entries those of a listing of one level less; a plain listing prints
    what one of depth 1 does, and returns the same. -/
theorem list_directory_depth (path filter : List Byte) (depth : Nat) :
    (∀ bottom, unrolled fs.kernel bottom (depth + 1) () path depth filter = list_directory fs.kernel () path depth filter) ∧
      (∀ depth : Int, Prints (list_directory fs.kernel () path depth filter) (printed fs path depth filter)) ∧
      (printed fs path depth filter).Sublist (printed fs path ((depth + 1 : Nat) : Int) filter) ∧
      printed fs path (-1) filter = printed fs path 1 filter ∧
      (list_directory fs.kernel () path (-1) filter).ret = (list_directory fs.kernel () path 1 filter).ret := by
  refine ⟨fun bottom => unrolled_eq fs.kernel bottom (Nat.lt_succ_self depth) () path filter, ?_, ?_, ?_, ?_⟩
  · intro depth
    rw [list_directory_walk]
    exact effect_prints _ filter
  · exact (names_sublist fs depth path).filter _
  · rw [printed, printed, names_one]
  · have answer : fs.kernel.opendir () path = (fs.opendir path, ()) := rfl
    rw [list_directory_eq fs.kernel () path (by omega), list_directory_eq fs.kernel () path (by omega), list_body, list_body,
      if_neg (by omega), if_neg (by omega), answer]
    cases fs.opendir path <;> rfl

end

end BashInC.Traversal
