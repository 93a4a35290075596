import BashInC.Listing
import Mathlib.Data.List.Nodup

/-!
The options of `ls`, as groups of words in any order. Each of the four loops of
`bn_ls` recognises the flags by itself, and only the one over the path skips the
values of the others, so that a filter which looks like a flag is taken for one
by two of them. `bn_ls_options_iff` says when this does not matter.
-/
namespace BashInC.Options
open Clib.Strings Clib.Numbers BashInC.IoHelpers BashInC.System BashInC.Listing

/-- `--rec`, `--d N`, `--f S` or a path. -/
inductive Group
  | recursive
  | depth (number : List Byte)
  | filter (word : List Byte)
  | path (word : List Byte)
  deriving DecidableEq

inductive Kind
  | recursive | depth | filter | path
  deriving DecidableEq

def Group.kind : Group → Kind
  | .recursive => .recursive
  | .depth _ => .depth
  | .filter _ => .filter
  | .path _ => .path

def Group.words : Group → List (List Byte)
  | .recursive => [lit "--rec"]
  | .depth number => [lit "--d", number]
  | .filter word => [lit "--f", word]
  | .path word => [word]

/-- The words of a list of groups, behind `ls`. -/
def arguments (gs : List Group) : List (List Byte) := gs.flatMap Group.words

/-- Decimal digits of a number that fits an `int`. -/
structure Number (digits : List Byte) : Prop where
  nonempty : digits ≠ []
  digit : ∀ b ∈ digits, isdigit b = true
  fits : digitsValue digits ≤ INT_MAX

/-- At most one group of each kind, a number as the depth, and a path that is no flag. -/
structure Valid (gs : List Group) : Prop where
  once : (gs.map Group.kind).Nodup
  numbers : ∀ number, .depth number ∈ gs → Number number
  paths : ∀ word, .path word ∈ gs → word ≠ lit "--rec" ∧ word ≠ lit "--d" ∧ word ≠ lit "--f"

def depthGiven (gs : List Group) : Option (List Byte) :=
  gs.findSome? fun
    | .depth number => some number
    | _ => none

def filterGiven (gs : List Group) : Option (List Byte) :=
  gs.findSome? fun
    | .filter word => some word
    | _ => none

def pathGiven (gs : List Group) : Option (List Byte) :=
  gs.findSome? fun
    | .path word => some word
    | _ => none

/-- The depth of the listing that the groups ask for; `none` for `--d` without `--rec`, which is an error. -/
def depthAsked (gs : List Group) : Option Int :=
  match depthGiven gs with
  | some number => if .recursive ∈ gs then some (digitsValue number) else none
  | none => some (if .recursive ∈ gs then 0 else -1)

/-! ### What the loops read -/

variable {gs : List Group}

private theorem arguments_cons (g : Group) (gs : List Group) : arguments (g :: gs) = g.words ++ arguments gs := rfl

/-- Another word in front makes no difference to the loop that looks for a flag. -/
private theorem valueOf_cons_other {flag w : List Byte} (other : w ≠ flag) (ws : List (List Byte)) :
    valueOf flag (w :: ws) = valueOf flag ws := by
  cases ws with
  | nil => rfl
  | cons v ws => rw [valueOf, if_neg other]

private theorem valid_tail {g : Group} (valid : Valid (g :: gs)) : Valid gs where
  once := (List.nodup_cons.mp valid.once).2
  numbers := fun number member => valid.numbers number (List.mem_cons_of_mem _ member)
  paths := fun word member => valid.paths word (List.mem_cons_of_mem _ member)

private theorem digit_not_flag {number : List Byte} (isNumber : Number number) {flag : List Byte}
    (dashed : flag.head? = some (chr '-')) : number ≠ flag := by
  rintro rfl
  have first := isNumber.digit _ (List.mem_of_mem_head? dashed)
  exact absurd first (by decide)

/-- The loop over the filter finds the filter. -/
private theorem valueOf_filter (valid : Valid gs) : valueOf (lit "--f") (arguments gs) = filterGiven gs := by
  induction gs with
  | nil => rfl
  | cons g gs ih =>
    have later := ih (valid_tail valid)
    rw [arguments_cons]
    cases g with
    | recursive =>
      rw [Group.words, List.singleton_append, valueOf_cons_other (by decide), later]
      rfl
    | depth number =>
      have other : number ≠ lit "--f" := digit_not_flag (valid.numbers number (by simp)) rfl
      rw [Group.words, List.cons_append, List.singleton_append, valueOf_cons_other (by decide), valueOf_cons_other other, later]
      rfl
    | filter word =>
      rw [Group.words, List.cons_append, List.singleton_append, valueOf, if_pos rfl]
      rfl
    | path word =>
      have other : word ≠ lit "--f" := (valid.paths word (by simp)).2.2
      rw [Group.words, List.singleton_append, valueOf_cons_other other, later]
      rfl

private theorem pathGiven_eq_none (absent : .path ∉ gs.map Group.kind) : pathGiven gs = none := by
  rw [pathGiven, List.findSome?_eq_none_iff]
  intro g member
  cases g with
  | path => exact absurd (List.mem_map.mpr ⟨_, member, rfl⟩) absent
  | _ => rfl

/-- The loop over the path steps over the other groups, and meets at most one path. -/
private theorem pathOf_found (valid : Valid gs) {found : Option (List Byte)} (single : found = none ∨ pathGiven gs = none) :
    pathOf false found (arguments gs) = some (.path (found.or (pathGiven gs))) := by
  induction gs generalizing found with
  | nil => cases found <;> rfl
  | cons g gs ih =>
    have rest := valid_tail valid
    rw [arguments_cons]
    cases g with
    | recursive =>
      rw [Group.words, List.singleton_append, pathOf, if_neg (by decide), if_pos rfl]
      exact ih rest single
    | depth number =>
      rw [Group.words, List.cons_append, List.singleton_append, pathOf, if_pos (.inl rfl), pathOf]
      exact ih rest single
    | filter word =>
      rw [Group.words, List.cons_append, List.singleton_append, pathOf, if_pos (.inr rfl), pathOf]
      exact ih rest single
    | path word =>
      obtain ⟨notRec, notDepth, notFilter⟩ := valid.paths word (by simp)
      have alone : pathGiven gs = none := pathGiven_eq_none (List.nodup_cons.mp valid.once).1
      obtain rfl : found = none := single.resolve_right (by simp [pathGiven])
      rw [Group.words, List.singleton_append, pathOf, if_neg (not_or.mpr ⟨notDepth, notFilter⟩), if_neg notRec,
        if_neg (by simp), ih rest (.inr alone)]
      rfl

/-- The loop over `--rec` also finds the filter. -/
private theorem recursive_read (valid : Valid gs) :
    lit "--rec" ∈ arguments gs ↔ .recursive ∈ gs ∨ .filter (lit "--rec") ∈ gs := by
  unfold arguments
  rw [List.mem_flatMap]
  constructor
  · rintro ⟨g, member, inWords⟩
    cases g with
    | recursive => exact .inl member
    | depth number =>
      have other : number ≠ lit "--rec" := digit_not_flag (valid.numbers number member) rfl
      rw [Group.words, List.mem_pair] at inWords
      rcases inWords with flag | same
      · exact absurd flag (by decide)
      · exact absurd same.symm other
    | filter word =>
      rw [Group.words, List.mem_pair] at inWords
      rcases inWords with flag | same
      · exact absurd flag (by decide)
      · exact .inr (same ▸ member)
    | path word =>
      rw [Group.words, List.mem_singleton] at inWords
      exact absurd inWords.symm (valid.paths word member).1
  · rintro (given | given)
    · exact ⟨_, given, by simp [Group.words]⟩
    · exact ⟨_, given, by simp [Group.words]⟩

/-- What the loop over the depth reads: also the word behind a filter `--d`. -/
def depthRead : List Group → Option (List Byte)
  | [] => none
  | .depth number :: _ => some number
  | .filter word :: gs => if word = lit "--d" then (arguments gs).head?.or (depthRead gs) else depthRead gs
  | _ :: gs => depthRead gs

private theorem valueOf_depth (valid : Valid gs) : valueOf (lit "--d") (arguments gs) = depthRead gs := by
  induction gs with
  | nil => rfl
  | cons g gs ih =>
    have later := ih (valid_tail valid)
    rw [arguments_cons]
    cases g with
    | recursive =>
      rw [Group.words, List.singleton_append, valueOf_cons_other (by decide), later]
      rfl
    | depth number =>
      rw [Group.words, List.cons_append, List.singleton_append, valueOf, if_pos rfl]
      rfl
    | filter word =>
      rw [Group.words, List.cons_append, List.singleton_append, valueOf_cons_other (by decide), depthRead]
      by_cases flag : word = lit "--d"
      · rw [if_pos flag, ← later, flag]
        cases arguments gs with
        | nil => rfl
        | cons w ws => rw [valueOf, if_pos rfl]; rfl
      · rw [if_neg flag, valueOf_cons_other flag, later]
    | path word =>
      have other : word ≠ lit "--d" := (valid.paths word (by simp)).2.1
      rw [Group.words, List.singleton_append, valueOf_cons_other other, later]
      rfl

/-! ### The depth -/

private theorem ls_depth_number {number : List Byte} (isNumber : Number number) (given : Bool) :
    ls_depth given (some number) =
      if given then .ok (digitsValue number) else .error (lit "Invalid use of --d: --rec flag not provided") := by
  have positive : ¬ (digitsValue number : Int) < 0 := by omega
  unfold ls_depth
  simp only [strtol_digits isNumber.nonempty isNumber.digit isNumber.fits, toInt_of_fits isNumber.fits, positive]
  cases given <;> simp

/-- Without `--rec` whatever is read as a depth is an error. -/
private theorem ls_depth_alone (value : List Byte) : (ls_depth false (some value)).toOption = none := by
  unfold ls_depth
  dsimp only
  by_cases wrong : (strtol value).2 ≠ [] ∨ toInt (strtol value).1 < 0
  · rw [if_pos wrong]
    rfl
  · have positive : toInt (strtol value).1 ≥ 0 := by
      rw [not_or] at wrong
      omega
    rw [if_neg wrong]
    simp [positive, Except.toOption]

private theorem depthGiven_number (valid : Valid gs) {number : List Byte} (given : depthGiven gs = some number) : Number number := by
  obtain ⟨g, member, found⟩ := List.exists_of_findSome?_eq_some given
  cases g with
  | depth other =>
    cases found
    exact valid.numbers number member
  | _ => cases found

/-- The depth that the groups ask for is the one that `ls` computes of the flags that they give. -/
private theorem depthAsked_eq (valid : Valid gs) :
    depthAsked gs = (ls_depth (decide (.recursive ∈ gs)) (depthGiven gs)).toOption := by
  unfold depthAsked
  cases given : depthGiven gs with
  | none => by_cases recursive : .recursive ∈ gs <;> simp [recursive, ls_depth, Except.toOption]
  | some number =>
    rw [ls_depth_number (depthGiven_number valid given)]
    by_cases recursive : .recursive ∈ gs <;> simp [recursive, Except.toOption]

/-- In front of the filter, and without one, the loop over the depth reads the depth. -/
private theorem depthRead_append {pre : List Group} (unfiltered : .filter ∉ pre.map Group.kind) (post : List Group) :
    depthRead (pre ++ post) = (depthGiven pre).or (depthRead post) := by
  induction pre with
  | nil => rfl
  | cons g pre ih =>
    rw [List.map_cons, List.mem_cons, not_or] at unfiltered
    have later := ih unfiltered.2
    cases g with
    | filter => exact absurd rfl unfiltered.1
    | depth => rfl
    | _ => exact later

private theorem depthRead_unfiltered (unfiltered : .filter ∉ gs.map Group.kind) : depthRead gs = depthGiven gs := by
  have read := depthRead_append unfiltered []
  rw [List.append_nil] at read
  rw [read]
  cases depthGiven gs <;> rfl

/-- `strtol` reads the whole word, as this depth. -/
def ReadsAs (word : List Byte) (depth : Option Int) : Prop :=
  (strtol word).2 = [] ∧ depth = some (toInt (strtol word).1)

/-- A filter `--rec` stands beside `--rec`; a filter `--d` ends the line or stands behind `--d`, or the listing is
    refused all the same, or the path behind it reads as the depth that is asked for. -/
def Harmless (gs pre : List Group) (word : List Byte) (post : List Group) : Prop :=
  (word = lit "--rec" → .recursive ∈ gs) ∧
    (word = lit "--d" → post = [] ∨ depthGiven pre ≠ none ∨ depthGiven gs ≠ none ∧ .recursive ∉ gs ∨
      .recursive ∈ gs ∧ ∃ path rest, post = .path path :: rest ∧ ReadsAs path (depthAsked gs))

private theorem depthAsked_recursive (given : .recursive ∈ gs) : ∃ depth : Nat, depthAsked gs = some (depth : Int) := by
  rw [depthAsked]
  cases depthGiven gs with
  | none => exact ⟨0, by simp [given]⟩
  | some number => exact ⟨digitsValue number, if_pos given⟩

private theorem depthAsked_alone (missing : .recursive ∉ gs) : depthAsked gs = none ↔ depthGiven gs ≠ none := by
  rw [depthAsked]
  cases depthGiven gs <;> simp [missing]

private theorem ls_depth_flag (given : Bool) {flag : List Byte} (isFlag : flag = lit "--rec" ∨ flag = lit "--d") :
    (ls_depth given (some flag)).toOption = none := by
  rcases isFlag with rfl | rfl
  · cases given <;> decide
  · cases given <;> decide

private theorem ls_depth_reads (word : List Byte) (depth : Nat) :
    (ls_depth true (some word)).toOption = some (depth : Int) ↔ ReadsAs word (some (depth : Int)) := by
  unfold ls_depth ReadsAs
  dsimp only
  by_cases wrong : (strtol word).2 ≠ [] ∨ toInt (strtol word).1 < 0
  · rw [if_pos wrong]
    refine iff_of_false (by simp [Except.toOption]) ?_
    rintro ⟨whole, same⟩
    rw [Option.some.injEq] at same
    rcases wrong with rest | negative
    · exact rest whole
    · omega
  · rw [if_neg wrong]
    rw [not_or, not_not] at wrong
    simp [wrong.1, Except.toOption, eq_comm]

/-- A word of another group that is read as the depth makes the listing fail; it does no harm when the listing
    is to be refused, or when it is a path that reads as the depth that is asked for. -/
private theorem misread_iff {g : Group} (member : g ∈ gs) (other : g.kind ≠ .filter) :
    (ls_depth (decide (.recursive ∈ gs)) g.words.head?).toOption = depthAsked gs ↔
      depthGiven gs ≠ none ∧ .recursive ∉ gs ∨
        .recursive ∈ gs ∧ ∃ path, g = .path path ∧ ReadsAs path (depthAsked gs) := by
  cases g with
  | recursive =>
    rw [Group.words, List.head?_cons, ls_depth_flag _ (.inl rfl)]
    obtain ⟨depth, asked⟩ := depthAsked_recursive member
    simp [member, asked]
  | depth number =>
    have given : depthGiven gs ≠ none := by
      rw [depthGiven, ne_eq, List.findSome?_eq_none_iff]
      intro none
      cases none _ member
    rw [Group.words, List.head?_cons, ls_depth_flag _ (.inr rfl), eq_comm]
    by_cases recursive : .recursive ∈ gs
    · obtain ⟨depth, asked⟩ := depthAsked_recursive recursive
      simp [recursive, asked]
    · exact iff_of_true ((depthAsked_alone recursive).mpr given) (.inl ⟨given, recursive⟩)
  | filter word => exact absurd rfl other
  | path word =>
    rw [Group.words, List.head?_cons]
    by_cases recursive : .recursive ∈ gs
    · obtain ⟨depth, asked⟩ := depthAsked_recursive recursive
      rw [decide_eq_true recursive, asked, ls_depth_reads]
      simp [recursive]
    · rw [decide_eq_false recursive, ls_depth_alone, eq_comm, depthAsked_alone recursive]
      simp [recursive]

section
variable {pre post : List Group} {word : List Byte} (valid : Valid gs) (isGroups : gs = pre ++ .filter word :: post)
include valid isGroups

/-- There is no other filter in front of a filter or behind it. -/
private theorem unfiltered_sides : .filter ∉ pre.map Group.kind ∧ .filter ∉ post.map Group.kind := by
  have once := valid.once
  rw [isGroups, List.map_append, List.map_cons, List.nodup_middle, List.nodup_cons, List.mem_append, not_or] at once
  exact once.1

private theorem filter_unique {other : List Byte} (member : .filter other ∈ gs) : other = word := by
  obtain ⟨front, behind⟩ := unfiltered_sides valid isGroups
  rw [isGroups, List.mem_append, List.mem_cons] at member
  rcases member with inFront | same | inRest
  · exact absurd (List.mem_map.mpr ⟨_, inFront, rfl⟩) front
  · cases same
    rfl
  · exact absurd (List.mem_map.mpr ⟨_, inRest, rfl⟩) behind

/-- The depth that is read, and the one given, on the two sides of the filter. -/
private theorem depth_sides :
    depthRead gs =
        (depthGiven pre).or (if word = lit "--d" then (arguments post).head?.or (depthGiven post) else depthGiven post) ∧
      depthGiven gs = (depthGiven pre).or (depthGiven post) := by
  obtain ⟨front, behind⟩ := unfiltered_sides valid isGroups
  subst isGroups
  constructor
  · rw [depthRead_append front, depthRead, depthRead_unfiltered behind]
  · exact List.findSome?_append

/-- The depth read behind a filter `--d` is the one asked for exactly when the filter does no harm. -/
private theorem depth_flag_iff (flag : word = lit "--d") :
    (ls_depth (decide (.recursive ∈ gs)) (depthRead gs)).toOption = depthAsked gs ↔ Harmless gs pre word post := by
  obtain ⟨read, given⟩ := depth_sides valid isGroups
  obtain ⟨-, behind⟩ := unfiltered_sides valid isGroups
  have notRec : word ≠ lit "--rec" := by
    rw [flag]
    decide
  rw [if_pos flag] at read
  rw [Harmless, and_iff_right (fun same => absurd same notRec), imp_iff_right flag]
  cases front : depthGiven pre with
  | some number =>
    rw [read, depthAsked_eq valid, given, front]
    simp
  | none =>
    rw [front, Option.none_or] at read given
    cases post with
    | nil =>
      rw [read, depthAsked_eq valid, given]
      simp [arguments]
    | cons g post =>
      have misread : depthRead gs = g.words.head? := by
        rw [read, arguments_cons]
        cases g <;> rfl
      have other : g.kind ≠ .filter := by
        intro same
        simp [same] at behind
      rw [misread, misread_iff (by simp [isGroups]) other]
      simp

/-- The depth that `ls` computes is the one asked for exactly when the filter does no harm. -/
private theorem depth_filter_iff :
    (ls_depth (decide (lit "--rec" ∈ arguments gs)) (depthRead gs)).toOption = depthAsked gs ↔ Harmless gs pre word post := by
  obtain ⟨read, given⟩ := depth_sides valid isGroups
  have recursive := recursive_read valid
  have asked := depthAsked_eq valid
  have here : .filter word ∈ gs := by simp [isGroups]
  by_cases isRec : word = lit "--rec"
  · have notDepth : word ≠ lit "--d" := by
      rw [isRec]
      decide
    have found : lit "--rec" ∈ arguments gs := recursive.mpr (.inr (isRec ▸ here))
    rw [if_neg notDepth, ← given] at read
    rw [decide_eq_true found, read, Harmless, imp_iff_right isRec, and_iff_left (fun flag => absurd flag notDepth), asked]
    by_cases member : .recursive ∈ gs
    · rw [decide_eq_true member]
      exact iff_of_true rfl member
    · -- the filter makes a listing recursive that is not to be
      refine iff_of_false ?_ member
      rw [decide_eq_false member]
      cases number : depthGiven gs with
      | none => decide
      | some digits =>
        rw [ls_depth_alone, ls_depth_number (depthGiven_number valid number)]
        simp [Except.toOption]
  · have unchanged : lit "--rec" ∈ arguments gs ↔ .recursive ∈ gs := by
      rw [recursive]
      refine or_iff_left fun other => isRec ?_
      exact (filter_unique valid isGroups other).symm
    have decided : decide (lit "--rec" ∈ arguments gs) = decide (.recursive ∈ gs) := decide_eq_decide.mpr unchanged
    rw [decided]
    by_cases isDepth : word = lit "--d"
    · exact depth_flag_iff valid isGroups isDepth
    · rw [if_neg isDepth, ← given] at read
      rw [read, asked, Harmless]
      exact iff_of_true rfl ⟨fun flag => absurd flag isRec, fun flag => absurd flag isDepth⟩

end

/-! ### Calls -/

/-- With these tokens `bn_ls` does what one call of `list_directory` does, and no more. -/
def Calls (mem : List Byte) (tokens : List (Option Nat)) (path : List Byte) (depth : Int) (filter : List Byte) : Prop :=
  ∀ (W : Type) (k : Kernel W) (w : W),
    let done := bn_ls k w mem tokens
    let listed := list_directory k w path depth filter
    done.ret = listed.ret ∧ done.world = listed.world ∧ visible done.events = listed.events ∧ ∀ e ∈ done.events, e.InBounds

/-- With these tokens `bn_ls` reports an error and returns -1, and no more. -/
def Refuses (mem : List Byte) (tokens : List (Option Nat)) : Prop :=
  ∃ message, ∀ (W : Type) (k : Kernel W) (w : W),
    let done := bn_ls k w mem tokens
    done.ret = -1 ∧ done.world = w ∧ visible done.events = display_error message (lit "-1") ∧ ∀ e ∈ done.events, e.InBounds

/-- `bn_ls` does what the groups ask for, in whatever order they stand. -/
def Behaves (mem : List Byte) (tokens : List (Option Nat)) (gs : List Group) : Prop :=
  match depthAsked gs with
  | none => Refuses mem tokens
  | some depth => Calls mem tokens ((pathGiven gs).getD (lit "./")) depth ((filterGiven gs).getD [])

/-- Whatever stands between other groups and the filter, the filter does no harm. -/
def FilterHarmless (gs : List Group) : Prop := ∀ pre word post, gs = pre ++ .filter word :: post → Harmless gs pre word post

/-- Directories without end, each with a directory `a` in it; the state counts the calls of `lstat`. -/
def nested : Kernel Nat where
  opendir w _ := (some [⟨lit "a", by decide⟩], w)
  closedir w := w
  lstat w _ := (some .directory, w + 1)
  fopen w _ := (none, w)
  chdir w _ := (false, w)
  cwd _ := none

/-- On these a listing goes as deep as it is told to. -/
private theorem world_nested (levels w : Nat) (path filter : List Byte) :
    (list_directory nested w path levels filter).world = w + levels := by
  induction levels generalizing w path with
  | zero => rfl
  | succ levels ih =>
    have below : ((levels + 1 : Nat) : Int) - 1 = levels := by omega
    have deep : ((levels + 1 : Nat) : Int) ≠ -1 := by omega
    have positive : ((levels + 1 : Nat) : Int) ≠ 0 := by omega
    have opened : nested.opendir w path = (some [⟨lit "a", by decide⟩], w) := rfl
    have status : nested.lstat w (entry_path path (lit "a")) = (some .directory, w + 1) := rfl
    have closed : ∀ w', nested.closedir w' = w' := fun _ => rfl
    have entry := list_entry_deep nested (fun w path => list_directory nested w path levels filter) path filter w deep
      (show ¬ (lit "a" = lit "." ∨ lit "a" = lit "..") by decide)
    rw [list_directory_eq nested w path (by omega) filter, below, list_body, if_neg positive, opened]
    simp only [list_entries, entry, status, ↓reduceIte, closed, ih]
    omega

/-- The listings on these tell their depth. -/
private theorem list_directory_nested (path filter : List Byte) {depth : Int} (valid : -1 ≤ depth) :
    let listed := list_directory nested 0 path depth filter
    listed.ret = 0 ∧ listed.world = depth.toNat ∧ (listed.events = [] ↔ depth = 0) := by
  have opened : nested.opendir 0 path = (some [⟨lit "a", by decide⟩], 0) := rfl
  by_cases stop : depth = 0
  · subst stop
    exact ⟨rfl, rfl, by simp [list_directory, list_levels, list_body]⟩
  · have world : (list_directory nested 0 path depth filter).world = depth.toNat := by
      by_cases flat : depth = -1
      · subst flat
        have entry := list_entry_flat nested (fun w path => list_directory nested w path (-1 - 1) filter) path filter 0
          (.inl rfl : (-1 : Int) = -1 ∨ lit "a" = lit "." ∨ lit "a" = lit "..")
        rw [list_directory_eq nested 0 path valid filter, list_body, if_neg stop, opened]
        simp only [list_entries, entry]
        rfl
      · obtain ⟨levels, rfl⟩ : ∃ levels : Nat, depth = levels := ⟨depth.toNat, by omega⟩
        rw [world_nested, Nat.zero_add, Int.toNat_natCast]
    intro listed
    refine ⟨?_, world, ?_⟩
    · simp only [listed]
      rw [list_directory_eq nested 0 path valid filter, list_body, if_neg stop, opened]
    · simp only [listed]
      rw [list_directory_eq nested 0 path valid filter, list_body, if_neg stop, opened]
      simp [stop]

section
variable {mem : List Byte} {tokens : List (Option Nat)}

/-- The calls of `list_directory` with different depths differ. -/
private theorem calls_depth {path filter : List Byte} {depth depth' : Int} (valid : -1 ≤ depth) (valid' : -1 ≤ depth')
    (calls : Calls mem tokens path depth filter) (calls' : Calls mem tokens path depth' filter) : depth = depth' := by
  obtain ⟨-, world, events, -⟩ := calls Nat nested 0
  obtain ⟨-, world', events', -⟩ := calls' Nat nested 0
  obtain ⟨-, deep, none⟩ := list_directory_nested path filter valid
  obtain ⟨-, deep', none'⟩ := list_directory_nested path filter valid'
  have same : depth.toNat = depth'.toNat := by rw [← deep, ← deep', ← world, ← world']
  have stop : depth = 0 ↔ depth' = 0 := by rw [← none, ← none', ← events, ← events']
  omega

/-- A call of `list_directory` is no refusal. -/
theorem calls_not_refuses {path filter : List Byte} {depth : Int} (valid : -1 ≤ depth)
    (calls : Calls mem tokens path depth filter) : ¬ Refuses mem tokens := by
  rintro ⟨message, refuses⟩
  have failed := (refuses Nat nested 0).1
  rw [(calls Nat nested 0).1, (list_directory_nested path filter valid).1] at failed
  cases failed

variable {ptrs : List Nat}

/-- What `bn_ls` does with groups: it lists to the depth that it has read, or refuses. -/
private theorem bn_ls_groups (valid : Valid gs) (first : Nat) (placed : List.Forall₂ (Token mem) ptrs (arguments gs))
    (stale : List (Option Nat)) :
    match ls_depth (decide (lit "--rec" ∈ arguments gs)) (depthRead gs) with
    | .error _ => Refuses mem (some first :: ptrs.map some ++ none :: stale)
    | .ok depth =>
      Calls mem (some first :: ptrs.map some ++ none :: stale) ((pathGiven gs).getD (lit "./")) depth
        ((filterGiven gs).getD []) := by
  have scanned := @pathOf_found gs valid none (.inl rfl)
  rw [Option.none_or] at scanned
  have settled : ∀ (W : Type) (k : Kernel W) (w : W), ls_words k w (arguments gs) =
      match ls_depth (decide (lit "--rec" ∈ arguments gs)) (depthRead gs) with
      | .error message => some ⟨-1, display_error message (lit "-1"), w⟩
      | .ok depth => some (list_directory k w ((pathGiven gs).getD (lit "./")) depth ((filterGiven gs).getD [])) := by
    intro W k w
    unfold ls_words
    rw [valueOf_depth valid]
    cases ls_depth (decide (lit "--rec" ∈ arguments gs)) (depthRead gs) with
    | error message => rfl
    | ok depth => simp only [valueOf_filter valid, scanned]
  cases read : ls_depth (decide (lit "--rec" ∈ arguments gs)) (depthRead gs) with
  | error message =>
    refine ⟨message, fun W k w => ?_⟩
    have effect := settled W k w
    rw [read] at effect
    exact bn_ls_words k w first placed stale effect
  | ok depth =>
    intro W k w
    have effect := settled W k w
    rw [read] at effect
    exact bn_ls_words k w first placed stale effect

private theorem depthAsked_valid {depth : Int} (asked : depthAsked gs = some depth) : -1 ≤ depth := by
  unfold depthAsked at asked
  cases given : depthGiven gs <;> simp only [given] at asked <;> split_ifs at asked <;> cases asked <;> omega

/-- `bn_ls` does what the groups ask for exactly when it computes the depth asked for. -/
private theorem behaves_iff_depth (valid : Valid gs) (first : Nat) (placed : List.Forall₂ (Token mem) ptrs (arguments gs))
    (stale : List (Option Nat)) :
    Behaves mem (some first :: ptrs.map some ++ none :: stale) gs ↔
      (ls_depth (decide (lit "--rec" ∈ arguments gs)) (depthRead gs)).toOption = depthAsked gs := by
  have does := bn_ls_groups valid first placed stale
  unfold Behaves
  cases read : ls_depth (decide (lit "--rec" ∈ arguments gs)) (depthRead gs) with
  | error message =>
    rw [read] at does
    cases asked : depthAsked gs with
    | none => exact iff_of_true does rfl
    | some depth =>
      refine iff_of_false (fun calls => ?_) (by simp [Except.toOption])
      exact calls_not_refuses (depthAsked_valid asked) calls does
  | ok depth =>
    rw [read] at does
    cases asked : depthAsked gs with
    | none =>
      refine iff_of_false (fun refuses => ?_) (by simp [Except.toOption])
      exact calls_not_refuses (ls_depth_valid read) does refuses
    | some depth' =>
      simp only [Except.toOption, Option.some.injEq]
      constructor
      · intro calls
        exact calls_depth (ls_depth_valid read) (depthAsked_valid asked) does calls
      · rintro rfl
        exact does

end

/-- On groups in any order `bn_ls` does what they ask for exactly when a filter that looks like a flag does no
    harm: it lists the path, to the depth and with the filter given, or refuses `--d` without `--rec`. -/
theorem bn_ls_options_iff (valid : Valid gs) (first : Nat) {mem : List Byte} {ptrs : List Nat}
    (placed : List.Forall₂ (Token mem) ptrs (arguments gs)) (stale : List (Option Nat)) :
    Behaves mem (some first :: ptrs.map some ++ none :: stale) gs ↔ FilterHarmless gs := by
  rw [behaves_iff_depth valid first placed stale]
  constructor
  · intro same pre word post isGroups
    exact (depth_filter_iff valid isGroups).mp same
  · intro harmless
    by_cases filtered : .filter ∈ gs.map Group.kind
    · obtain ⟨g, member, isFilter⟩ := List.mem_map.mp filtered
      obtain ⟨pre, post, isGroups⟩ := List.append_of_mem member
      cases g with
      | filter word => exact (depth_filter_iff valid isGroups).mpr (harmless pre word post isGroups)
      | _ => cases isFilter
    · have recursive : lit "--rec" ∈ arguments gs ↔ .recursive ∈ gs := by
        rw [recursive_read valid]
        exact or_iff_left fun other => filtered (List.mem_map.mpr ⟨_, other, rfl⟩)
      have decided : decide (lit "--rec" ∈ arguments gs) = decide (.recursive ∈ gs) := decide_eq_decide.mpr recursive
      rw [decided, depthRead_unfiltered filtered, depthAsked_eq valid]

instance (mem : List Byte) (token : Nat) (text : List Byte) : Decidable (Token mem token text) := by
  unfold Token; infer_instance

/-- The words of a line as the tokenizer leaves them. -/
def tokenMemory (ws : List (List Byte)) : List Byte := ws.flatMap (· ++ [0])

theorem bn_ls_options_alternate :
    Behaves (tokenMemory [lit "ls", lit "--d", lit "1", lit "--rec", lit "testfolder"]) [some 0, some 3, some 7, some 9, some 15, none]
      [.depth (lit "1"), .recursive, .path (lit "testfolder")] := by
  have valid : Valid [.depth (lit "1"), .recursive, .path (lit "testfolder")] := by
    refine ⟨by decide, ?_, ?_⟩
    · intro number member
      obtain rfl : number = lit "1" := by simpa using member
      exact ⟨by decide, by decide +kernel, by decide⟩
    · intro word member
      obtain rfl : word = lit "testfolder" := by simpa using member
      decide
  refine (@bn_ls_options_iff _ valid 0 _ [3, 7, 9, 15] (by decide +kernel) []).mpr ?_
  intro pre word post split
  have member : Group.filter word ∈ [.depth (lit "1"), .recursive, .path (lit "testfolder")] := by
    rw [split]
    simp
  simp at member

/-- `ls --f --rec` lists nothing: its filter makes it recursive. -/
theorem filter_read_as_flag : ¬ ∀ gs : List Group, Valid gs → ∀ (first : Nat) (mem : List Byte) (ptrs : List Nat),
    List.Forall₂ (Token mem) ptrs (arguments gs) → ∀ stale : List (Option Nat),
      Behaves mem (some first :: ptrs.map some ++ none :: stale) gs := by
  intro behaves
  have valid : Valid [.filter (lit "--rec")] := ⟨by decide, by simp, by simp⟩
  have placed : List.Forall₂ (Token (tokenMemory [lit "ls", lit "--f", lit "--rec"])) [3, 7] (arguments [.filter (lit "--rec")]) := by
    decide +kernel
  have misread := (behaves_iff_depth valid 0 placed []).mp (behaves _ valid 0 _ _ placed [])
  exact absurd misread (by decide +kernel)

end BashInC.Options
