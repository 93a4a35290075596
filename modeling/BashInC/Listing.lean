import BashInC.Clib.Numbers
import BashInC.System

/-!
The builtin `ls`: `list_directory`, and `bn_ls`, which reads its options off the
token array. The loop over the path skips the slot behind a `--d` or `--f` even
when that slot is the NULL that ends the line, so it alone can go on into what
earlier lines have left in the array (`Overruns`); otherwise `bn_ls` depends on
the words of the line only (`bn_ls_words`).
-/
namespace BashInC.Listing
open Clib.Strings Clib.Numbers BashInC.IoHelpers BashInC.System
variable {W : Type*}

/-! ### Directories -/

/-- `snprintf(full_path, sizeof(full_path), "%s/%s", path, entry->d_name)` with `char full_path[1024]`. -/
def entry_path (path d_name : List Byte) : List Byte := (path ++ chr '/' :: d_name).take 1023

/-- Whether a name matches the filter. -/
def shown (filter d_name : List Byte) : Prop := filter = [] ∨ strstr d_name filter = true

instance (filter d_name : List Byte) : Decidable (shown filter d_name) := by
  unfold shown; infer_instance

/-- The body of the loop over the entries; `recurse` is `list_directory` with the depth and the filter of
    the recursive call. -/
def list_entry (k : Kernel W) (recurse : W → List Byte → Effect W) (depth : Int) (path filter : List Byte) (w : W)
    (d_name : List Byte) : List Event × W :=
  let printed := if shown filter d_name then display_message d_name ++ display_message (lit "\n") else []
  if depth ≠ -1 ∧ (d_name = lit "." ∨ d_name = lit "..") then (printed, w)
  else if depth ≠ -1 then
    let full_path := entry_path path d_name
    let (st, w) := k.lstat w full_path
    if st = some .directory ∧ d_name ≠ lit "." ∧ d_name ≠ lit ".." then
      let sub := recurse w full_path
      (printed ++ sub.events, sub.world)
    else (printed, w)
  else (printed, w)

/-- `while ((entry = readdir(dir)) != NULL) { ... }` -/
def list_entries (k : Kernel W) (recurse : W → List Byte → Effect W) (depth : Int) (path filter : List Byte) :
    W → List CStr → List Event × W
  | w, [] => ([], w)
  | w, d_name :: entries =>
    let (events, w) := list_entry k recurse depth path filter w d_name
    let (more, w) := list_entries k recurse depth path filter w entries
    (events ++ more, w)

def list_body (k : Kernel W) (recurse : W → List Byte → Effect W) (depth : Int) (w : W) (path filter : List Byte) :
    Effect W :=
  if depth = 0 then ⟨0, [], w⟩
  else
    match k.opendir w path with
    | (none, w) => ⟨-1, .opendir path false :: display_error (lit "Invalid path") (lit "one"), w⟩
    | (some entries, w) =>
      let (events, w) := list_entries k recurse depth path filter w entries
      ⟨0, .opendir path true :: events ++ [.closedir], k.closedir w⟩

/-- `list_directory` with at most `levels` nested recursive calls. -/
def list_levels (k : Kernel W) : Nat → Int → W → List Byte → List Byte → Effect W
  | 0, depth, w, path, filter => list_body k (fun w _ => ⟨0, [], w⟩) depth w path filter
  | levels + 1, depth, w, path, filter =>
    list_body k (fun w path => list_levels k levels (depth - 1) w path filter) depth w path filter

/-- `list_directory(path, depth, filter)` for a depth of at least -1: no call goes deeper than that. -/
def list_directory (k : Kernel W) (w : W) (path : List Byte) (depth : Int) (filter : List Byte) : Effect W :=
  list_levels k depth.toNat depth w path filter

/-- An empty filter is in every name. -/
theorem shown_iff (filter d_name : List Byte) : shown filter d_name ↔ filter <:+: d_name := by
  unfold shown strstr
  rw [decide_eq_true_eq, or_iff_right_iff_imp]
  rintro rfl
  exact List.nil_infix

/-- What is printed for an entry. -/
def printName (filter d_name : List Byte) : List Event :=
  if shown filter d_name then display_message d_name ++ display_message (lit "\n") else []

theorem mem_printName {filter d_name : List Byte} {e : Event} (member : e ∈ printName filter d_name) :
    ∃ bytes, e = .stdout bytes := by
  unfold printName at member
  split at member
  · rcases List.mem_append.mp member with name | newline
    · exact ⟨_, List.mem_singleton.mp name⟩
    · exact ⟨_, List.mem_singleton.mp newline⟩
  · cases member

/-- A plain listing prints its entries and does no more, as any listing with `.` and `..`. -/
theorem list_entry_flat (k : Kernel W) (recurse : W → List Byte → Effect W) {depth : Int} (path filter : List Byte) (w : W)
    {d_name : List Byte} (flat : depth = -1 ∨ d_name = lit "." ∨ d_name = lit "..") :
    list_entry k recurse depth path filter w d_name = (printName filter d_name, w) := by
  by_cases plain : depth = -1
  · simp [list_entry, printName, plain]
  · have dots : d_name = lit "." ∨ d_name = lit ".." := flat.resolve_left plain
    simp [list_entry, printName, plain, dots]

/-- A recursive listing goes into the entries that are directories. -/
theorem list_entry_deep (k : Kernel W) (recurse : W → List Byte → Effect W) {depth : Int} (path filter : List Byte) (w : W)
    {d_name : List Byte} (deep : depth ≠ -1) (name : ¬ (d_name = lit "." ∨ d_name = lit "..")) :
    list_entry k recurse depth path filter w d_name =
      let full_path := entry_path path d_name
      let st := k.lstat w full_path
      if st.1 = some .directory then
        (printName filter d_name ++ (recurse st.2 full_path).events, (recurse st.2 full_path).world)
      else (printName filter d_name, st.2) := by
  have other : d_name ≠ lit "." ∧ d_name ≠ lit ".." := not_or.mp name
  simp only [list_entry, ne_eq, deep, not_false_eq_true, ↓reduceIte, other, and_self, and_true, or_self, and_false]
  rfl

/-- Without recursion the recursive call does not matter. -/
private theorem list_body_flat (k : Kernel W) (recurse recurse' : W → List Byte → Effect W) (w : W)
    (path filter : List Byte) : list_body k recurse (-1) w path filter = list_body k recurse' (-1) w path filter := by
  have entries : ∀ (names : List CStr) (w : W),
      list_entries k recurse (-1) path filter w names = list_entries k recurse' (-1) path filter w names := by
    intro names
    induction names with
    | nil =>
      intro w
      rfl
    | cons d_name names ih => simp [list_entries, list_entry, ih]
  simp only [list_body, entries]

/-- The recursion of the source: a call is the body with the same function one level deeper. -/
theorem list_directory_eq (k : Kernel W) (w : W) (path : List Byte) {depth : Int} (valid : -1 ≤ depth)
    (filter : List Byte) : list_directory k w path depth filter =
      list_body k (fun w path => list_directory k w path (depth - 1) filter) depth w path filter := by
  unfold list_directory
  obtain flat | stop | ⟨levels, rfl⟩ : depth = -1 ∨ depth = 0 ∨ ∃ n : Nat, depth = n + 1 := by
    rcases Int.lt_or_le depth 1 with low | high
    · omega
    · exact .inr (.inr ⟨(depth - 1).toNat, by omega⟩)
  · subst flat
    exact list_body_flat k _ _ w path filter
  · subst stop
    simp [list_levels, list_body]
  · rw [show ((levels : Int) + 1).toNat = levels + 1 by omega, list_levels]
    simp

private theorem list_body_visible (k : Kernel W) {recurse : W → List Byte → Effect W} (depth : Int)
    (seen : ∀ w path, ∀ e ∈ (recurse w path).events, e.visible = true) (w : W) (path filter : List Byte) :
    ∀ e ∈ (list_body k recurse depth w path filter).events, e.visible = true := by
  have entry : ∀ (w : W) (d_name : List Byte), ∀ e ∈ (list_entry k recurse depth path filter w d_name).1,
      e.visible = true := by
    intro w d_name
    have name := visible_display_message d_name
    have newline := visible_display_message (lit "\n")
    unfold list_entry
    dsimp only
    split_ifs <;> grind
  have entries : ∀ (names : List CStr) (w : W), ∀ e ∈ (list_entries k recurse depth path filter w names).1,
      e.visible = true := by
    intro names
    induction names with
    | nil => simp [list_entries]
    | cons d_name names ih =>
      intro w e member
      rcases List.mem_append.mp member with here | later
      · exact entry w d_name e here
      · exact ih _ e later
  unfold list_body
  split
  · simp
  · split
    · simpa [Event.visible] using visible_display_error _ _
    · next names w' _ => simpa [Event.visible, or_imp, forall_and] using entries names w'

/-- A listing touches no array of the caller. -/
theorem list_directory_visible (k : Kernel W) (w : W) (path : List Byte) (depth : Int) (filter : List Byte) :
    ∀ e ∈ (list_directory k w path depth filter).events, e.visible = true := by
  unfold list_directory
  generalize depth.toNat = levels
  induction levels generalizing depth w path with
  | zero => exact list_body_visible k depth (by simp) w path filter
  | succ levels ih => exact list_body_visible k depth (fun w path => ih w path (depth - 1)) w path filter

/-! ### Options -/

/-- The loop that looks for `--rec`, from some token on. -/
def recursive_flag (mem : List Byte) : List (Option Nat) → Bool
  | some token :: tokens => cstr mem token = lit "--rec" || recursive_flag mem tokens
  | _ => false

/-- The loops that look for a flag with a value, `--d` or `--f`, from some token on. -/
def flag_value (mem flag : List Byte) : List (Option Nat) → Option (List Byte)
  | some token :: some value :: tokens =>
    if cstr mem token = flag then some (cstr mem value) else flag_value mem flag (some value :: tokens)
  | _ => none

/-- The outcome of the loop over the path: the path if one is found, or too many of them. -/
inductive PathScan
  | path (found : Option (List Byte))
  | tooMany
  deriving DecidableEq

/-- The loop over the path, from some token on: `skip` is set when the slot is the value of a flag, which
    `i++` steps over whatever it holds. -/
def scan_path (mem : List Byte) : Bool → Option (List Byte) → List (Option Nat) → List Event × PathScan
  | true, path, _ :: tokens => scan_path mem false path tokens
  | false, path, some token :: tokens =>
    let str := cstr mem token
    let load := Event.load (token, str.length + 1)
    if str = lit "--d" ∨ str = lit "--f" then
      let (events, scan) := scan_path mem true path tokens
      (load :: events, scan)
    else if str = lit "--rec" then
      let (events, scan) := scan_path mem false path tokens
      (load :: events, scan)
    else if path.isSome then ([load], .tooMany)
    else
      let (events, scan) := scan_path mem false (some str) tokens
      (load :: .store .path (0, str.length + 1) :: events, scan)
  | _, path, _ => ([], .path path)

/-- The depth that the flags ask for, or the message of the error in them. -/
def ls_depth (recursive : Bool) (value : Option (List Byte)) : Except (List Byte) Int :=
  let checked : Except (List Byte) Int :=
    match value with
    | none => .ok (if recursive then 0 else -1)
    | some value =>
      let (number, endptr) := strtol value
      let depth := toInt number
      if endptr ≠ [] ∨ depth < 0 then .error (lit "Invalid depth value") else .ok depth
  match checked with
  | .error message => .error message
  | .ok depth =>
    if !recursive ∧ depth ≥ 0 then .error (lit "Invalid use of --d: --rec flag not provided") else .ok depth

/-- `strcpy(filter, tokens[i+1])`, if the flag is there. -/
def copy_filter : Option (List Byte) → List Event
  | some value => [.store .filter (0, value.length + 1)]
  | none => []

def bn_ls (k : Kernel W) (w : W) (mem : List Byte) (tokens : List (Option Nat)) : Effect W :=
  let tokens := tokens.drop 1
  let error := lit "-1"
  match ls_depth (recursive_flag mem tokens) (flag_value mem (lit "--d") tokens) with
  | .error message => ⟨-1, display_error message error, w⟩
  | .ok depth =>
    let value := flag_value mem (lit "--f") tokens
    let filter := value.getD []
    match scan_path mem false none tokens with
    | (events, .tooMany) =>
      ⟨-1, copy_filter value ++ events ++ display_error (lit "Too many arguments: ls takes a single path") error, w⟩
    | (events, .path path) =>
      let listed := list_directory k w (path.getD (lit "./")) depth filter
      { listed with events := copy_filter value ++ events ++ listed.events }

theorem ls_depth_valid {recursive : Bool} {value : Option (List Byte)} {depth : Int}
    (read : ls_depth recursive value = .ok depth) : -1 ≤ depth := by
  unfold ls_depth at read
  grind

/-- A read or a copy of `bn_ls` itself: a string at a token, `filter` or `path`. -/
def own : Event → Bool
  | .load _ | .store .filter _ | .store .path _ => true
  | _ => false

theorem own_copy_filter (value : Option (List Byte)) : ∀ e ∈ copy_filter value, own e = true := by
  cases value <;> simp [copy_filter, own]

theorem own_scan_path (mem : List Byte) (skip : Bool) (path : Option (List Byte)) (tokens : List (Option Nat)) :
    ∀ e ∈ (scan_path mem skip path tokens).1, own e = true := by
  induction tokens generalizing skip path with
  | nil => cases skip <;> simp [scan_path]
  | cons token tokens ih =>
    cases skip with
    | true => exact ih false path
    | false =>
      cases token with
      | none => simp [scan_path]
      | some token =>
        simp only [scan_path]
        split_ifs <;> simp [own] <;> exact ih _ _

/-- The path, the depth and the filter that `bn_ls` hands to `list_directory`, or the message of its error. -/
def request (mem : List Byte) (tokens : List (Option Nat)) : Except (List Byte) (List Byte × Int × List Byte) :=
  let tokens := tokens.drop 1
  match ls_depth (recursive_flag mem tokens) (flag_value mem (lit "--d") tokens) with
  | .error message => .error message
  | .ok depth =>
    match (scan_path mem false none tokens).2 with
    | .tooMany => .error (lit "Too many arguments: ls takes a single path")
    | .path path => .ok (path.getD (lit "./"), depth, (flag_value mem (lit "--f") tokens).getD [])

/-- Whatever the tokens are, `bn_ls` reads and copies some of them, and then it reports an error or lists one
    directory. -/
theorem bn_ls_request (k : Kernel W) (w : W) (mem : List Byte) (tokens : List (Option Nat)) :
    ∃ events, (∀ e ∈ events, own e = true) ∧ bn_ls k w mem tokens =
      match request mem tokens with
      | .error message => ⟨-1, events ++ display_error message (lit "-1"), w⟩
      | .ok (path, depth, filter) =>
        { list_directory k w path depth filter with events := events ++ (list_directory k w path depth filter).events } := by
  have copied := own_copy_filter (flag_value mem (lit "--f") (tokens.drop 1))
  have scanned := own_scan_path mem false none (tokens.drop 1)
  unfold bn_ls request
  dsimp only
  cases ls_depth (recursive_flag mem (tokens.drop 1)) (flag_value mem (lit "--d") (tokens.drop 1)) with
  | error message => exact ⟨[], by simp, rfl⟩
  | ok depth =>
    dsimp only
    generalize scan_path mem false none (tokens.drop 1) = scan at scanned
    obtain ⟨events, outcome⟩ := scan
    have both := List.forall_mem_append.mpr ⟨copied, scanned⟩
    cases outcome with
    | tooMany => exact ⟨_, both, rfl⟩
    | path path => exact ⟨_, both, rfl⟩

theorem bn_ls_cases (k : Kernel W) (w : W) (mem : List Byte) (tokens : List (Option Nat)) :
    ∃ events, (∀ e ∈ events, own e = true) ∧
      ((∃ message, bn_ls k w mem tokens = ⟨-1, events ++ display_error message (lit "-1"), w⟩) ∨
        ∃ path depth filter, bn_ls k w mem tokens =
          { list_directory k w path depth filter with events := events ++ (list_directory k w path depth filter).events }) := by
  obtain ⟨events, all, ran⟩ := bn_ls_request k w mem tokens
  refine ⟨events, all, ?_⟩
  cases asked : request mem tokens with
  | error message => exact .inl ⟨message, by rw [ran, asked]⟩
  | ok listing => exact .inr ⟨_, _, _, by rw [ran, asked]⟩

/-! ### Words -/

/-- The value that follows a flag among the words of a line. -/
def valueOf (flag : List Byte) : List (List Byte) → Option (List Byte)
  | w :: value :: ws => if w = flag then some value else valueOf flag (value :: ws)
  | _ => none

/-- The path among the words of a line; `none` when the loop over it leaves the line, which happens at a
    flag whose value is missing. -/
def pathOf : Bool → Option (List Byte) → List (List Byte) → Option PathScan
  | true, path, _ :: ws => pathOf false path ws
  | true, _, [] => none
  | false, path, w :: ws =>
    if w = lit "--d" ∨ w = lit "--f" then pathOf true path ws
    else if w = lit "--rec" then pathOf false path ws
    else if path.isSome then some .tooMany
    else pathOf false (some w) ws
  | false, path, [] => some (.path path)

/-- The loop over the path of an `ls` with these words behind it leaves the line. -/
def Overruns (args : List (List Byte)) : Prop :=
  match ls_depth (decide (lit "--rec" ∈ args)) (valueOf (lit "--d") args) with
  | .error _ => False
  | .ok _ => pathOf false none args = none

instance (args : List (List Byte)) : Decidable (Overruns args) := by
  unfold Overruns; split <;> infer_instance

/-- What `ls` does with the words behind it; `none` when it leaves the line. -/
def ls_words (k : Kernel W) (w : W) (args : List (List Byte)) : Option (Effect W) :=
  match ls_depth (decide (lit "--rec" ∈ args)) (valueOf (lit "--d") args) with
  | .error message => some ⟨-1, display_error message (lit "-1"), w⟩
  | .ok depth =>
    match pathOf false none args with
    | none => none
    | some .tooMany => some ⟨-1, display_error (lit "Too many arguments: ls takes a single path") (lit "-1"), w⟩
    | some (.path path) =>
      some (list_directory k w (path.getD (lit "./")) depth ((valueOf (lit "--f") args).getD []))

/-- A token in `input_buf` and its text, behind the first word of a line. -/
def Token (mem : List Byte) (token : Nat) (text : List Byte) : Prop :=
  cstr mem token = text ∧ token + text.length + 1 ≤ MAX_STR_LEN + 1 ∧ text.length + 1 < MAX_STR_LEN

/-- The tokens of a laid out line behind its first word. -/
theorem tokens_laid {region : List Byte} {first : Nat} {ptrs : List Nat} {cmd : List Byte} {args : List (List Byte)}
    (laid : Laid 0 region (first :: ptrs) (cmd :: args)) (nonempty : cmd ≠ []) (short : region.length ≤ MAX_STR_LEN + 1)
    (post : List Byte) : List.Forall₂ (Token (region ++ post)) ptrs args := by
  cases laid with
  | @cons _ lead _ tail region _ _ _ laid =>
    rw [Nat.zero_add] at laid
    have front := List.length_pos_of_ne_nil nonempty
    refine (forall₂_laid laid post).imp ?_
    rintro ptr str ⟨same, low, high⟩
    simp only [List.length_append, List.length_cons] at low high short
    exact ⟨by simpa using same, by omega, by omega⟩

variable {mem : List Byte} {ptrs : List Nat} {args : List (List Byte)}

private theorem recursive_flag_words (tokens : List.Forall₂ (Token mem) ptrs args) (stale : List (Option Nat)) :
    recursive_flag mem (ptrs.map some ++ none :: stale) = decide (lit "--rec" ∈ args) := by
  induction tokens with
  | nil => rfl
  | cons token _ ih => simp [recursive_flag, ih, token.1, eq_comm]

private theorem flag_value_words (tokens : List.Forall₂ (Token mem) ptrs args) (flag : List Byte)
    (stale : List (Option Nat)) : flag_value mem flag (ptrs.map some ++ none :: stale) = valueOf flag args := by
  induction tokens with
  | nil => rfl
  | cons token rest ih =>
    cases rest with
    | nil => rfl
    | cons value _ =>
      simp only [List.map_cons, List.cons_append] at ih
      simp [flag_value, valueOf, token.1, value.1, ih]

/-- While it stays in the line, the loop over the path finds what the words say, and its reads and copies
    stay in their arrays. -/
private theorem scan_path_words (tokens : List.Forall₂ (Token mem) ptrs args) (stale : List (Option Nat)) {skip : Bool}
    {path : Option (List Byte)} {scan : PathScan} (inside : pathOf skip path args = some scan) :
    ∃ events, scan_path mem skip path (ptrs.map some ++ none :: stale) = (events, scan) ∧
      visible events = [] ∧ ∀ e ∈ events, e.InBounds := by
  induction tokens generalizing skip path with
  | nil =>
    cases skip with
    | true => simp [pathOf] at inside
    | false =>
      simp only [pathOf, Option.some.injEq] at inside
      exact ⟨[], by simp [scan_path, inside], rfl, by simp⟩
  | @cons token text _ _ placed rest ih =>
    obtain ⟨same, low, short⟩ := placed
    have load : (Event.load (token, text.length + 1)).InBounds := by
      refine ⟨?_, ?_, ?_⟩ <;> simp only <;> omega
    have store : (Event.store .path (0, text.length + 1)).InBounds := by
      simp only [MAX_STR_LEN] at short
      refine ⟨?_, ?_, ?_⟩ <;> simp only [Local.size] <;> omega
    cases skip with
    | true =>
      obtain ⟨events, ran, quiet, inBounds⟩ := ih inside
      exact ⟨events, by simpa [scan_path] using ran, quiet, inBounds⟩
    | false =>
      simp only [List.map_cons, List.cons_append, scan_path, same]
      rw [pathOf] at inside
      split_ifs at inside ⊢ with flag recursive found
      · obtain ⟨events, ran, quiet, inBounds⟩ := ih inside
        exact ⟨.load (token, text.length + 1) :: events, by simp [ran], quiet, by simpa using ⟨load, inBounds⟩⟩
      · obtain ⟨events, ran, quiet, inBounds⟩ := ih inside
        exact ⟨.load (token, text.length + 1) :: events, by simp [ran], quiet, by simpa using ⟨load, inBounds⟩⟩
      · simp only [Option.some.injEq] at inside
        exact ⟨[.load (token, text.length + 1)], by simp [inside], rfl, by simpa using load⟩
      · obtain ⟨events, ran, quiet, inBounds⟩ := ih inside
        exact ⟨.load (token, text.length + 1) :: .store .path (0, text.length + 1) :: events, by simp [ran], quiet,
          by simpa using ⟨load, store, inBounds⟩⟩

private theorem valueOf_mem {flag value : List Byte} {ws : List (List Byte)} (found : valueOf flag ws = some value) :
    value ∈ ws := by
  induction ws with
  | nil => simp [valueOf] at found
  | cons w ws ih =>
    cases ws with
    | nil => simp [valueOf] at found
    | cons v ws =>
      rw [valueOf] at found
      split_ifs at found with same
      · simp_all
      · exact List.mem_cons_of_mem _ (ih found)

private theorem token_short (tokens : List.Forall₂ (Token mem) ptrs args) : ∀ w ∈ args, w.length + 1 < MAX_STR_LEN := by
  induction tokens with
  | nil => simp
  | cons token _ ih => simpa using ⟨token.2.2, ih⟩

private theorem copy_filter_words (tokens : List.Forall₂ (Token mem) ptrs args) (flag : List Byte) :
    visible (copy_filter (valueOf flag args)) = [] ∧ ∀ e ∈ copy_filter (valueOf flag args), e.InBounds := by
  cases found : valueOf flag args with
  | none => simp [copy_filter]
  | some value =>
    have bound := token_short tokens value (valueOf_mem found)
    simp only [MAX_STR_LEN] at bound
    simp only [copy_filter, visible_cons_store, visible_nil, true_and, List.mem_singleton, forall_eq]
    refine ⟨?_, ?_, ?_⟩ <;> simp only [Local.size] <;> omega

/-- An `ls` that stays in its line does what its words say. -/
theorem bn_ls_words (k : Kernel W) (w : W) (first : Nat) (tokens : List.Forall₂ (Token mem) ptrs args)
    (stale : List (Option Nat)) {effect : Effect W} (inside : ls_words k w args = some effect) :
    let done := bn_ls k w mem (some first :: ptrs.map some ++ none :: stale)
    done.ret = effect.ret ∧ done.world = effect.world ∧ visible done.events = effect.events ∧
      ∀ e ∈ done.events, e.InBounds := by
  have shown : ∀ {events : List Event}, (∀ e ∈ events, e.visible = true) →
      visible events = events ∧ ∀ e ∈ events, e.InBounds :=
    fun seen => ⟨visible_eq_self seen, fun e member => e.inBounds_of_visible (seen e member)⟩
  have flags := recursive_flag_words tokens stale
  have values := fun flag => flag_value_words tokens flag stale
  obtain ⟨hidden, copied⟩ := copy_filter_words tokens (lit "--f")
  simp only [bn_ls, List.cons_append, List.drop_succ_cons, List.drop_zero, flags, values]
  unfold ls_words at inside
  split at inside
  · next message wrong =>
    simp only [Option.some.injEq] at inside
    subst inside
    simp only [wrong, true_and]
    exact shown (visible_display_error _ _)
  · next depth right =>
    simp only [right]
    split at inside
    · cases inside
    · next scanned =>
      obtain ⟨events, ran, quiet, inBounds⟩ := scan_path_words tokens stale scanned
      obtain ⟨error, errorInBounds⟩ := shown (visible_display_error
        (lit "Too many arguments: ls takes a single path") (lit "-1"))
      simp only [Option.some.injEq] at inside
      subst inside
      simp only [ran, visible_append, hidden, quiet, error, List.nil_append, List.forall_mem_append, true_and]
      exact ⟨⟨copied, inBounds⟩, errorInBounds⟩
    · next path scanned =>
      obtain ⟨events, ran, quiet, inBounds⟩ := scan_path_words tokens stale scanned
      obtain ⟨listed, listedInBounds⟩ := shown (list_directory_visible k w (path.getD (lit "./")) depth
        ((valueOf (lit "--f") args).getD []))
      simp only [Option.some.injEq] at inside
      subst inside
      simp only [ran, visible_append, hidden, quiet, listed, List.nil_append, List.forall_mem_append, true_and]
      exact ⟨⟨copied, inBounds⟩, listedInBounds⟩

end BashInC.Listing
