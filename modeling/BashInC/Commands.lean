import BashInC.Mysh

/-!
What a line means to the shell in terms of its words: `line_round`, a round on
the variables and the system alone (`View`), with no memory, no token array and
no fixed-size buffer. It is defined for the words that are `Settled`: whose
command neither leaves a buffer nor reads what an earlier line or the stack has
left behind. On those the main loop refines it (`step_words`).
-/
namespace BashInC.Commands
open Clib.Fields Clib.Strings Clib.Buffers BashInC.IoHelpers BashInC.Expansion BashInC.Variables
open BashInC.Echo BashInC.System BashInC.Listing BashInC.Files BashInC.Mysh
variable {W : Type*}

/-- The part of the state that is no leftover of earlier lines. -/
structure View (W : Type*) where
  vars : List Variable
  world : W

def view (s : Shell W) : View W := ⟨s.vars, s.world⟩

def map {σ τ : Type*} (f : σ → τ) : Outcome σ → Outcome τ
  | .next s => .next (f s)
  | .exit => .exit
  | .undefined => .undefined

theorem map_eq_next_iff {σ τ : Type*} {f : σ → τ} {o : Outcome σ} {t : τ} :
    map f o = .next t ↔ ∃ s, o = .next s ∧ f s = t := by
  cases o <;> simp [map]

/-- What a round shows to the outside and to later rounds that depend on the view only. -/
def observe (round : Round (Shell W)) : Round (View W) := ⟨visible round.events, map view round.outcome⟩

/-! ### Lines as words -/

/-- The name and the text of an assignment: `strtok` skips every `=` in front of the name, and there is no
    assignment when nothing follows the `=` behind it. -/
def assignmentOf (cmd : List Byte) : Option (CStr × CStr) :=
  let rest := cmd.dropWhile (among (lit "="))
  let val := (rest.dropWhile (!among (lit "=") ·)).drop 1
  if val = [] then none else some (CStr.of (rest.takeWhile (!among (lit "=") ·)), CStr.of val)

def builtin_words (k : Kernel W) (v : View W) (cmd : List Byte) (args : List (List Byte)) : Builtin → Option (Effect W)
  | .bn_echo =>
    if (committed (get_var v.vars) args).length ≤ 127 then
      some ⟨0, .stdout ((joined (get_var v.vars) args).take 127) :: display_message (lit "\n"), v.world⟩
    else none
  | .word_count => if Countable k v.world args.head? then some (word_count k v.world cmd args.head?) else none
  | .cat => some (cat k v.world cmd args.head?)
  | .cd => some (cd k v.world cmd args.head?)
  | .pwd =>
    (k.getcwd v.world 128).map fun path => ⟨0, display_message path ++ display_message (lit "\n"), v.world⟩
  | .bn_ls => ls_words k v.world args

def command_words (k : Kernel W) (v : View W) (cmd : List Byte) (args : List (List Byte)) : Option (Round (View W)) :=
  if cmd = lit "exit" then some ⟨[], .exit⟩
  else if chr '=' ∈ cmd then
    match assignmentOf cmd with
    | none => some ⟨[], .next v⟩
    | some (name, val) =>
      if Fits (get_var v.vars) val then some ⟨[], .next { v with vars := (def_var v.vars name val).vars }⟩ else none
  else
    match check_builtin cmd with
    | some builtin_fn =>
      (builtin_words k v cmd args builtin_fn).map fun effect =>
        let failed := if effect.ret = -1 then display_error (lit "ERROR: Builtin failed: ") cmd else []
        ⟨effect.events ++ failed, .next { v with world := effect.world }⟩
    | none => some ⟨display_error (lit "ERROR: Unknown command: ") cmd, .next v⟩

/-- The round on a line with these words; `none` where it depends on more than the view. -/
def line_round (k : Kernel W) (v : View W) : List (List Byte) → Option (Round (View W))
  | [] => some ⟨[], .next v⟩
  | cmd :: args => command_words k v cmd args

/-- The command stays in its buffers and in its line: an assignment fits, `echo` commits to no more than
    `final` holds, `ls` has a value behind each flag that takes one, `pwd` is told the directory, and `wc` can
    count what it reads. -/
def Settled (k : Kernel W) (v : View W) : List (List Byte) → Prop
  | [] => True
  | cmd :: args =>
    if cmd = lit "exit" then True
    else if chr '=' ∈ cmd then
      match assignmentOf cmd with
      | none => True
      | some (_, val) => Fits (get_var v.vars) val
    else
      match check_builtin cmd with
      | some .bn_echo => (committed (get_var v.vars) args).length ≤ 127
      | some .bn_ls => ¬ Overruns args
      | some .pwd => (k.getcwd v.world 128).isSome
      | some .word_count => Countable k v.world args.head?
      | _ => True

instance (k : Kernel W) (v : View W) (ws : List (List Byte)) : Decidable (Settled k v ws) := by
  unfold Settled; repeat' (split <;> try infer_instance)

private theorem ls_words_eq_none_iff (k : Kernel W) (w : W) (args : List (List Byte)) :
    ls_words k w args = none ↔ Overruns args := by
  unfold ls_words Overruns
  cases depth : ls_depth (decide (lit "--rec" ∈ args)) (valueOf (lit "--d") args) with
  | error message => simp
  | ok depth =>
    cases path : pathOf false none args with
    | none => simp
    | some scan => cases scan <;> simp

/-- A round of words has a defined outcome. -/
theorem line_round_defined {k : Kernel W} {v : View W} {ws : List (List Byte)} {round : Round (View W)}
    (settled : line_round k v ws = some round) : round.outcome ≠ .undefined := by
  cases ws with
  | nil =>
    cases settled
    simp
  | cons cmd args =>
    simp only [line_round, command_words] at settled
    split_ifs at settled
    · cases settled
      simp
    · cases assigned : assignmentOf cmd with
      | none =>
        rw [assigned] at settled
        cases settled
        simp
      | some call =>
        rw [assigned] at settled
        simp only [Option.ite_none_right_eq_some, Option.some.injEq] at settled
        simp [← settled.2]
    · cases known : check_builtin cmd with
      | none =>
        rw [known] at settled
        cases settled
        simp
      | some builtin_fn =>
        rw [known] at settled
        obtain ⟨effect, -, rfl⟩ := Option.map_eq_some_iff.mp settled
        simp

/-- The settled words are those that have a round. -/
theorem line_round_isSome_iff (k : Kernel W) (v : View W) (ws : List (List Byte)) :
    (line_round k v ws).isSome ↔ Settled k v ws := by
  cases ws with
  | nil => simp [line_round, Settled]
  | cons cmd args =>
    simp only [line_round, command_words, Settled]
    split_ifs
    · simp
    · cases assignmentOf cmd with
      | none => simp
      | some call =>
        obtain ⟨name, val⟩ := call
        by_cases fits : Fits (get_var v.vars) val <;> simp [fits]
    · cases check_builtin cmd with
      | none => simp
      | some builtin_fn =>
        cases builtin_fn with
        | bn_echo =>
          by_cases short : (committed (get_var v.vars) args).length ≤ 127 <;> simp [builtin_words, short]
        | bn_ls =>
          rw [← ls_words_eq_none_iff k v.world args]
          simp [builtin_words, Option.isSome_iff_ne_none]
        | pwd => simp [builtin_words]
        | word_count => by_cases counts : Countable k v.world args.head? <;> simp [builtin_words, counts]
        | _ => simp [builtin_words]

/-! ### The main loop on settled words -/

theorem exit_iff {cmd : List Byte} (noNul : 0 ∉ cmd) :
    (cmd.take 4 = lit "exit" ∧ cmd.getD 4 0 = 0) ↔ cmd = lit "exit" := by
  constructor
  · rintro ⟨front, behind⟩
    have split := List.take_append_drop 4 cmd
    rw [front] at split
    cases tail : cmd.drop 4 with
    | nil => rw [← split, tail, List.append_nil]
    | cons b rest =>
      have member : b ∈ cmd := List.mem_of_mem_drop (i := 4) (by rw [tail]; simp)
      rw [← split, tail] at behind
      have nul : b = 0 := by simpa [lit] using behind
      exact absurd (nul ▸ member) noNul
  · rintro rfl
    decide

private theorem visible_defVarEvents (call : DefVar) : visible (defVarEvents call) = [] := by
  simp [defVarEvents]

/-- The stores of an assignment lie in their arrays exactly when the call stays in its buffers. -/
theorem defVarEvents_inBounds (call : DefVar) : (∀ e ∈ defVarEvents call, e.InBounds) ↔ call.InBounds := by
  rw [defVarEvents, List.forall_mem_append, List.forall_mem_map, List.forall_mem_map]
  exact Iff.rfl

/-- `strtok(NULL, "")` finds nothing at the end of a string, else the rest of it. -/
private theorem strtok_rest (front val post : List Byte) (noNul : 0 ∉ val) :
    strtok_r [] (front ++ val ++ 0 :: post) front.length =
      ⟨front ++ val ++ 0 :: post, if val = [] then none else some front.length, (front ++ val).length⟩ := by
  by_cases empty : val = []
  · simpa [empty] using strtok_r_end front post []
  · have := @strtok_r_last [] [] val front post (by simpa using noNul) (by simp) empty (by simp [among])
    simpa [empty] using this

section
variable {lead name val : List Byte} (delims : ∀ b ∈ lead, among (lit "=") b = true)
include delims

private theorem assignmentOf_delims : assignmentOf lead = none := by
  obtain ⟨-, rest⟩ := takeWhile_delims delims [] (by simp)
  rw [List.append_nil] at rest
  simp [assignmentOf, rest]

variable (nonempty : name ≠ []) (plain : ∀ b ∈ name, among (lit "=") b = false)
include nonempty plain

private theorem dropWhile_sign (more : List Byte) : (lead ++ (name ++ more)).dropWhile (among (lit "=")) = name ++ more := by
  obtain ⟨b, rest, rfl⟩ := List.exists_cons_of_ne_nil nonempty
  exact (takeWhile_delims delims _ (by simpa using plain b (by simp))).2

private theorem assignmentOf_name : assignmentOf (lead ++ name) = none := by
  have rest := dropWhile_sign delims nonempty plain []
  obtain ⟨-, tail⟩ := takeWhile_plain plain [] (by simp)
  rw [List.append_nil] at rest tail
  rw [assignmentOf, rest, tail]
  rfl

theorem assignmentOf_text {d : Byte} (sign : among (lit "=") d = true) :
    assignmentOf (lead ++ name ++ d :: val) = if val = [] then none else some (CStr.of name, CStr.of val) := by
  have rest := dropWhile_sign delims nonempty plain (d :: val)
  obtain ⟨taken, tail⟩ := takeWhile_plain plain (d :: val) (by simpa using sign)
  rw [← List.append_assoc] at rest
  rw [assignmentOf, rest, taken, tail]
  rfl

end

/-- The two calls of `strtok` find the name and the text of an assignment. -/
private theorem strtok_assignment {cmd : List Byte} (noNul : 0 ∉ cmd) (pre post : List Byte) :
    let name := strtok_r (lit "=") (pre ++ cmd ++ 0 :: post) pre.length
    let val := strtok_r [] name.mem name.save
    match assignmentOf cmd with
    | none => name.token = none ∨ val.token = none
    | some (n, v) => ∃ a b, name.token = some a ∧ val.token = some b ∧ CStr.of (cstr val.mem a) = n ∧
        CStr.of (cstr val.mem b) = v := by
  have split := split_fields (among (lit "=")) cmd
  generalize fields (among (lit "=")) cmd = fs at split
  cases split with
  | none delims =>
    rw [assignmentOf_delims delims, strtok_r_none pre post noNul delims]
    exact .inl rfl
  | @last lead name delims nonempty plain =>
    have ended := strtok_rest (pre ++ (lead ++ name)) [] post (by simp)
    rw [List.append_nil, show (pre ++ (lead ++ name)).length = pre.length + lead.length + name.length by
      simp [Nat.add_assoc]] at ended
    rw [assignmentOf_name delims nonempty plain, strtok_r_last pre post noNul delims nonempty plain]
    exact .inr (by rw [ended]; rfl)
  | @more lead name d val fs delims nonempty plain ends _ =>
    have noNulVal : 0 ∉ val := fun member => noNul (by simp [member])
    have noNulName : 0 ∉ name := fun member => noNul (by simp [member])
    have after := strtok_rest (pre ++ lead ++ name ++ [0]) val post noNulVal
    have atName := cstr_append noNulName (pre ++ lead) (val ++ 0 :: post)
    have atVal := cstr_append noNulVal (pre ++ lead ++ name ++ [0]) post
    rw [assignmentOf_text delims nonempty plain ends, strtok_r_more pre post noNul delims nonempty plain ends]
    dsimp only
    rw [after]
    by_cases empty : val = []
    · simp [empty]
    · simp only [empty, ↓reduceIte]
      refine ⟨_, _, rfl, rfl, congrArg CStr.of ?_, congrArg CStr.of atVal⟩
      simpa using atName

/-- An assignment has a name without `=`, and the text behind the next `=`. -/
theorem assignmentOf_eq_some {cmd : List Byte} (noNul : 0 ∉ cmd) {name val : CStr}
    (assigns : assignmentOf cmd = some (name, val)) :
    ∃ lead, (∀ b ∈ lead, b = chr '=') ∧ cmd = lead ++ name.1 ++ chr '=' :: val.1 ∧ name.1 ≠ [] ∧ chr '=' ∉ name.1 ∧
      val.1 ≠ [] := by
  have sign : ∀ {b : Byte}, among (lit "=") b = true → b = chr '=' := by
    intro b delim
    simpa [among, lit] using delim
  have split := split_fields (among (lit "=")) cmd
  generalize fields (among (lit "=")) cmd = fs at split
  cases split with
  | none delims => simp [assignmentOf_delims delims] at assigns
  | last delims nonempty plain => simp [assignmentOf_name delims nonempty plain] at assigns
  | @more lead n d v fs delims nonempty plain ends _ =>
    rw [assignmentOf_text delims nonempty plain ends, Option.ite_none_left_eq_some, Option.some.injEq,
      Prod.mk.injEq] at assigns
    obtain ⟨filled, isName, isVal⟩ := assigns
    rw [CStr.of_noNul (fun member => noNul (by simp [member]))] at isName isVal
    subst isName isVal
    have isSign := sign ends
    refine ⟨lead, fun b member => sign (delims b member), by simp [isSign], nonempty, fun member => ?_, filled⟩
    have := plain _ member
    simp [among, lit] at this

/-- The main loop cuts an assignment at its first `=`, the one behind its name. -/
theorem assignment_words {s : Shell W} {pre cmd post : List Byte} (placed : s.input_buf = pre ++ cmd ++ 0 :: post)
    (noNul : 0 ∉ cmd) :
    ∃ mem, assignment s pre.length =
      match assignmentOf cmd with
      | none => ([], { s with input_buf := mem })
      | some (name, val) =>
        (defVarEvents (def_var s.vars name val), { s with input_buf := mem, vars := (def_var s.vars name val).vars }) := by
  have found := strtok_assignment noNul pre post
  unfold assignment
  rw [placed]
  dsimp only at found ⊢
  generalize strtok_r (lit "=") (pre ++ cmd ++ 0 :: post) pre.length = name at found
  generalize strtok_r [] name.mem name.save = val at found
  refine ⟨val.mem, ?_⟩
  cases split : assignmentOf cmd with
  | none =>
    rw [split] at found
    rcases found with missing | missing <;> simp [missing]
  | some call =>
    rw [split] at found
    obtain ⟨a, b, atName, atVal, isName, isVal⟩ := found
    simp [atName, atVal, isName, isVal]

section
variable {k : Kernel W} {stack : Residue} {s : Shell W} {region post : List Byte} {first : Nat} {ptrs : List Nat}
  {tokens : List (Option Nat)} {cmd : List Byte} {args : List (List Byte)}

/-- The tokens of a line lie in `input_buf`, and their addresses in `token_arr`. -/
structure Tokens (s : Shell W) (region post : List Byte) (first : Nat) (ptrs : List Nat) (tokens : List (Option Nat))
    (cmd : List Byte) (args : List (List Byte)) : Prop where
  mem : s.input_buf = region ++ post
  arr : s.token_arr = tokenArray (first :: ptrs) tokens
  laid : Laid 0 region (first :: ptrs) (cmd :: args)
  nonempty : ∀ w ∈ cmd :: args, w ≠ []
  size : region.length ≤ MAX_STR_LEN + 1

theorem Tokens.texts (t : Tokens s region post first ptrs tokens cmd args) :
    cstr s.input_buf first = cmd ∧ ptrs.map (cstr s.input_buf) = args := by
  have texts := @cstr_laid [] region _ _ t.laid post
  rw [t.mem]
  simpa using texts

/-- The first token is no longer than a line. -/
theorem Tokens.short (t : Tokens s region post first ptrs tokens cmd args) : cmd.length ≤ MAX_STR_LEN := by
  have each := @forall₂_laid [] region _ _ t.laid post
  have size := t.size
  cases each with
  | cons here _ =>
    have ends := here.2.2
    rw [List.nil_append] at ends
    omega

/-- The first token is a string in `input_buf`. -/
theorem Tokens.placed (t : Tokens s region post first ptrs tokens cmd args) :
    ∃ pre tail, s.input_buf = pre ++ cmd ++ 0 :: tail ∧ pre.length = first := by
  cases t.laid with
  | @cons _ lead _ tail region => exact ⟨lead, tail ++ region ++ post, by simp [t.mem], by simp⟩

theorem Tokens.arg_zero (t : Tokens s region post first ptrs tokens cmd args) :
    arg s.input_buf s.token_arr 0 = some cmd := by
  rw [arg, t.arr, tokenArray]
  simp [t.texts.1]

theorem Tokens.arg_one (t : Tokens s region post first ptrs tokens cmd args) :
    arg s.input_buf s.token_arr 1 = args.head? := by
  have texts := t.texts.2
  rw [arg, t.arr, tokenArray, ← texts]
  cases ptrs <;> simp

private theorem shown_all {events : List Event} (seen : ∀ e ∈ events, e.visible = true) :
    visible events = events ∧ ∀ e ∈ events, e.InBounds :=
  ⟨visible_eq_self seen, fun e member => e.inBounds_of_visible (seen e member)⟩

private theorem echo_words (stack : Residue) (t : Tokens s region post first ptrs tokens cmd args)
    (short : (committed (get_var s.vars) args).length ≤ 127) :
    let call := bn_echo s.vars stack s.input_buf s.token_arr
    visible (echoEvents call) = .stdout ((joined (get_var s.vars) args).take 127) :: display_message (lit "\n") ∧
      ∀ e ∈ echoEvents call, e.InBounds := by
  have spec := bn_echo_spec s.vars stack t.laid (fun w member => t.nonempty w (by simp [member])) post tokens
  rw [← t.mem, ← t.arr] at spec
  obtain ⟨bounds, printed, -⟩ := spec
  obtain ⟨copies, terminator⟩ := bounds.mpr short
  have seen : ∀ e ∈ .stdout (bn_echo s.vars stack s.input_buf s.token_arr).printed :: display_message (lit "\n"),
      e.visible = true := by
    simpa [Event.visible] using visible_display_message (lit "\n")
  obtain ⟨kept, inBounds⟩ := shown_all seen
  rw [← printed ⟨copies, terminator⟩]
  refine ⟨by simpa [echoEvents] using kept, ?_⟩
  rw [echoEvents, List.forall_mem_append, List.forall_mem_map, List.forall_mem_cons]
  refine ⟨fun range member => ?_, terminator, inBounds⟩
  obtain ⟨low, length, high⟩ := copies range member
  simp only [MAX_STR_LEN] at high
  refine ⟨low, length, ?_⟩
  simp only [Local.size, MAX_STR_LEN]
  omega

private theorem builtin_refines (stack : Residue) (t : Tokens s region post first ptrs tokens cmd args) {builtin_fn : Builtin}
    {effect : Effect W} (settled : builtin_words k (view s) cmd args builtin_fn = some effect) :
    let done := call_builtin k stack s builtin_fn
    done.1.ret = effect.ret ∧ done.1.world = effect.world ∧ visible done.1.events = effect.events ∧
      (∀ e ∈ done.1.events, e.InBounds) ∧ (effect.ret = -1 → done.2 = s.input_buf) := by
  simp only [call_builtin, t.arg_zero, t.arg_one, Option.getD_some]
  cases builtin_fn with
  | bn_echo =>
    simp only [builtin_words, Option.ite_none_right_eq_some, Option.some.injEq] at settled
    obtain ⟨short, rfl⟩ := settled
    obtain ⟨seen, inBounds⟩ := echo_words stack t short
    exact ⟨rfl, rfl, seen, inBounds, by simp⟩
  | word_count =>
    simp only [builtin_words, Option.ite_none_right_eq_some, Option.some.injEq] at settled
    obtain ⟨-, rfl⟩ := settled
    obtain ⟨seen, inBounds⟩ := shown_all (word_count_visible k s.world cmd args.head?)
    exact ⟨rfl, rfl, seen, inBounds, fun _ => rfl⟩
  | cat =>
    cases settled
    obtain ⟨seen, inBounds⟩ := shown_all (cat_visible k s.world cmd args.head?)
    exact ⟨rfl, rfl, seen, inBounds, fun _ => rfl⟩
  | cd =>
    cases settled
    obtain ⟨seen, inBounds⟩ := shown_all (cd_visible k s.world cmd args.head?)
    exact ⟨rfl, rfl, seen, inBounds, fun _ => rfl⟩
  | pwd =>
    obtain ⟨path, told, isEffect⟩ := Option.map_eq_some_iff.mp settled
    obtain ⟨seen, inBounds⟩ := shown_all (pwd_visible k s.world stack)
    have told' : k.getcwd s.world 128 = some path := told
    subst isEffect
    simp only [pwd, told'] at seen inBounds ⊢
    exact ⟨trivial, rfl, seen, inBounds, by simp⟩
  | bn_ls =>
    have placed := tokens_laid t.laid (t.nonempty cmd (by simp)) t.size post
    rw [← t.mem] at placed
    have spec := bn_ls_words k s.world first placed (tokens.drop ((first :: ptrs).length + 1)) settled
    rw [t.arr, tokenArray]
    obtain ⟨ret, world, seen, inBounds⟩ := spec
    exact ⟨ret, world, seen, inBounds, fun _ => rfl⟩

/-- The main loop does what the words of a settled command say. -/
private theorem command_refines (stack : Residue) (t : Tokens s region post first ptrs tokens cmd args) {round : Round (View W)}
    (settled : command_words k (view s) cmd args = some round) :
    let done := command k stack s first
    visible done.1 = round.events ∧ map view (outcome done.1 done.2) = round.outcome := by
  obtain ⟨text, -⟩ := t.texts
  have noNul : 0 ∉ cmd := laid_noNul t.laid cmd (by simp)
  unfold command_words at settled
  simp only [command, text, exit_iff noNul]
  split_ifs at settled ⊢ with leaves assigns
  · cases settled
    simp [outcome, map]
  · obtain ⟨pre, tail, placed, rfl⟩ := t.placed
    obtain ⟨mem, assigned⟩ := assignment_words placed noNul
    rw [assigned]
    cases found : assignmentOf cmd with
    | none =>
      rw [found] at settled
      cases settled
      simp [outcome, map, view]
    | some call =>
      obtain ⟨name, val⟩ := call
      rw [found] at settled
      simp only [Option.ite_none_right_eq_some, Option.some.injEq] at settled
      obtain ⟨fits, rfl⟩ := settled
      have inBounds := (defVarEvents_inBounds _).mpr ((def_var_inBounds_iff s.vars name val).mpr fits)
      dsimp only
      rw [outcome_next inBounds]
      exact ⟨visible_defVarEvents _, rfl⟩
  · cases known : check_builtin cmd with
    | none =>
      rw [known] at settled
      cases settled
      obtain ⟨seen, inBounds⟩ := shown_all (visible_display_error (lit "ERROR: Unknown command: ") cmd)
      dsimp only
      rw [outcome_next inBounds]
      exact ⟨seen, rfl⟩
    | some builtin_fn =>
      rw [known] at settled
      obtain ⟨effect, ran, rfl⟩ := Option.map_eq_some_iff.mp settled
      obtain ⟨ret, world, seen, inBounds, kept⟩ := builtin_refines stack t ran
      have failed : (if (call_builtin k stack s builtin_fn).1.ret = -1 then
            display_error (lit "ERROR: Builtin failed: ") (cstr (call_builtin k stack s builtin_fn).2 first)
          else []) = if effect.ret = -1 then display_error (lit "ERROR: Builtin failed: ") cmd else [] := by
        rw [ret]
        split
        · next error => rw [kept error, text]
        · rfl
      have reported : ∀ e ∈ if effect.ret = -1 then display_error (lit "ERROR: Builtin failed: ") cmd else [],
          e.visible = true := by
        split
        · exact visible_display_error _ _
        · simp
      obtain ⟨failedSeen, failedInBounds⟩ := shown_all reported
      have allInBounds : ∀ e ∈ (call_builtin k stack s builtin_fn).1.events ++
          (if effect.ret = -1 then display_error (lit "ERROR: Builtin failed: ") cmd else []), e.InBounds := by
        rw [List.forall_mem_append]
        exact ⟨inBounds, failedInBounds⟩
      dsimp only
      rw [failed, outcome_next allInBounds, visible_append, seen, failedSeen]
      simp [map, view, world]

end

section
variable {k : Kernel W} {stack : Residue} {s : Shell W}

/-- The state once the line in `input_buf` is tokenized. -/
def tokenized (s : Shell W) : Shell W where
  input_buf := (tokenize_input s.input_buf s.token_arr).mem
  token_arr := (tokenize_input s.input_buf s.token_arr).tokens
  vars := s.vars
  world := s.world

@[simp] theorem tokenized_vars (s : Shell W) : (tokenized s).vars = s.vars := rfl

/-- Behind `get_input` the tokenizer finds the tokens of the text in `input_buf`, as many as it has words. -/
theorem tokenized_words {text post : List Byte} (filled : s.input_buf = text ++ 0 :: post) (noNul : 0 ∉ text)
    (short : text.length ≤ MAX_STR_LEN) (room : s.token_arr.length = MAX_STR_LEN) :
    (tokenize_input s.input_buf s.token_arr).token_count = (words text).length ∧
      ∀ cmd args, words text = cmd :: args →
        ∃ region first ptrs, Tokens (tokenized s) region post first ptrs s.token_arr cmd args := by
  have few := length_words_le short
  obtain ⟨region, ptrs, save, ran, size, laid⟩ := tokenize_input_spec noNul post s.token_arr
    (by rw [room, MAX_STR_LEN]; omega)
  have nonempty : ∀ w ∈ words text, w ≠ [] := fun w member => fields_ne_nil member
  rw [filled, ran]
  refine ⟨rfl, fun cmd args isWords => ?_⟩
  rw [isWords] at laid nonempty
  have count := length_laid laid
  obtain ⟨first, ptrs, rfl⟩ := List.exists_cons_of_length_pos (by rw [count]; simp : 0 < ptrs.length)
  refine ⟨region, first, ptrs, ⟨?_, ?_, laid, nonempty, ?_⟩⟩
  · rw [tokenized, filled, ran]
  · rw [tokenized, filled, ran]
  · rw [size]
    omega

/-- The main loop runs the command of the first token, if there is one. -/
theorem main_body_tokens (k : Kernel W) (stack : Residue) {text post : List Byte} {ret : Int}
    (filled : s.input_buf = text ++ 0 :: post) (noNul : 0 ∉ text) (short : text.length ≤ MAX_STR_LEN)
    (room : s.token_arr.length = MAX_STR_LEN) (notEof : ret ≠ 0) (notError : ret ≠ -1) :
    match words text with
    | [] => main_body k stack ret s = ([], some (tokenized s))
    | cmd :: args => ∃ region first ptrs, Tokens (tokenized s) region post first ptrs s.token_arr cmd args ∧
        main_body k stack ret s = command k stack (tokenized s) first := by
  obtain ⟨count, found⟩ := tokenized_words filled noNul short room
  unfold main_body
  simp only [notEof, ↓reduceIte, notError, count]
  cases isWords : words text with
  | nil => rfl
  | cons cmd args =>
    obtain ⟨region, first, ptrs, tokens⟩ := found cmd args isWords
    have slots : (tokenize_input s.input_buf s.token_arr).tokens = tokenArray (first :: ptrs) s.token_arr := tokens.arr
    refine ⟨region, first, ptrs, tokens, ?_⟩
    simp only [List.length_cons, Nat.add_one_ne_zero, ↓reduceIte, slots, tokenArray, List.map_cons, List.cons_append]
    rw [tokenized, slots, tokenArray]
    rfl

/-- The text of a line in `input_buf` ends at its first NUL, or where `get_input` puts one. -/
theorem fill_text (input_buf line : List Byte) :
    ∃ post, fill input_buf line = (CStr.of line).1 ++ 0 :: post ∧ (CStr.of line).1.length ≤ line.length := by
  have text : (CStr.of line).1 = line.takeWhile (fun b => decide (b ≠ 0)) := rfl
  have split := List.takeWhile_append_dropWhile (p := fun b : Byte => decide (b ≠ 0)) (l := line)
  have short := (List.takeWhile_sublist (fun b : Byte => decide (b ≠ 0)) (l := line)).length_le
  have last := List.head?_dropWhile_not (fun b : Byte => decide (b ≠ 0)) line
  rw [text]
  generalize line.takeWhile (fun b => decide (b ≠ 0)) = front at split short
  cases rest : line.dropWhile (fun b => decide (b ≠ 0)) with
  | nil =>
    rw [rest, List.append_nil] at split
    exact ⟨input_buf.drop (line.length + 1), by rw [fill, split], short⟩
  | cons b more =>
    rw [rest] at split last
    have nul : b = 0 := by simpa using last
    exact ⟨more ++ 0 :: input_buf.drop (line.length + 1), by simp [fill, ← split, nul], short⟩

/-- A round on a line runs the command of its first token, if there is one. -/
theorem step_tokens (k : Kernel W) (stack : Residue) {line : List Byte} (sized : s.Sized) (short : line.length ≤ MAX_STR_LEN)
    (input : line ≠ []) :
    let s' := tokenized { s with input_buf := fill s.input_buf line }
    match words (CStr.of line) with
    | [] => step k stack line s = ⟨display_message prompt, .next s'⟩
    | cmd :: args => ∃ region post first ptrs, Tokens s' region post first ptrs s.token_arr cmd args ∧
        step k stack line s = ⟨display_message prompt ++ (command k stack s' first).1,
          outcome (command k stack s' first).1 (command k stack s' first).2⟩ := by
  intro s'
  have positive := List.length_pos_of_ne_nil input
  obtain ⟨post, filled, bound⟩ := fill_text s.input_buf line
  have body := @main_body_tokens _ { s with input_buf := fill s.input_buf line } k stack _ _ (line.length : Int) filled
    (CStr.of line).2 (bound.trans short) sized.2 (by omega) (by omega)
  cases isWords : words (CStr.of line) with
  | nil =>
    rw [isWords] at body
    simp only [step, body, outcome_next (List.forall_mem_nil _), List.append_nil]
    rfl
  | cons cmd args =>
    rw [isWords] at body
    obtain ⟨region, first, ptrs, tokens, body⟩ := body
    refine ⟨region, post, first, ptrs, tokens, ?_⟩
    simp only [step, body]
    rfl

/-- At the end of the input the shell ends its line and exits. -/
theorem step_eof : step k stack [] s = ⟨display_message prompt ++ display_message (lit "\n"), .exit⟩ := by
  have inBounds : ∀ e ∈ display_message (lit "\n"), e.InBounds := by simp [display_message, Event.InBounds]
  have body : main_body k stack (([] : List Byte).length : Int) { s with input_buf := fill s.input_buf [] } =
      (display_message (lit "\n"), none) := by
    simp [main_body]
  simp only [step, body, outcome, if_pos inBounds]

/-- On a line whose words are settled a round of the main loop is the round of the words: it prints the
    same, it stays in its arrays, and it goes on from the same view, whatever `input_buf`, `token_arr` and
    the stack held before. -/
theorem step_words (stack : Residue) {line : List Byte} (sized : s.Sized) (short : line.length ≤ MAX_STR_LEN) (input : line ≠ [])
    {round : Round (View W)} (settled : line_round k (view s) (words (CStr.of line)) = some round) :
    observe (step k stack line s) = ⟨display_message prompt ++ round.events, round.outcome⟩ := by
  have ran := step_tokens k stack sized short input
  have shownPrompt := visible_eq_self (visible_display_message prompt)
  rw [observe]
  cases isWords : words (CStr.of line) with
  | nil =>
    rw [isWords] at ran settled
    cases settled
    rw [ran, shownPrompt, List.append_nil]
    rfl
  | cons cmd args =>
    rw [isWords] at ran settled
    obtain ⟨region, post, first, ptrs, tokens, ran⟩ := ran
    obtain ⟨events, outcome⟩ := command_refines stack tokens settled
    rw [ran, visible_append, shownPrompt, events, outcome]

end

end BashInC.Commands
