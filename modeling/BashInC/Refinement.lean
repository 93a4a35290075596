import BashInC.Descriptors
import BashInC.Clib.Runs

/-!
The shell as a whole, from its standard input to what it shows: `spec_round` is a
round on the bindings, the system and the input alone, and leaves open what depends
on more. The process refines it over runs of any length (`main_loop_refines`), on
input that comes in any pieces, with failing reads and lines that are too long. So
two shells with the same bindings cannot be told apart (`main_loop_same_bindings`),
and two assignments that do not refer to each other can be exchanged
(`main_loop_exchange`).
-/
namespace BashInC.Refinement
open Clib.Strings Clib.Streams Clib.Runs BashInC.IoHelpers BashInC.Expansion BashInC.Variables
open BashInC.Echo BashInC.System BashInC.Listing BashInC.Mysh BashInC.Commands BashInC.Sessions BashInC.Input
open BashInC.Descriptors
variable {W : Type*}

/-! ### The two machines -/

/-- What a user can see of a round: what it prints, and whether the shell goes on. -/
abbrev Shown := List Event × Outcome Unit

/-- The state that a round goes on from. -/
def state {σ : Type*} : Outcome σ → Option σ
  | .next s => some s
  | _ => none

def shown {σ : Type*} (round : Round σ) : Shown × Option σ :=
  ((visible round.events, map (fun _ => ()) round.outcome), state round.outcome)

/-- The bindings, the system and the input. -/
structure Session (W : Type*) where
  view : View W
  stdin : Stdin

/-- The session that a process is in. -/
def session (m : Main W) : Session W := ⟨view m.shell, m.stdin⟩

/-- A round of the session: one read is one command, an error or the end. -/
def spec_round (k : Kernel W) (bufsiz : Nat) (t : Session W) : Option (Round (Session W)) :=
  match read (MAX_STR_LEN + 1) t.stdin.deliveries with
  | (none, deliveries) => some ⟨display_message prompt, .next { t with stdin := { t.stdin with deliveries := deliveries } }⟩
  | (some bytes, deliveries) =>
    let stdin := { t.stdin with deliveries := deliveries }
    if bytes.length > MAX_STR_LEN then
      some ⟨display_message prompt ++ [.stderr tooLong],
        .next { t with stdin := skipThrough (chr '\n') bufsiz (stdin.size + 1) stdin }⟩
    else if bytes = [] then some ⟨display_message prompt ++ display_message (lit "\n"), .exit⟩
    else (line_round k t.view (words (CStr.of bytes))).map fun round =>
      ⟨display_message prompt ++ round.events, map (Session.mk · stdin) round.outcome⟩

def process (k : Kernel W) (bufsiz : Nat) : Machine Residue (Main W) Shown :=
  fun stack m => some (shown (main_round k bufsiz stack m))

def specified (k : Kernel W) (bufsiz : Nat) : Machine Unit (Session W) Shown :=
  fun _ t => (spec_round k bufsiz t).map shown

/-- The run of the process is its main loop. -/
theorem trace_process (k : Kernel W) (bufsiz : Nat) (residues : List Residue) (m : Main W) :
    trace (process k bufsiz) m residues = some ((main_loop k bufsiz residues m).map fun round => (shown round).1) := by
  induction residues generalizing m with
  | nil => rfl
  | cons stack residues ih =>
    rw [trace, process, main_loop]
    cases next : (main_round k bufsiz stack m).outcome with
    | next m' => simp [shown, state, next, ih]
    | exit => simp [shown, state, next]
    | undefined => simp [shown, state, next]

/-! ### One round -/

private theorem visible_prompt (events : List Event) : visible (display_message prompt ++ events) =
    display_message prompt ++ visible events := by
  rw [visible_append, visible_eq_self (visible_display_message prompt)]

theorem map_map {σ τ υ : Type*} (f : σ → τ) (g : τ → υ) (o : Outcome σ) : map g (map f o) = map (g ∘ f) o := by
  cases o <;> rfl

private theorem state_map {σ τ : Type*} (f : σ → τ) (o : Outcome σ) : state (map f o) = (state o).map f := by
  cases o <;> rfl

private theorem visible_visible (events : List Event) : visible (visible events) = visible events := by
  simp [visible]

/-- What the observed round shows, the round shows, and it goes on to a state with that view. -/
private theorem shown_of_observe {round : Round (Shell W)} {round' : Round (View W)}
    (same : observe round = ⟨round'.events, round'.outcome⟩) :
    visible round.events = round'.events ∧ map (fun _ => ()) round.outcome = map (fun _ => ()) round'.outcome ∧
      (state round.outcome).map view = state round'.outcome := by
  have events := congrArg Round.events same
  have outcome := congrArg Round.outcome same
  dsimp only [observe] at events outcome
  refine ⟨events, ?_, ?_⟩
  · rw [← outcome, map_map]
  · rw [← outcome, state_map]

/-- A round of the process is the round of its session, where that is not left open. -/
theorem main_round_spec {k : Kernel W} {bufsiz : Nat} (stack : Residue) {m : Main W} (sized : m.shell.Sized)
    {round : Round (Session W)} (spec : spec_round k bufsiz (session m) = some round) :
    (shown (main_round k bufsiz stack m)).1 = (shown round).1 ∧
      (state (main_round k bufsiz stack m).outcome).map session = state round.outcome := by
  have prompted := visible_eq_self (visible_display_message prompt)
  have stdin : (session m).stdin = m.stdin := rfl
  rcases got : read (MAX_STR_LEN + 1) m.stdin.deliveries with ⟨bytes, later⟩
  rw [spec_round, stdin, got] at spec
  have refused := @main_round_refused_eq _ k bufsiz stack m sized
  rw [got] at refused
  cases bytes with
  | none =>
    obtain ⟨in_ptr, -, ran⟩ := refused (by simp)
    cases spec
    rw [ran]
    simp [shown, state, map, session, view, left, get_input, got]
  | some bytes =>
    dsimp only at spec
    split_ifs at spec with long ended
    · obtain ⟨in_ptr, -, ran⟩ := refused (by rintro _ ⟨⟩; exact long)
      cases spec
      rw [ran]
      simp [shown, state, map, session, view, left, get_input, got, long]
    · subst ended
      cases spec
      rw [main_round_command sized got (by simp), step_eof]
      simp [shown, state, map]
    · obtain ⟨words', settled, rfl⟩ := Option.map_eq_some_iff.mp spec
      have short : bytes.length ≤ MAX_STR_LEN := by omega
      have stepped := step_words stack sized short ended settled
      obtain ⟨events, outcome, next⟩ := @shown_of_observe _ _ ⟨display_message prompt ++ words'.events, words'.outcome⟩ stepped
      rw [main_round_command sized got short]
      dsimp only at events outcome next
      have seen : visible words'.events = words'.events := by
        have again := congrArg visible events
        rw [visible_visible, events, visible_prompt] at again
        exact (List.append_cancel_left again).symm
      constructor
      · simp only [shown, events, map_map, visible_prompt, seen]
        exact congrArg _ outcome
      · simp only [state_map, ← next, Option.map_map]
        rfl

/-! ### Runs -/

/-- A process that is in a session. -/
def InSession (m : Main W) (t : Session W) : Prop := m.shell.Sized ∧ session m = t

theorem process_refines (k : Kernel W) (bufsiz : Nat) :
    Refines (process k bufsiz) (specified k bufsiz) (fun _ => ()) InSession where
  step := by
    rintro stack m t e t' ⟨sized, rfl⟩ spec
    obtain ⟨round, isRound, isShown⟩ := Option.map_eq_some_iff.mp spec
    obtain ⟨same, next⟩ := main_round_spec stack sized isRound
    obtain ⟨rfl, rfl⟩ := Prod.mk.inj isShown
    refine ⟨state (main_round k bufsiz stack m).outcome, congrArg (fun e => some (e, _)) same, ?_⟩
    rw [← next]
    cases outcome : (main_round k bufsiz stack m).outcome with
    | next m' => exact .some ⟨sized_main_round sized outcome, rfl⟩
    | exit => exact .none
    | undefined => exact .none

/-- What a session shows in at most `n` rounds; `none` when it comes to a line that is not settled. -/
def meaning (k : Kernel W) (bufsiz n : Nat) (t : Session W) : Option (List Shown) :=
  trace (specified k bufsiz) t (List.replicate n ())

/-- What the process shows. -/
def display (k : Kernel W) (bufsiz : Nat) (residues : List Residue) (m : Main W) : List Shown :=
  (main_loop k bufsiz residues m).map fun round => (shown round).1

theorem display_meaning {k : Kernel W} {bufsiz : Nat} {m : Main W} (sized : m.shell.Sized) {residues : List Residue}
    {es : List Shown} (settled : meaning k bufsiz residues.length (session m) = some es) :
    display k bufsiz residues m = es := by
  have units : residues.map (fun _ => ()) = List.replicate residues.length () := List.map_const' ..
  rw [meaning, ← units] at settled
  have ran := (process_refines k bufsiz).trace ⟨sized, rfl⟩ settled
  rw [trace_process] at ran
  exact Option.some.inj ran

private theorem spec_round_defined {k : Kernel W} {bufsiz : Nat} {t : Session W} {round : Round (Session W)}
    (spec : spec_round k bufsiz t = some round) : round.outcome ≠ .undefined := by
  unfold spec_round at spec
  split at spec
  · cases spec
    simp
  · dsimp only at spec
    split_ifs at spec
    · cases spec
      simp
    · cases spec
      simp
    · obtain ⟨ran, settled, rfl⟩ := Option.map_eq_some_iff.mp spec
      have defined := line_round_defined settled
      cases outcome : ran.outcome <;> simp_all [map]

/-- The shell refines its session: on any input, in any pieces and with any failures of reading, as long as
    the lines it comes to are settled, it shows round by round what the bindings, the system and the input
    say, and does nothing undefined. -/
theorem main_loop_refines (k : Kernel W) (bufsiz : Nat) (stack : Residue) (w : W) (stdin : Stdin) {residues : List Residue}
    {es : List Shown} (settled : meaning k bufsiz residues.length ⟨⟨[], w⟩, stdin⟩ = some es) :
    display k bufsiz residues ⟨start stack w, stdin⟩ = es ∧ ∀ e ∈ es, e.2 ≠ .undefined := by
  have sized := reachable_sized (Reachable.start (k := k) stack w)
  refine ⟨display_meaning (m := ⟨start stack w, stdin⟩) sized settled, trace_forall ?_ settled⟩
  intro _ t e t' stepped
  obtain ⟨round, spec, isShown⟩ := Option.map_eq_some_iff.mp stepped
  obtain ⟨rfl, -⟩ := Prod.mk.inj isShown
  have defined := spec_round_defined spec
  cases outcome : round.outcome <;> simp_all [map]

/-! ### The same bindings -/

/-- What the variables are bound to, whatever order they are in, and the system. -/
def bindings (v : View W) : Env × W := (get_var v.vars, v.world)

private theorem line_round_bindings (k : Kernel W) {v v' : View W} (same : bindings v = bindings v') (ws : List (List Byte)) :
    (line_round k v ws).map (fun round => (round.events, map bindings round.outcome)) =
      (line_round k v' ws).map (fun round => (round.events, map bindings round.outcome)) := by
  obtain ⟨vars, world⟩ := Prod.mk.inj same
  cases ws with
  | nil => simp [line_round, map, same]
  | cons cmd args =>
    simp only [line_round, command_words]
    split_ifs with exits assigns
    · rfl
    · cases assignmentOf cmd with
      | none => simp [map, same]
      | some call =>
        obtain ⟨name, val⟩ := call
        dsimp only
        rw [vars]
        split_ifs with fits
        · have assigned : get_var (def_var v.vars name val).vars = get_var (def_var v'.vars name val).vars := by
            funext key
            rw [get_var_def_var name (vars ▸ fits), get_var_def_var name fits, vars]
          simp [map, bindings, assigned, world]
        · rfl
    · cases check_builtin cmd with
      | none => simp [map, same]
      | some builtin_fn =>
        have effects : builtin_words k v cmd args builtin_fn = builtin_words k v' cmd args builtin_fn := by
          cases builtin_fn <;> simp only [builtin_words, vars, world]
        simp [effects, Function.comp_def, map, bindings, vars]

/-- Sessions with the same bindings, the same system and the same input. -/
def Alike (t t' : Session W) : Prop := bindings t.view = bindings t'.view ∧ t.stdin = t'.stdin

private theorem spec_round_alike {k : Kernel W} {bufsiz : Nat} {t t' : Session W} (alike : Alike t t')
    {round' : Round (Session W)} (spec : spec_round k bufsiz t' = some round') : ∃ round, spec_round k bufsiz t = some round ∧
      (shown round).1 = (shown round').1 ∧ Option.Rel Alike (state round.outcome) (state round'.outcome) := by
  obtain ⟨same, stdin⟩ := alike
  unfold spec_round at spec ⊢
  rw [stdin]
  generalize read (MAX_STR_LEN + 1) t'.stdin.deliveries = got at spec ⊢
  obtain ⟨bytes, later⟩ := got
  cases bytes with
  | none =>
    cases spec
    exact ⟨_, rfl, rfl, .some ⟨same, rfl⟩⟩
  | some bytes =>
    dsimp only at spec ⊢
    split_ifs at spec ⊢
    · cases spec
      exact ⟨_, rfl, rfl, .some ⟨same, rfl⟩⟩
    · cases spec
      exact ⟨_, rfl, rfl, .none⟩
    · obtain ⟨ran', settled', rfl⟩ := Option.map_eq_some_iff.mp spec
      have rounds := line_round_bindings k same (words (CStr.of bytes))
      rw [settled', Option.map_some] at rounds
      obtain ⟨ran, settled, isSame⟩ := Option.map_eq_some_iff.mp rounds
      obtain ⟨events, outcome⟩ := Prod.mk.inj isSame
      refine ⟨_, Option.map_eq_some_iff.mpr ⟨ran, settled, rfl⟩, ?_, ?_⟩
      · have ends := congrArg (map fun _ => ()) outcome
        rw [map_map, map_map] at ends
        simp only [shown, events, map_map]
        exact congrArg _ ends
      · cases isNext : ran.outcome with
        | next v =>
          rw [isNext] at outcome
          obtain ⟨v', isNext', alike⟩ := map_eq_next_iff.mp outcome.symm
          simp only [isNext', map, state]
          exact .some ⟨alike.symm, rfl⟩
        | exit =>
          rw [isNext] at outcome
          cases isNext' : ran'.outcome <;> simp_all [map, state]
        | undefined =>
          rw [isNext] at outcome
          cases isNext' : ran'.outcome <;> simp_all [map, state]

private theorem specified_alike (k : Kernel W) (bufsiz : Nat) : Refines (specified k bufsiz) (specified k bufsiz) id Alike where
  step := by
    intro _ t t' e next alike stepped
    obtain ⟨round', spec', isShown⟩ := Option.map_eq_some_iff.mp stepped
    obtain ⟨round, spec, same, related⟩ := spec_round_alike alike spec'
    obtain ⟨rfl, rfl⟩ := Prod.mk.inj isShown
    refine ⟨state round.outcome, ?_, related⟩
    rw [specified, spec]
    exact congrArg (fun e => some (e, _)) same

private theorem meaning_alike {k : Kernel W} {bufsiz n : Nat} {t t' : Session W} (alike : Alike t t') {es : List Shown}
    (settled : meaning k bufsiz n t' = some es) : meaning k bufsiz n t = some es := by
  unfold meaning at settled ⊢
  rw [← List.map_id (List.replicate n ())] at settled
  exact (specified_alike k bufsiz).trace alike settled

/-- Two shells that bind the same names to the same values cannot be told apart by any settled session,
    whatever came before, in whatever order their variables are and whatever else lies in their memory. -/
theorem main_loop_same_bindings {k : Kernel W} {bufsiz : Nat} {m m' : Main W} (sized : m.shell.Sized)
    (sized' : m'.shell.Sized) (alike : Alike (session m) (session m')) {residues residues' : List Residue}
    (rounds : residues.length = residues'.length) (settled : (meaning k bufsiz residues.length (session m)).isSome) :
    display k bufsiz residues m = display k bufsiz residues' m' := by
  obtain ⟨es, isMeaning⟩ := Option.isSome_iff_exists.mp settled
  have other : Alike (session m') (session m) := ⟨alike.1.symm, alike.2.symm⟩
  have isMeaning' := meaning_alike other isMeaning
  rw [rounds] at isMeaning'
  rw [display_meaning sized isMeaning, display_meaning sized' isMeaning']

/-! ### Exchanging assignments -/

private theorem fits_congr {m m' : Env} {val : List Byte} (same : ∀ name ∈ references val, m name = m' name) :
    Fits m val ↔ Fits m' val := by
  unfold Fits
  rw [← length_assigned, ← length_assigned, assigned_congr same]

/-- A line that makes an assignment shows the prompt, where the assignment fits. -/
private theorem meaning_assign (k : Kernel W) (bufsiz n : Nat) (v : View W) {text : List Byte}
    (short : text.length ≤ MAX_STR_LEN) {name val : CStr} (assigns : assignmentIn (words (CStr.of text)) = some (name, val))
    (rest : Deliveries) (ahead : List Byte) (eof : Bool) :
    meaning k bufsiz (n + 1) ⟨v, ⟨some text :: rest, ahead, eof⟩⟩ =
      if Fits (get_var v.vars) val then
        (meaning k bufsiz n ⟨{ v with vars := (def_var v.vars name val).vars }, ⟨rest, ahead, eof⟩⟩).map
          ((display_message prompt, .next ()) :: ·)
      else none := by
  have whole := @read_whole (MAX_STR_LEN + 1) _ (Nat.le_succ_of_le short) rest
  have input : text ≠ [] := by
    rintro rfl
    simp [CStr.of, words, assignmentIn] at assigns
  have fits : ¬ text.length > MAX_STR_LEN := by omega
  have round : line_round k v (words (CStr.of text)) =
      if Fits (get_var v.vars) val then some ⟨[], .next { v with vars := (def_var v.vars name val).vars }⟩ else none := by
    cases isWords : words (CStr.of text) with
    | nil => simp [isWords, assignmentIn] at assigns
    | cons cmd args =>
      rw [isWords, assignmentIn, Option.ite_none_right_eq_some] at assigns
      obtain ⟨⟨notExit, sign⟩, assigned⟩ := assigns
      simp only [line_round, command_words, notExit, sign, assigned, ↓reduceIte]
  have stepped : spec_round k bufsiz ⟨v, ⟨some text :: rest, ahead, eof⟩⟩ =
      if Fits (get_var v.vars) val then
        some ⟨display_message prompt, .next ⟨{ v with vars := (def_var v.vars name val).vars }, ⟨rest, ahead, eof⟩⟩⟩
      else none := by
    simp only [spec_round, whole, fits, input, ↓reduceIte, round]
    split_ifs <;> simp [map]
  unfold meaning
  rw [List.replicate_succ, trace, specified, stepped]
  have prompted := visible_eq_self (visible_display_message prompt)
  split_ifs with settled
  · simp [shown, state, map, prompted]
  · rfl

section
variable {nameA valA nameB valB : CStr} (distinct : nameA.1 ≠ nameB.1) (apartA : nameB.1 ∉ references valA)
  (apartB : nameA.1 ∉ references valB)
include distinct apartA apartB

/-- Either order of two calls fits when one does, and then both bind the same. -/
private theorem def_var_exchange {vars : List Variable} (fitsA : Fits (get_var vars) valA)
    (fitsB : Fits (get_var (def_var vars nameA valA).vars) valB) :
    Fits (get_var vars) valB ∧ Fits (get_var (def_var vars nameB valB).vars) valA ∧
      get_var (def_var (def_var vars nameB valB).vars nameA valA).vars =
        get_var (def_var (def_var vars nameA valA).vars nameB valB).vars := by
  have afterA := get_var_def_var nameA fitsA
  have sameB : ∀ name ∈ references valB, get_var (def_var vars nameA valA).vars name = get_var vars name := by
    intro name member
    have other : ¬ name = nameA.1 := by
      rintro rfl
      exact apartB member
    rw [afterA, if_neg other]
  have fitsB' : Fits (get_var vars) valB := (fits_congr sameB).mp fitsB
  have afterB := get_var_def_var nameB fitsB'
  have sameA : ∀ name ∈ references valA, get_var (def_var vars nameB valB).vars name = get_var vars name := by
    intro name member
    have other : ¬ name = nameB.1 := by
      rintro rfl
      exact apartA member
    rw [afterB, if_neg other]
  have fitsA' : Fits (get_var (def_var vars nameB valB).vars) valA := (fits_congr sameA).mpr fitsA
  refine ⟨fitsB', fitsA', ?_⟩
  funext key
  rw [get_var_def_var nameA fitsA', get_var_def_var nameB fitsB, afterA, afterB, assigned_congr sameA, assigned_congr sameB]
  by_cases isA : key = nameA.1
  · simp [isA, distinct]
  · simp [isA]

private theorem meaning_exchange {k : Kernel W} {bufsiz n : Nat} {v : View W} {a b : List Byte}
    (shortA : a.length ≤ MAX_STR_LEN) (shortB : b.length ≤ MAX_STR_LEN)
    (assignsA : assignmentIn (words (CStr.of a)) = some (nameA, valA))
    (assignsB : assignmentIn (words (CStr.of b)) = some (nameB, valB)) {later : Deliveries} {ahead : List Byte}
    {eof : Bool} {es : List Shown} (isMeaning : meaning k bufsiz (n + 1 + 1) ⟨v, ⟨some a :: some b :: later, ahead, eof⟩⟩ = some es) :
    meaning k bufsiz (n + 1 + 1) ⟨v, ⟨some b :: some a :: later, ahead, eof⟩⟩ = some es := by
  rw [meaning_assign k bufsiz (n + 1) _ shortA assignsA] at isMeaning
  simp only [Option.ite_none_right_eq_some, Option.map_eq_some_iff] at isMeaning
  obtain ⟨fitsA, rest, isRest, rfl⟩ := isMeaning
  rw [meaning_assign k bufsiz n _ shortB assignsB] at isRest
  simp only [Option.ite_none_right_eq_some, Option.map_eq_some_iff] at isRest
  obtain ⟨fitsB, rest, isRest, rfl⟩ := isRest
  obtain ⟨fitsB', fitsA', alike⟩ := def_var_exchange distinct apartA apartB fitsA fitsB
  have related : Alike (⟨⟨(def_var (def_var v.vars nameB valB).vars nameA valA).vars, v.world⟩, ⟨later, ahead, eof⟩⟩ : Session W)
      ⟨⟨(def_var (def_var v.vars nameA valA).vars nameB valB).vars, v.world⟩, ⟨later, ahead, eof⟩⟩ := ⟨Prod.ext alike rfl, rfl⟩
  have rest' := meaning_alike related isRest
  rw [meaning_assign k bufsiz (n + 1) _ shortB assignsB, if_pos fitsB', meaning_assign k bufsiz n _ shortA assignsA,
    if_pos fitsA', rest']
  rfl

/-- Two assignments of which neither refers to the name of the other can be exchanged: the session behind
    them shows the same. -/
theorem main_loop_exchange {k : Kernel W} {bufsiz : Nat} {s : Shell W} (sized : s.Sized) {a b : List Byte}
    (shortA : a.length ≤ MAX_STR_LEN) (shortB : b.length ≤ MAX_STR_LEN)
    (assignsA : assignmentIn (words (CStr.of a)) = some (nameA, valA))
    (assignsB : assignmentIn (words (CStr.of b)) = some (nameB, valB)) (later : Deliveries) (ahead : List Byte)
    (eof : Bool) {residues : List Residue} (both : 2 ≤ residues.length)
    (settled : (meaning k bufsiz residues.length ⟨view s, ⟨some a :: some b :: later, ahead, eof⟩⟩).isSome) :
    display k bufsiz residues ⟨s, ⟨some a :: some b :: later, ahead, eof⟩⟩ =
      display k bufsiz residues ⟨s, ⟨some b :: some a :: later, ahead, eof⟩⟩ := by
  obtain ⟨es, isMeaning⟩ := Option.isSome_iff_exists.mp settled
  have first := display_meaning (m := ⟨s, ⟨some a :: some b :: later, ahead, eof⟩⟩) sized isMeaning
  obtain ⟨n, count⟩ : ∃ n, residues.length = n + 1 + 1 := ⟨residues.length - 2, by omega⟩
  rw [count] at isMeaning
  have isMeaning' := meaning_exchange distinct apartA apartB shortA shortB assignsA assignsB isMeaning
  rw [← count] at isMeaning'
  have second := display_meaning (m := ⟨s, ⟨some b :: some a :: later, ahead, eof⟩⟩) sized isMeaning'
  rw [first, second]

end

/-! ### Sessions of this kind -/

/-- Lines that come in pieces, with a read that fails and a line that is too long. -/
def broken : Stdin :=
  ⟨[some (lit "x=a\n"), none, some (lit "echo $x\n"), some (lineOf 199), some (lit "y=$x$x\n"), some (lit "exit\n")], [], false⟩

theorem main_loop_refines_broken : ∃ es, meaning bare 1024 7 ⟨⟨[], ()⟩, broken⟩ = some es ∧
    display bare 1024 (List.replicate 7 zeros) ⟨start zeros (), broken⟩ = es ∧ ∀ e ∈ es, e.2 ≠ .undefined := by
  have settled : (meaning bare 1024 7 ⟨⟨[], ()⟩, broken⟩).isSome = true := by decide +kernel
  obtain ⟨es, isMeaning⟩ := Option.isSome_iff_exists.mp settled
  exact ⟨es, isMeaning, main_loop_refines bare 1024 zeros () broken isMeaning⟩

/-- The variables `x` and `y`, with one letter each. -/
def letters : List Variable := [⟨CStr.of (lit "x"), CStr.of (lit "a")⟩, ⟨CStr.of (lit "y"), CStr.of (lit "b")⟩]

/-- Two shells that have made two assignments in either order. -/
private theorem either_order : ∃ s s' : Shell Unit, Reachable bare s ∧ Reachable bare s' ∧
    s.vars = letters.reverse ∧ s'.vars = letters := by
  obtain ⟨s, ran, reached⟩ := @reachable_session (typed [lit "x=a", lit "y=b"]) (by decide +kernel) (by decide +kernel)
  obtain ⟨s', ran', reached'⟩ := @reachable_session (typed [lit "y=b", lit "x=a"]) (by decide +kernel) (by decide +kernel)
  exact ⟨s, s', reached, reached', of_after (fun s => s.vars = letters.reverse) ran (by decide +kernel),
    of_after (fun s => s.vars = letters) ran' (by decide +kernel)⟩

theorem main_loop_same_bindings_order : ∃ s s' : Shell Unit, s.vars ≠ s'.vars ∧
    display bare 1024 [zeros, zeros] ⟨s, pending [lit "echo $x $y\n"]⟩ =
      display bare 1024 [zeros, zeros] ⟨s', pending [lit "echo $x $y\n"]⟩ := by
  obtain ⟨s, s', reached, reached', vars, vars'⟩ := either_order
  have alike : Alike (session ⟨s, pending [lit "echo $x $y\n"]⟩) (session ⟨s', pending [lit "echo $x $y\n"]⟩) := by
    refine ⟨Prod.ext ?_ rfl, rfl⟩
    funext key
    have different : ¬ (CStr.of (lit "y")).1 = (CStr.of (lit "x")).1 := by decide
    simp only [bindings, session, view, vars, vars', letters, List.reverse_cons, List.reverse_nil, List.nil_append,
      List.cons_append, get_var]
    by_cases isX : (CStr.of (lit "x")).1 = key
    · rw [← isX]
      simp [different]
    · simp [isX]
  have settled : (meaning bare 1024 2 (session ⟨s, pending [lit "echo $x $y\n"]⟩)).isSome = true := by
    simp only [session, view, vars]
    show (meaning bare 1024 2 ⟨⟨letters.reverse, ()⟩, pending [lit "echo $x $y\n"]⟩).isSome = true
    decide +kernel
  refine ⟨s, s', ?_, main_loop_same_bindings (reachable_sized reached) (reachable_sized reached') alike rfl settled⟩
  rw [vars, vars']
  decide

theorem main_loop_exchange_order :
    display bare 1024 (List.replicate 4 zeros)
        ⟨start zeros (), ⟨[some (lit "x=a\n"), some (lit "y=$z\n"), some (lit "echo $x$y\n")], [], false⟩⟩ =
      display bare 1024 (List.replicate 4 zeros)
        ⟨start zeros (), ⟨[some (lit "y=$z\n"), some (lit "x=a\n"), some (lit "echo $x$y\n")], [], false⟩⟩ :=
  @main_loop_exchange _ (CStr.of (lit "x")) (CStr.of (lit "a")) (CStr.of (lit "y")) (CStr.of (lit "$z")) (by decide) (by decide)
    (by decide) bare 1024 _ (reachable_sized (.start (k := bare) zeros ())) (lit "x=a\n") (lit "y=$z\n") (by decide)
    (by decide) (by decide +kernel) (by decide +kernel) [some (lit "echo $x$y\n")] [] false (List.replicate 4 zeros) (by decide)
    (by decide +kernel)

end BashInC.Refinement
