import BashInC.IoHelpers
import BashInC.Variables

/-!
The builtin `echo`: the four ways in which `bn_echo` copies into `final`, three
of them clipped at the end of the array, and its walk over the tokens with
`strtok_r`. As a sequence of copies (`copies`) the call stays in `final` exactly
when everything up to the last separator, lone `$` or text in front of a `$`
fits (`bn_echo_safe_iff`), and then it prints the first 127 bytes of the echoed
words.
-/
namespace BashInC.Echo
open Clib.Fields Clib.Strings Clib.Buffers BashInC.IoHelpers BashInC.Expansion BashInC.Variables

/-- What an uninitialised `char` array of `MAX_STR_LEN` bytes on the stack holds. -/
abbrev Residue := {bytes : List Byte // bytes.length = MAX_STR_LEN}

structure Echoing where
  final : Buffer
  curr_final_index : Int

/-- `if (curr_final_index + len >= MAX_STR_LEN - 1) { len = MAX_STR_LEN - 1 - curr_final_index; }` -/
def clip (curr_final_index len : Int) : Int :=
  if curr_final_index + len ≥ MAX_STR_LEN - 1 then MAX_STR_LEN - 1 - curr_final_index else len

/-- The separator between tokens and the lone `$`: the copy is clipped, the index is not. -/
def Echoing.character (e : Echoing) (c : Byte) : Echoing :=
  ⟨e.final.strncpy e.curr_final_index (clip e.curr_final_index 1) [c], e.curr_final_index + 1⟩

/-- The text in front of the first `$` of a token, which is not clipped. -/
def Echoing.text (e : Echoing) (var_tokens : List Byte) : Echoing :=
  let len := var_tokens.length
  ⟨e.final.strncpy e.curr_final_index len var_tokens, e.curr_final_index + len⟩

/-- The value of a variable, clipped. -/
def Echoing.value (e : Echoing) (val : List Byte) : Echoing :=
  let len := clip e.curr_final_index val.length
  ⟨e.final.strncpy e.curr_final_index len val, e.curr_final_index + len⟩

/-- The body of `while(var_tokens != NULL)`. -/
def Echoing.reference (vars : List Variable) (e : Echoing) (var_tokens : List Byte) : Echoing :=
  match get_var vars var_tokens with
  | some val => e.value val
  | none => e

/-- The body of `while (tokens[index] != NULL)`. -/
def echo_token (vars : List Variable) (first : Bool) (e : Echoing) (mem : List Byte) (token : Nat) : Echoing × List Byte :=
  let str := cstr mem token
  let e := if first then e else e.character (chr ' ')
  let e := if str = [chr '$'] then e.character (chr '$') else e
  let skip := str.head? ≠ some (chr '$')
  let var_tokens := strtok_r (lit "$") mem token
  let (mem, e) :=
    if skip then
      let e := match var_tokens.token with
        | some text => e.text (cstr var_tokens.mem text)
        | none => e
      forTokens (lit "$") (Echoing.reference vars) (mem.length + 1) (strtok_r (lit "$") var_tokens.mem var_tokens.save) e
    else forTokens (lit "$") (Echoing.reference vars) (mem.length + 1) var_tokens e
  (e, mem)

/-- `while (tokens[index] != NULL) { ... index++; }`, on the tokens from `index` on. -/
def echo_loop (vars : List Variable) : Bool → List (Option Nat) → Echoing → List Byte → Echoing × List Byte
  | first, some token :: tokens, e, mem =>
    let (e, mem) := echo_token vars first e mem token
    echo_loop vars false tokens e mem
  | _, _, e, mem => (e, mem)

/-- What a call of `bn_echo` leaves: the ranges copied into `final`, the index of the terminator, the
    memory of the tokens, and what it prints in front of the newline. -/
structure EchoCall where
  copies : List Range
  terminator : Int
  mem : List Byte
  printed : List Byte

def bn_echo (vars : List Variable) (stack : Residue) (mem : List Byte) (tokens : List (Option Nat)) : EchoCall :=
  let (e, mem) := echo_loop vars true (tokens.drop 1) ⟨⟨stack, []⟩, 0⟩ mem
  let final := e.final.set e.curr_final_index 0
  ⟨e.final.writes, e.curr_final_index, mem, strnlenBytes final.data MAX_STR_LEN⟩

/-- Every copy writes only indices up to 126 of `final`, with no negative length, and the terminator is
    written at an index up to 127. -/
def EchoCall.InBounds (call : EchoCall) : Prop :=
  (∀ range ∈ call.copies, InRange (MAX_STR_LEN - 1) range) ∧ InRange MAX_STR_LEN (call.terminator, 1)

instance (call : EchoCall) : Decidable call.InBounds := by
  unfold EchoCall.InBounds; infer_instance

/-! ### Sequences of copies -/

/-- A copy into `final`. -/
inductive Copy
  | character (c : Byte)
  | text (s : List Byte)
  | value (s : List Byte)

def Copy.bytes : Copy → List Byte
  | .character c => [c]
  | .text s | .value s => s

def Echoing.copy (e : Echoing) : Copy → Echoing
  | .character c => e.character c
  | .text s => e.text s
  | .value s => e.value s

/-- The copies for one token. -/
def tokenCopies (m : Env) (w : List Byte) : List Copy :=
  (if w = [chr '$'] then [.character (chr '$')] else if before w = [] then [] else [.text (before w)]) ++
    (runs w).filterMap fun run => (m run).map .value

/-- The copies for all tokens from one on. -/
def copies (m : Env) : Bool → List (List Byte) → List Copy
  | _, [] => []
  | first, w :: ws => (if first then [] else [.character (chr ' ')]) ++ tokenCopies m w ++ copies m false ws

/-- What has been copied, were nothing clipped. -/
def unclipped (cs : List Copy) : List Byte := cs.flatMap Copy.bytes

/-- The echoed words without the values behind the last text, separator or lone `$`. -/
def committed (m : Env) : List (List Byte) → List Byte
  | [] => []
  | [w] => echoed (fun _ => none) w
  | w :: w' :: ws => echoed m w ++ chr ' ' :: committed m (w' :: ws)

theorem length_echoed_unbound_le (m : Env) (w : List Byte) : (echoed (fun _ => none) w).length ≤ (echoed m w).length := by
  unfold echoed
  by_cases lone : w = [chr '$']
  · simp [lone]
  · simp [lone]

/-- What a line commits to is no longer than its expansion. -/
theorem length_committed_le (m : Env) (ws : List (List Byte)) : (committed m ws).length ≤ (joined m ws).length := by
  unfold joined
  induction ws with
  | nil => simp [committed]
  | cons w ws ih =>
    cases ws with
    | nil => simpa [committed] using length_echoed_unbound_le m w
    | cons w' ws =>
      simp only [committed, List.map_cons, List.intercalate_cons_cons, List.length_append, List.length_cons,
        List.length_nil] at ih ⊢
      omega

@[simp] theorem unclipped_nil : unclipped [] = [] := rfl

@[simp] theorem unclipped_cons (c : Copy) (cs : List Copy) : unclipped (c :: cs) = c.bytes ++ unclipped cs := rfl

@[simp] theorem unclipped_append (cs ds : List Copy) : unclipped (cs ++ ds) = unclipped cs ++ unclipped ds :=
  List.flatMap_append

private theorem unclipped_values (m : Env) (names : List (List Byte)) :
    unclipped (names.filterMap fun run => (m run).map .value) = names.flatMap fun run => (m run).getD [] := by
  induction names with
  | nil => rfl
  | cons name names ih =>
    cases found : m name with
    | none => simpa [found] using ih
    | some val => simpa [found, Copy.bytes] using ih

private theorem runs_lone : runs [chr '$'] = [] := by decide

theorem unclipped_tokenCopies (m : Env) (w : List Byte) : unclipped (tokenCopies m w) = echoed m w := by
  unfold tokenCopies echoed
  rw [unclipped_append, unclipped_values]
  by_cases lone : w = [chr '$']
  · simp [lone, runs_lone, Copy.bytes]
  · by_cases empty : before w = [] <;> simp [lone, empty, Copy.bytes]

theorem unclipped_copies (m : Env) (ws : List (List Byte)) : unclipped (copies m true ws) = joined m ws := by
  have later : ∀ ws, unclipped (copies m false ws) = ws.flatMap fun w => chr ' ' :: echoed m w := by
    intro ws
    induction ws with
    | nil => rfl
    | cons w ws ih => simp [copies, unclipped_tokenCopies, ih, Copy.bytes]
  cases ws with
  | nil => rfl
  | cons w ws =>
    rw [copies, joined, unclipped_append, unclipped_append, unclipped_tokenCopies, later]
    induction ws generalizing w with
    | nil => simp
    | cons w' ws ih =>
      have tail := ih w'
      simp only [↓reduceIte, List.map_cons, List.flatMap_cons, List.intercalate_cons_cons] at tail ⊢
      rw [← tail]
      simp

/-! ### The walk over the tokens -/

private theorem foldl_reference (vars : List Variable) (names : List (List Byte)) (e : Echoing) :
    names.foldl (Echoing.reference vars) e =
      (names.filterMap fun run => (get_var vars run).map .value).foldl Echoing.copy e := by
  induction names generalizing e with
  | nil => rfl
  | cons name names ih =>
    rw [List.foldl_cons, ih]
    cases found : get_var vars name with
    | none => simp [Echoing.reference, found]
    | some val => simp [Echoing.reference, found, Echoing.copy]

/-- A name that is bound is copied as its value. -/
private def values (m : Env) (names : List (List Byte)) : List Copy :=
  names.filterMap fun run => (m run).map .value

private theorem tokenCopies_dollar (m : Env) (rest : List Byte) :
    tokenCopies m (chr '$' :: rest) = (if chr '$' :: rest = [chr '$'] then [.character (chr '$')] else []) ++
      values m (fields (among (lit "$")) (chr '$' :: rest)) := by
  simp [tokenCopies, before, runs, values]

private theorem tokenCopies_text (m : Env) {b : Byte} (text : b ≠ chr '$') (rest : List Byte) :
    tokenCopies m (b :: rest) = .text (before (b :: rest)) ::
      values m (fields (among (lit "$")) ((b :: rest).dropWhile (· != chr '$'))) := by
  have nonempty : before (b :: rest) ≠ [] := by simp [before, text]
  simp [tokenCopies, runs, values, nonempty, text]

/-- Every string of the tokens stays in the memory they have. -/
theorem length_bn_echo (vars : List Variable) (stack : Residue) (mem : List Byte) (tokens : List (Option Nat)) :
    (bn_echo vars stack mem tokens).mem.length = mem.length := by
  have loop : ∀ (tokens : List (Option Nat)) (first : Bool) (e : Echoing) (mem : List Byte),
      (echo_loop vars first tokens e mem).2.length = mem.length := by
    intro tokens
    induction tokens with
    | nil => intros; simp [echo_loop]
    | cons token tokens ih =>
      intro first e mem
      cases token with
      | none => simp [echo_loop]
      | some token =>
        simp only [echo_loop, ih]
        unfold echo_token
        dsimp only
        split_ifs <;> simp [length_forTokens]
  exact loop _ _ _ _

/-- One token is echoed by its copies. Its bytes in memory change, none other does. -/
private theorem echo_token_spec (vars : List Variable) (first : Bool) (e : Echoing) {w : List Byte} (noNul : 0 ∉ w)
    (nonempty : w ≠ []) (pre post : List Byte) :
    ∃ cut : List Byte, echo_token vars first e (pre ++ w ++ 0 :: post) pre.length =
        (((if first then [] else [Copy.character (chr ' ')]) ++ tokenCopies (get_var vars) w).foldl Echoing.copy e,
          pre ++ cut ++ 0 :: post) ∧ cut.length = w.length := by
  obtain ⟨b, rest, rfl⟩ := List.exists_cons_of_ne_nil nonempty
  have enough : (b :: rest).length < (pre ++ (b :: rest) ++ 0 :: post).length + 1 := by simp; omega
  have separated : (if first then [] else [Copy.character (chr ' ')]).foldl Echoing.copy e =
      if first then e else e.character (chr ' ') := by
    cases first <;> rfl
  rw [List.foldl_append, separated]
  simp only [echo_token, cstr_append noNul, List.head?_cons, ne_eq, Option.some.injEq]
  generalize (if first then e else e.character (chr ' ')) = e
  by_cases dollar : b = chr '$'
  · -- The token starts with a `$`: every run of it is a name.
    subst dollar
    obtain ⟨cut, ran, size, -⟩ := forTokens_fields (lit "$") (Echoing.reference vars) noNul pre post
      (if chr '$' :: rest = [chr '$'] then e.character (chr '$') else e) enough
    refine ⟨cut, ?_, size⟩
    simp only [not_true_eq_false, ↓reduceIte, ran, foldl_reference, tokenCopies_dollar, List.foldl_append, values]
    by_cases lone : chr '$' :: rest = [chr '$'] <;> simp [lone, Echoing.copy]
  · -- The token starts with text, which is copied; the runs behind it are names.
    have notLone : b :: rest ≠ [chr '$'] := by simp [dollar]
    obtain ⟨mem, cut, save, first, text, ran, size, -⟩ := forTokens_tail (lit "$") (Echoing.reference vars)
      noNul (b := b) rfl (by rw [← Bool.not_eq_true', congrFun not_among_dollar b]; simpa using dollar) pre post
      (e.text (before (b :: rest))) enough
    rw [not_among_dollar] at text ran
    refine ⟨cut, ?_, size⟩
    rw [← before] at text
    simp only [dollar, not_false_eq_true, ↓reduceIte, notLone, first, text, ran, foldl_reference, tokenCopies_text _ dollar,
      List.foldl_cons, values, Echoing.copy]

private theorem echo_loop_spec (vars : List Variable) {pre region : List Byte} {ptrs : List Nat}
    {ws : List (List Byte)} (laid : Laid pre.length region ptrs ws) (nonempty : ∀ w ∈ ws, w ≠ []) (post : List Byte)
    (stale : List (Option Nat)) (first : Bool) (e : Echoing) :
    ∃ cut : List Byte, echo_loop vars first (ptrs.map some ++ none :: stale) e (pre ++ region ++ post) =
        ((copies (get_var vars) first ws).foldl Echoing.copy e, pre ++ cut ++ post) ∧ cut.length = region.length := by
  generalize at_start : pre.length = start at laid
  induction laid generalizing pre first e with
  | @nil start region => exact ⟨region, by simp [echo_loop, copies], rfl⟩
  | @cons start lead w tail region ptrs ws noNul laid ih =>
    subst at_start
    obtain ⟨cut, ran, size⟩ := echo_token_spec vars first e noNul (nonempty w (by simp)) (pre ++ lead)
      (tail ++ region ++ post)
    obtain ⟨cuts, rest, size'⟩ := @ih (pre ++ (lead ++ cut ++ 0 :: tail)) (fun w' member => nonempty w' (by simp [member]))
      false
      (((if first then [] else [Copy.character (chr ' ')]) ++ tokenCopies (get_var vars) w).foldl Echoing.copy e)
      (by simp [size])
    refine ⟨lead ++ cut ++ 0 :: tail ++ cuts, ?_, by simp [size, size']⟩
    have here : pre ++ (lead ++ w ++ 0 :: tail ++ region) ++ post = pre ++ lead ++ w ++ 0 :: (tail ++ region ++ post) := by
      simp
    have next : pre ++ lead ++ cut ++ 0 :: (tail ++ region ++ post) = pre ++ (lead ++ cut ++ 0 :: tail) ++ region ++ post := by
      simp
    rw [List.map_cons, List.cons_append, here, echo_loop, ← List.length_append]
    simp only [ran]
    rw [next, rest, copies, List.foldl_append]
    simp

/-! ### The index into `final` -/

/-- The copies so far stayed in `final`, which holds their bytes up to index 126. -/
private def Holds (e : Echoing) (held : List Byte) : Prop :=
  (∀ range ∈ e.final.writes, InRange 127 range) ∧ e.final.data.length = 128 ∧
    e.curr_final_index = (held.take 127).length ∧ held.take 127 <+: e.final.data

/-- A copy left `final`, or the index has left it. -/
private def Left (e : Echoing) : Prop := (∃ range ∈ e.final.writes, ¬ InRange 127 range) ∨ 127 < e.curr_final_index

/-- What a copy has to leave room for: the value of a variable is clipped, the others are not. -/
private def Room (held : List Byte) : Copy → Prop
  | .value _ => True
  | .character _ => held.length < 127
  | .text s => s ≠ [] → held.length + s.length ≤ 127

private theorem holds_strncpy {e : Echoing} {held s : List Byte} (holds : Holds e held) {n : Nat}
    (part : n = min s.length (127 - held.length)) :
    Holds ⟨e.final.strncpy e.curr_final_index n s, e.curr_final_index + n⟩ (held ++ s) := by
  obtain ⟨inside, size, index, front⟩ := holds
  have whole : (held ++ s).take 127 = held.take 127 ++ s.take n := by
    rw [List.take_append, List.append_cancel_left_eq, List.take_eq_take_iff]
    omega
  have room : (held.take 127).length + n ≤ 127 := by
    rw [List.length_take]
    omega
  refine ⟨?_, by simpa using size, ?_, ?_⟩
  · intro range member
    rw [strncpy_writes, List.mem_append, List.mem_singleton] at member
    rcases member with earlier | rfl
    · exact inside range earlier
    · refine ⟨?_, ?_, ?_⟩ <;> simp only [index] <;> omega
  · rw [whole, List.length_append, List.length_take (l := s), Nat.min_eq_left (by omega), index]
    push_cast
    rfl
  · rw [whole, index]
    exact strncpy_take_extends front (by omega) (by omega)

private theorem clip_index {e : Echoing} {held : List Byte} (holds : Holds e held) (len : Nat) :
    clip e.curr_final_index len = (min len (127 - held.length) : Nat) := by
  rw [clip, holds.2.2.1, List.length_take]
  unfold MAX_STR_LEN
  split <;> omega

/-- Behind the end of `final` the length is clipped to a negative number. -/
private theorem clip_neg {index : Int} (behind : 127 < index) (len : Nat) : clip index len < 0 := by
  rw [clip]
  unfold MAX_STR_LEN
  split <;> omega

/-- A copy that finds the room it needs is made as far as it goes. -/
private theorem holds_copy {e : Echoing} {held : List Byte} (holds : Holds e held) {c : Copy} (room : Room held c) :
    Holds (e.copy c) (held ++ c.bytes) := by
  cases c with
  | character c =>
    have short : held.length < 127 := room
    have copied := holds_strncpy holds (s := [c]) (n := 1) (by rw [List.length_singleton]; omega)
    have clipped : clip e.curr_final_index 1 = 1 := (clip_index holds 1).trans (by omega)
    rw [Echoing.copy, Echoing.character, clipped]
    exact copied
  | text s =>
    refine holds_strncpy holds (s := s) (n := s.length) ?_
    by_cases empty : s = []
    · simp [empty]
    · have short := room empty
      omega
  | value s =>
    have copied := holds_strncpy holds (s := s) rfl
    rw [← clip_index holds] at copied
    exact copied

/-- A copy that does not find it leaves `final`, at once or with the index. -/
private theorem left_copy {e : Echoing} {held : List Byte} (holds : Holds e held) {c : Copy} (full : ¬ Room held c) :
    Left (e.copy c) := by
  have index := holds.2.2.1
  rw [List.length_take] at index
  cases c with
  | character c =>
    have long : ¬ held.length < 127 := full
    refine .inr ?_
    simp only [Echoing.copy, Echoing.character, index]
    omega
  | text s =>
    have long : s ≠ [] ∧ ¬ held.length + s.length ≤ 127 := Classical.not_imp.mp full
    have := List.length_pos_of_ne_nil long.1
    refine .inl ⟨(e.curr_final_index, s.length), by simp [Echoing.copy, Echoing.text], ?_⟩
    rintro ⟨-, -, high⟩
    simp only [index] at high
    omega
  | value s => exact absurd trivial full

private theorem left_stays {e : Echoing} (left : Left e) (c : Copy) : Left (e.copy c) := by
  rcases left with ⟨range, member, outside⟩ | index
  · refine .inl ⟨range, ?_, outside⟩
    cases c <;> exact List.mem_append_left _ member
  · cases c with
    | character c =>
      refine .inr ?_
      simp only [Echoing.copy, Echoing.character]
      omega
    | text s =>
      refine .inr ?_
      simp only [Echoing.copy, Echoing.text]
      omega
    | value s =>
      refine .inl ⟨(e.curr_final_index, clip e.curr_final_index s.length), by simp [Echoing.copy, Echoing.value], ?_⟩
      rintro ⟨-, length, -⟩
      exact absurd (clip_neg index s.length) (Int.not_lt.mpr length)

/-- Every copy of a sequence finds the room it needs. -/
private def AllRoom : List Byte → List Copy → Prop
  | _, [] => True
  | held, c :: cs => Room held c ∧ AllRoom (held ++ c.bytes) cs

private theorem holds_copies {e : Echoing} {held : List Byte} (holds : Holds e held) {cs : List Copy}
    (room : AllRoom held cs) : Holds (cs.foldl Echoing.copy e) (held ++ unclipped cs) := by
  induction cs generalizing e held with
  | nil => simpa using holds
  | cons c cs ih => simpa using ih (holds_copy holds room.1) room.2

private theorem left_copies {e : Echoing} {held : List Byte} (holds : Holds e held) {cs : List Copy}
    (full : ¬ AllRoom held cs) : Left (cs.foldl Echoing.copy e) := by
  have stays : ∀ (cs : List Copy) (e : Echoing), Left e → Left (cs.foldl Echoing.copy e) := by
    intro cs
    induction cs with
    | nil =>
      intro e left
      exact left
    | cons c cs ih =>
      intro e left
      exact ih _ (left_stays left c)
  induction cs generalizing e held with
  | nil => exact absurd trivial full
  | cons c cs ih =>
    by_cases room : Room held c
    · exact ih (holds_copy holds room) (fun all => full ⟨room, all⟩)
    · exact stays cs _ (left_copy holds room)

/-! ### What the copies for a line need -/

private theorem allRoom_append (held : List Byte) (cs ds : List Copy) :
    AllRoom held (cs ++ ds) ↔ AllRoom held cs ∧ AllRoom (held ++ unclipped cs) ds := by
  induction cs generalizing held with
  | nil => simp [AllRoom]
  | cons c cs ih => simp [AllRoom, ih, and_assoc]

private theorem allRoom_values (m : Env) (held : List Byte) (names : List (List Byte)) :
    AllRoom held (values m names) := by
  unfold values
  induction names generalizing held with
  | nil => trivial
  | cons name names ih =>
    cases found : m name with
    | none => simpa [found] using ih held
    | some val => simpa [found, AllRoom, Room] using ih _

/-- The copies for one token have room exactly when its text, or the lone `$`, has. -/
private theorem allRoom_token (m : Env) (held w : List Byte) (low : held.length ≤ 127) :
    AllRoom held (tokenCopies m w) ↔ held.length + (echoed (fun _ => none) w).length ≤ 127 := by
  have rest := allRoom_values m
  unfold values at rest
  have noValues : (runs w).flatMap (fun _ => (none : Option (List Byte)).getD []) = [] := by simp
  rw [tokenCopies, allRoom_append, and_iff_left (rest _ _), echoed, noValues, List.append_nil]
  by_cases lone : w = [chr '$']
  · simp only [lone, ↓reduceIte, AllRoom, Room, and_true, List.length_singleton]
    omega
  · by_cases empty : before w = []
    · simp [lone, empty, AllRoom, low]
    · simp [lone, empty, AllRoom, Room]

/-- The copies behind the first separator have room exactly when what the separators and texts commit
    to has. -/
private theorem allRoom_tokens (m : Env) (held w : List Byte) (ws : List (List Byte)) (low : held.length ≤ 127) :
    AllRoom held (tokenCopies m w ++ copies m false ws) ↔ held.length + (committed m (w :: ws)).length ≤ 127 := by
  induction ws generalizing held w with
  | nil => simp [copies, committed, allRoom_token m held w low]
  | cons w' ws ih =>
    rw [allRoom_append, copies, allRoom_token m held w low, unclipped_tokenCopies]
    have text := length_echoed_unbound_le m w
    simp only [Bool.false_eq_true, ↓reduceIte, List.cons_append, AllRoom, Room, committed,
      List.length_append, List.length_cons, Copy.bytes]
    constructor
    · rintro ⟨-, separator, later⟩
      have := (ih _ w' (by simp; omega)).mp later
      simp only [List.length_append, List.length_singleton] at this
      omega
    · intro short
      have later := (ih (held ++ echoed m w ++ [chr ' ']) w' (by simp; omega)).mpr
        (by simp only [List.length_append, List.length_singleton]; omega)
      exact ⟨by omega, by omega, later⟩

/-- The copies for a line all find room exactly when what the line commits to fits. -/
private theorem allRoom_line (m : Env) (ws : List (List Byte)) :
    AllRoom [] (copies m true ws) ↔ (committed m ws).length ≤ 127 := by
  cases ws with
  | nil => simp [copies, committed, AllRoom]
  | cons w ws => simpa [copies] using allRoom_tokens m [] w ws (by simp)

/-! ### Calls -/

theorem joined_noNul (vars : List Variable) {ws : List (List Byte)} (noNul : ∀ w ∈ ws, 0 ∉ w) :
    0 ∉ joined (get_var vars) ws := by
  intro member
  rcases mem_joined member with space | ⟨w, inLine, inWord⟩
  · exact absurd space (by decide)
  · rcases mem_echoed inWord with inText | ⟨name, value, found, inValue⟩
    · exact noNul w inLine inText
    · exact get_var_noNul found inValue

/-- A call on laid out tokens makes the copies for the words behind the first, and changes no byte
    behind the tokens. -/
private theorem bn_echo_copies (vars : List Variable) (stack : Residue) {region : List Byte} {ptrs : List Nat}
    {cmd : List Byte} {args : List (List Byte)} (laid : Laid 0 region ptrs (cmd :: args))
    (nonempty : ∀ w ∈ args, w ≠ []) (post : List Byte) (tokens : List (Option Nat)) :
    ∃ cut : List Byte, cut.length = region.length ∧
      let e := (copies (get_var vars) true args).foldl Echoing.copy ⟨⟨stack, []⟩, 0⟩
      bn_echo vars stack (region ++ post) (tokenArray ptrs tokens) =
        ⟨e.final.writes, e.curr_final_index, cut ++ post,
          strnlenBytes (e.final.set e.curr_final_index 0).data MAX_STR_LEN⟩ := by
  cases laid with
  | @cons _ lead _ tail region ptrs _ _ laid =>
    rw [Nat.zero_add] at laid
    obtain ⟨cut, ran, size⟩ := echo_loop_spec vars laid nonempty post (tokens.drop (ptrs.length + 2)) true
      ⟨⟨stack, []⟩, 0⟩
    refine ⟨lead ++ cmd ++ 0 :: tail ++ cut, by simp [size], ?_⟩
    simp only [bn_echo, tokenArray, List.map_cons, List.cons_append, List.drop_succ_cons, List.drop_zero,
      List.length_cons, ran]

/-- The copies of a call stay in `final` exactly when what the line commits to fits, and then it prints the
    first 127 bytes of the echoed words. -/
theorem bn_echo_spec (vars : List Variable) (stack : Residue) {region : List Byte} {ptrs : List Nat}
    {cmd : List Byte} {args : List (List Byte)} (laid : Laid 0 region ptrs (cmd :: args))
    (nonempty : ∀ w ∈ args, w ≠ []) (post : List Byte) (tokens : List (Option Nat)) :
    let call := bn_echo vars stack (region ++ post) (tokenArray ptrs tokens)
    (call.InBounds ↔ (committed (get_var vars) args).length ≤ 127) ∧
      (call.InBounds → call.printed = (joined (get_var vars) args).take 127) ∧
      ∃ cut : List Byte, cut.length = region.length ∧ call.mem = cut ++ post := by
  obtain ⟨cut, size, ran⟩ := bn_echo_copies vars stack laid nonempty post tokens
  rw [ran]
  dsimp only
  have start : Holds ⟨⟨stack, []⟩, 0⟩ [] := ⟨by simp, stack.2, rfl, List.nil_prefix⟩
  have sound : (committed (get_var vars) args).length ≤ 127 →
      Holds ((copies (get_var vars) true args).foldl Echoing.copy ⟨⟨stack, []⟩, 0⟩) (joined (get_var vars) args) := by
    intro short
    have := holds_copies start ((allRoom_line _ _).mpr short)
    rwa [List.nil_append, unclipped_copies] at this
  have complete : ¬ (committed (get_var vars) args).length ≤ 127 →
      Left ((copies (get_var vars) true args).foldl Echoing.copy ⟨⟨stack, []⟩, 0⟩) := by
    intro long
    exact left_copies start (mt (allRoom_line _ _).mp long)
  generalize (copies (get_var vars) true args).foldl Echoing.copy ⟨⟨stack, []⟩, 0⟩ = e at sound complete ⊢
  have inBounds : (EchoCall.mk e.final.writes e.curr_final_index (cut ++ post)
      (strnlenBytes (e.final.set e.curr_final_index 0).data MAX_STR_LEN)).InBounds ↔
        (committed (get_var vars) args).length ≤ 127 := by
    constructor
    · rintro ⟨writes, -, -, high⟩
      by_contra long
      rcases complete long with ⟨range, member, outside⟩ | index
      · exact outside (writes range member)
      · simp only [MAX_STR_LEN] at high
        omega
    · intro short
      obtain ⟨inside, -, index, -⟩ := sound short
      refine ⟨inside, ?_⟩
      rw [List.length_take] at index
      refine ⟨?_, ?_, ?_⟩ <;> simp only [MAX_STR_LEN, index] <;> omega
  refine ⟨inBounds, fun inside => ?_, cut, size, rfl⟩
  obtain ⟨-, width, index, front⟩ := sound (inBounds.mp inside)
  have room : ((joined (get_var vars) args).take 127).length + 1 ≤ e.final.data.length := by
    rw [List.length_take, width]
    omega
  have stored := set_extends front (c := 0) room
  rw [← index] at stored
  have noNul : 0 ∉ (joined (get_var vars) args).take 127 := by
    have wordsNoNul := laid_noNul laid
    intro member
    exact joined_noNul vars (fun w inArgs => wordsNoNul w (by simp [inArgs])) (List.mem_of_mem_take member)
  have text := cstr_of_front noNul stored
  rw [cstr, List.drop_zero] at text
  rw [strnlenBytes, text, List.take_of_length_le (by rw [List.length_take, MAX_STR_LEN]; omega)]

end BashInC.Echo
