import Mathlib.Data.List.Forall2
import Mathlib.Data.List.Infix
import Mathlib.Data.List.TakeWhile
import BashInC.Clib.Fields

/-!
C strings in a byte memory and the functions of `<string.h>` that read and cut
them. `strtok_r` is modelled on the memory itself: it returns an address and
overwrites the delimiter behind the token with a NUL. Its three outcomes on a
string that lies in memory as `pre ++ str ++ 0 :: post` are `strtok_r_none`,
`strtok_r_last` and `strtok_r_more`. A loop that calls it until it returns NULL
sees exactly the fields of the string, in order, whether its body reads the
tokens (`forTokens_fields`) or keeps their addresses and rewrites their bytes
(`eachToken_laid`).
-/
namespace Clib.Strings
open Clib.Fields

/-- A `char` as the byte it occupies. -/
abbrev Byte := UInt8

/-- The byte of an ASCII character constant. -/
def chr (c : Char) : Byte := c.toNat.toUInt8

/-- The bytes of an ASCII string literal. -/
def lit (text : String) : List Byte := text.toList.map chr

/-- A C string: its bytes, none of them the terminator. -/
abbrev CStr := {s : List Byte // 0 ∉ s}

/-- The string that starts at an address: the bytes up to the first NUL. -/
def cstr (mem : List Byte) (s : Nat) : List Byte := (mem.drop s).takeWhile (· ≠ 0)

/-- The C string that an array of bytes starts with. -/
def CStr.of (bytes : List Byte) : CStr :=
  ⟨bytes.takeWhile (· ≠ 0), fun member => by simpa using List.mem_takeWhile_imp member⟩

/-- `strnlen(str, limit)` bytes of a NUL-terminated array. -/
def strnlenBytes (str : List Byte) (limit : Nat) : List Byte := (str.takeWhile (· ≠ 0)).take limit

/-- `strstr(str, needle) != NULL`. -/
def strstr (str needle : List Byte) : Bool := decide (needle <:+: str)

/-- Whether a byte is one of the characters of a delimiter string. -/
def among (delim : List Byte) (b : Byte) : Bool := delim.contains b

/-- What one call of `strtok_r` leaves: the memory, the token returned (`none` for NULL)
    and the saved pointer. -/
structure Scan where
  mem : List Byte
  token : Option Nat
  save : Nat
  deriving DecidableEq

/-- `strtok_r(s, delim, &save)`; for a NULL first argument `s` is the saved pointer. -/
def strtok_r (delim mem : List Byte) (s : Nat) : Scan :=
  let str := cstr mem s
  let start := s + (str.takeWhile (among delim)).length
  let rest := str.dropWhile (among delim)
  let field := rest.takeWhile (!among delim ·)
  if rest = [] then ⟨mem, none, start⟩
  else if field = rest then ⟨mem, some start, start + field.length⟩
  else ⟨mem.set (start + field.length) 0, some start, start + field.length + 1⟩

/-- `while (token != NULL) { state = f(state, token); token = strtok_r(NULL, delim, &save); }`,
    where `f` is given the text of the token. -/
def forTokens {σ : Type*} (delim : List Byte) (f : σ → List Byte → σ) : Nat → Scan → σ → List Byte × σ
  | 0, scan, state => (scan.mem, state)
  | fuel + 1, scan, state =>
    match scan.token with
    | none => (scan.mem, state)
    | some token => forTokens delim f fuel (strtok_r delim scan.mem scan.save) (f state (cstr scan.mem token))

/-- The same loop with a body that is given the memory and the address of the token, and may change
    both the state and the memory. -/
def eachToken {σ : Type*} (delim : List Byte) (body : σ → List Byte → Nat → σ × List Byte) :
    Nat → Scan → σ → σ × Scan
  | 0, scan, state => (state, scan)
  | fuel + 1, scan, state =>
    match scan.token with
    | none => (state, scan)
    | some token =>
      let (state, mem) := body state scan.mem token
      eachToken delim body fuel (strtok_r delim mem scan.save) state

/-- Strings lie one behind the other in a region that starts at an address, each behind some bytes and
    in front of a NUL. -/
inductive Laid : Nat → List Byte → List Nat → List (List Byte) → Prop
  | nil {start : Nat} {region : List Byte} : Laid start region [] []
  | cons {start : Nat} {lead str tail region : List Byte} {ptrs : List Nat} {strs : List (List Byte)} : 0 ∉ str →
      Laid (start + (lead ++ str ++ 0 :: tail).length) region ptrs strs →
      Laid start (lead ++ str ++ 0 :: tail ++ region) ((start + lead.length) :: ptrs) (str :: strs)

/-- A delimiter string of one character. -/
theorem among_singleton (c : Byte) : among [c] = (· == c) := by
  funext b
  rw [among, List.contains_cons, List.contains_nil, Bool.or_false]

/-! ### Strings in memory -/

private theorem ne_nul {str : List Byte} (noNul : 0 ∉ str) : ∀ b ∈ str, decide (b ≠ 0) = true := by
  intro b member
  simp only [decide_eq_true_eq]
  rintro rfl
  exact noNul member

theorem takeWhile_noNul {str : List Byte} (noNul : 0 ∉ str) : str.takeWhile (· ≠ 0) = str :=
  List.takeWhile_eq_self_iff.mpr (ne_nul noNul)

/-- A string no longer than the limit is written in full. -/
theorem strnlenBytes_short {str : List Byte} (noNul : 0 ∉ str) {limit : Nat} (short : str.length ≤ limit) :
    strnlenBytes str limit = str := by
  rw [strnlenBytes, takeWhile_noNul noNul, List.take_of_length_le short]

theorem CStr.of_noNul {str : List Byte} (noNul : 0 ∉ str) : CStr.of str = ⟨str, noNul⟩ :=
  Subtype.ext (takeWhile_noNul noNul)

theorem takeWhile_nul {str : List Byte} (noNul : 0 ∉ str) (post : List Byte) :
    (str ++ 0 :: post).takeWhile (· ≠ 0) = str := by
  rw [List.takeWhile_append_of_pos (ne_nul noNul), List.takeWhile_cons]
  simp

theorem cstr_append {str : List Byte} (noNul : 0 ∉ str) (pre post : List Byte) :
    cstr (pre ++ str ++ 0 :: post) pre.length = str := by
  rw [cstr, List.append_assoc, List.drop_left, takeWhile_nul noNul]

theorem cstr_noNul (mem : List Byte) (s : Nat) : 0 ∉ cstr mem s := by
  intro member
  simpa using List.mem_takeWhile_imp member

theorem takeWhile_delims {delim lead : List Byte} (delims : ∀ a ∈ lead, among delim a = true)
    (rest : List Byte) (stop : ∀ a ∈ rest.head?, among delim a = false) :
    (lead ++ rest).takeWhile (among delim) = lead ∧ (lead ++ rest).dropWhile (among delim) = rest := by
  rw [List.takeWhile_append_of_pos delims, List.dropWhile_append_of_pos delims]
  cases rest with
  | nil => simp
  | cons a rest =>
    have plain : among delim a = false := stop a rfl
    simp [plain]

theorem takeWhile_plain {delim field : List Byte} (plain : ∀ a ∈ field, among delim a = false) (rest : List Byte)
    (ends : ∀ a ∈ rest.head?, among delim a = true) :
    (field ++ rest).takeWhile (!among delim ·) = field ∧ (field ++ rest).dropWhile (!among delim ·) = rest := by
  have pos : ∀ a ∈ field, (!among delim a) = true := fun a member => by simp only [plain a member, Bool.not_false]
  rw [List.takeWhile_append_of_pos pos, List.dropWhile_append_of_pos pos]
  cases rest with
  | nil => simp
  | cons a rest =>
    have stop : among delim a = true := ends a rfl
    simp [stop]

/-! ### The outcomes of one call -/

section
variable {delim lead field : List Byte} (pre post : List Byte)

theorem strtok_r_none (noNul : 0 ∉ lead) (delims : ∀ a ∈ lead, among delim a = true) :
    strtok_r delim (pre ++ lead ++ 0 :: post) pre.length =
      ⟨pre ++ lead ++ 0 :: post, none, pre.length + lead.length⟩ := by
  have skipped := takeWhile_delims delims [] (by simp)
  simp only [List.append_nil] at skipped
  simp only [strtok_r, cstr_append noNul, skipped, ↓reduceIte]

/-- At the end of a string there is no token. -/
theorem strtok_r_end (delim : List Byte) :
    strtok_r delim (pre ++ 0 :: post) pre.length = ⟨pre ++ 0 :: post, none, pre.length⟩ := by
  have := @strtok_r_none delim [] pre post (by simp) (by simp)
  simpa using this

theorem strtok_r_last (noNul : 0 ∉ lead ++ field) (delims : ∀ a ∈ lead, among delim a = true)
    (nonempty : field ≠ []) (plain : ∀ a ∈ field, among delim a = false) :
    strtok_r delim (pre ++ (lead ++ field) ++ 0 :: post) pre.length =
      ⟨pre ++ (lead ++ field) ++ 0 :: post, some (pre.length + lead.length),
        pre.length + lead.length + field.length⟩ := by
  have skipped := takeWhile_delims delims field
    (fun a member => plain a (List.mem_of_mem_head? member))
  have whole : field.takeWhile (!among delim ·) = field :=
    List.takeWhile_eq_self_iff.mpr (fun a member => by simp [plain a member])
  simp only [strtok_r, cstr_append noNul, skipped, whole, nonempty, ↓reduceIte]

theorem strtok_r_more {d : Byte} {rest : List Byte} (noNul : 0 ∉ lead ++ field ++ d :: rest)
    (delims : ∀ a ∈ lead, among delim a = true) (nonempty : field ≠ [])
    (plain : ∀ a ∈ field, among delim a = false) (ends : among delim d = true) :
    strtok_r delim (pre ++ (lead ++ field ++ d :: rest) ++ 0 :: post) pre.length =
      ⟨pre ++ lead ++ field ++ [0] ++ rest ++ 0 :: post, some (pre.length + lead.length),
        (pre ++ lead ++ field ++ [0]).length⟩ := by
  have start : ∀ a ∈ (field ++ d :: rest).head?, among delim a = false := by
    obtain ⟨b, more, rfl⟩ := List.exists_cons_of_ne_nil nonempty
    simpa using plain b (by simp)
  have skipped := takeWhile_delims delims _ start
  rw [← List.append_assoc] at skipped
  have found : (field ++ d :: rest).takeWhile (!among delim ·) = field := by
    rw [List.takeWhile_append_of_pos (fun a member => by simp only [plain a member, Bool.not_false]),
      List.takeWhile_cons]
    simp only [ends, Bool.not_true, Bool.false_eq_true, ↓reduceIte, List.append_nil]
  have proper : field ≠ field ++ d :: rest := by simp
  have more : field ++ d :: rest ≠ [] := by simp
  have marked : (pre ++ (lead ++ field ++ d :: rest) ++ 0 :: post).set (pre.length + lead.length + field.length) 0 =
      pre ++ lead ++ field ++ [0] ++ rest ++ 0 :: post := by
    have split : pre ++ (lead ++ field ++ d :: rest) ++ 0 :: post =
        (pre ++ lead ++ field) ++ d :: (rest ++ 0 :: post) := by simp
    rw [split, List.set_append_right _ _ (by simp; omega)]
    simp [Nat.add_assoc]
  simp only [strtok_r, cstr_append noNul, skipped, found, proper, more, ↓reduceIte, marked,
    List.length_append, List.length_cons, List.length_nil]

end

theorem length_laid {start : Nat} {region : List Byte} {ptrs : List Nat} {strs : List (List Byte)}
    (laid : Laid start region ptrs strs) : ptrs.length = strs.length := by
  induction laid with
  | nil => rfl
  | cons _ _ ih => simp [ih]

theorem laid_noNul {start : Nat} {region : List Byte} {ptrs : List Nat} {strs : List (List Byte)}
    (laid : Laid start region ptrs strs) : ∀ str ∈ strs, 0 ∉ str := by
  induction laid with
  | nil => simp
  | cons noNul _ ih => simpa using ⟨noNul, ih⟩

/-- Each laid out string is at its address, and ends in the region. -/
theorem forall₂_laid {pre region : List Byte} {ptrs : List Nat} {strs : List (List Byte)}
    (laid : Laid pre.length region ptrs strs) (post : List Byte) :
    List.Forall₂ (fun ptr str => cstr (pre ++ region ++ post) ptr = str ∧ pre.length ≤ ptr ∧
      ptr + str.length < (pre ++ region).length) ptrs strs := by
  generalize at_start : pre.length = start at laid ⊢
  induction laid generalizing pre with
  | nil => exact .nil
  | @cons start lead str tail region ptrs strs noNul _ ih =>
    subst at_start
    have here := cstr_append noNul (pre ++ lead) (tail ++ region ++ post)
    have later := @ih (pre ++ (lead ++ str ++ 0 :: tail)) (by rw [List.length_append])
    refine .cons ⟨by simpa using here, by omega, by simp; omega⟩ (later.imp ?_)
    rintro ptr str ⟨same, low, high⟩
    refine ⟨by simpa using same, by omega, by simpa using high⟩

/-- The strings at the addresses of laid out strings. -/
theorem cstr_laid {pre region : List Byte} {ptrs : List Nat} {strs : List (List Byte)}
    (laid : Laid pre.length region ptrs strs) (post : List Byte) : ptrs.map (cstr (pre ++ region ++ post)) = strs := by
  have each := forall₂_laid laid post
  clear laid
  induction each with
  | nil => rfl
  | cons here _ ih => rw [List.map_cons, here.1, ih]

/-! ### Loops over the tokens of a string -/

/-- What is left of a string in front of the first NUL once `strtok_r` has been called on it until it
    returned NULL: the leading delimiters and the first token. -/
def firstCut (delim str : List Byte) : List Byte :=
  str.takeWhile (among delim) ++ (str.dropWhile (among delim)).takeWhile (!among delim ·)

private theorem firstCut_append {delim lead : List Byte} (delims : ∀ a ∈ lead, among delim a = true) (rest : List Byte)
    (stop : ∀ a ∈ rest.head?, among delim a = false) :
    firstCut delim (lead ++ rest) = lead ++ rest.takeWhile (!among delim ·) := by
  obtain ⟨taken, dropped⟩ := takeWhile_delims delims rest stop
  rw [firstCut, taken, dropped]

theorem firstCut_ne_nil (delim : List Byte) {str : List Byte} (nonempty : str ≠ []) : firstCut delim str ≠ [] := by
  obtain ⟨b, rest, rfl⟩ := List.exists_cons_of_ne_nil nonempty
  by_cases delims : among delim b = true
  · rw [firstCut, List.takeWhile_cons_of_pos delims]
    simp
  · simp [firstCut, delims]

/-- The cut leaves the first token. -/
theorem fields_firstCut (delim str : List Byte) :
    fields (among delim) (firstCut delim str) = (fields (among delim) str).take 1 := by
  have split := split_fields (among delim) str
  generalize fields (among delim) str = fs at split
  have plainHead : ∀ {field : List Byte}, (∀ a ∈ field, among delim a = false) → ∀ a ∈ field.head?, among delim a = false :=
    fun plain a member => plain a (List.mem_of_mem_head? member)
  cases split with
  | none delims =>
    have cut := firstCut_append delims [] (by simp)
    simp only [List.append_nil, List.takeWhile_nil] at cut
    rw [cut, fields_delims delims]
    rfl
  | @last lead field delims nonempty plain =>
    have whole : field.takeWhile (!among delim ·) = field :=
      List.takeWhile_eq_self_iff.mpr (fun a member => by simp [plain a member])
    rw [firstCut_append delims _ (plainHead plain), whole, fields_lead_append delims, fields_single nonempty plain]
    rfl
  | @more lead field d rest fs delims nonempty plain ends _ =>
    obtain ⟨b, more, rfl⟩ := List.exists_cons_of_ne_nil nonempty
    obtain ⟨taken, -⟩ := takeWhile_plain plain (d :: rest) (by simpa using ends)
    rw [List.append_assoc, firstCut_append delims _ (by simpa using plain b (by simp)), taken, fields_lead_append delims,
      fields_single nonempty plain]
    rfl

@[simp] theorem length_strtok_r (delim mem : List Byte) (s : Nat) : (strtok_r delim mem s).mem.length = mem.length := by
  unfold strtok_r
  dsimp only
  split_ifs <;> simp

/-- The byte at the address itself stays: a delimiter is overwritten behind at least one byte. -/
theorem strtok_r_getD (delim mem : List Byte) (s : Nat) : (strtok_r delim mem s).mem.getD s 0 = mem.getD s 0 := by
  unfold strtok_r
  dsimp only
  split_ifs with ended last
  · rfl
  · rfl
  · have behind : s + ((cstr mem s).takeWhile (among delim)).length +
        (((cstr mem s).dropWhile (among delim)).takeWhile (!among delim ·)).length ≠ s := by
      obtain ⟨b, rest, front⟩ := List.exists_cons_of_ne_nil ended
      have plain := List.head?_dropWhile_not (among delim) (cstr mem s)
      rw [front] at plain ⊢
      have notDelim : among delim b = false := by simpa using plain
      rw [List.takeWhile_cons_of_pos (by simp [notDelim]), List.length_cons]
      omega
    rw [List.getD_eq_getElem?_getD, List.getElem?_set_ne behind, List.getD_eq_getElem?_getD]

theorem length_forTokens {σ : Type*} (delim : List Byte) (f : σ → List Byte → σ) (fuel : Nat) (scan : Scan) (state : σ) :
    (forTokens delim f fuel scan state).1.length = scan.mem.length := by
  induction fuel generalizing scan state with
  | zero => rfl
  | succ fuel ih =>
    unfold forTokens
    split
    · rfl
    · rw [ih, length_strtok_r]

/-- What every call of `strtok_r` and every run of the body preserves holds after the loop. -/
theorem eachToken_invariant {σ : Type*} (delim : List Byte) (body : σ → List Byte → Nat → σ × List Byte)
    (P : σ → List Byte → Prop) (cuts : ∀ state mem s, P state mem → P state (strtok_r delim mem s).mem)
    (keeps : ∀ state mem token, P state mem → P (body state mem token).1 (body state mem token).2)
    (fuel : Nat) (scan : Scan) (state : σ) (holds : P state scan.mem) :
    P (eachToken delim body fuel scan state).1 (eachToken delim body fuel scan state).2.mem := by
  induction fuel generalizing scan state with
  | zero => exact holds
  | succ fuel ih =>
    unfold eachToken
    split
    · exact holds
    · exact ih _ _ (cuts _ _ _ (keeps _ _ _ holds))

/-- Once no token is left the loop is over. -/
theorem forTokens_done {σ : Type*} {delim : List Byte} {f : σ → List Byte → σ} (fuel : Nat) {scan : Scan} (state : σ)
    (done : scan.token = none) : forTokens delim f fuel scan state = (scan.mem, state) := by
  cases fuel with
  | zero => rfl
  | succ fuel => simp [forTokens, done]

/-- A loop that calls `strtok_r` on a string until it returns NULL folds its body over the fields of
    the string. It changes no byte outside of the string, and the string that is left at its
    address ends behind the first token. -/
theorem forTokens_fields {σ : Type*} (delim : List Byte) (f : σ → List Byte → σ) {str : List Byte} (noNul : 0 ∉ str)
    (pre post : List Byte) (state : σ) {fuel : Nat} (enough : str.length < fuel) :
    ∃ cut : List Byte, forTokens delim f fuel (strtok_r delim (pre ++ str ++ 0 :: post) pre.length) state =
        (pre ++ cut ++ 0 :: post, (fields (among delim) str).foldl f state) ∧
      cut.length = str.length ∧ cut.takeWhile (· ≠ 0) = firstCut delim str := by
  have split := split_fields (among delim) str
  generalize fields (among delim) str = fs at split
  -- The memory in front of the string grows by each token found, so `pre` changes in the induction.
  induction split generalizing pre state fuel with
  | @none lead delims =>
    refine ⟨lead, ?_, rfl, ?_⟩
    · rw [strtok_r_none _ _ noNul delims, forTokens_done _ _ rfl]
      rfl
    · have := firstCut_append delims [] (by simp)
      simp only [List.append_nil, List.takeWhile_nil] at this
      rw [this, takeWhile_noNul noNul]
  | @last lead field delims nonempty plain =>
    refine ⟨lead ++ field, ?_, rfl, ?_⟩
    · have text : cstr (pre ++ (lead ++ field) ++ 0 :: post) (pre.length + lead.length) = field := by
        have noNul' : 0 ∉ field := fun member => noNul (List.mem_append_right _ member)
        have := cstr_append noNul' (pre ++ lead) post
        simpa using this
      have ended : (strtok_r delim (pre ++ (lead ++ field) ++ 0 :: post)
          (pre.length + lead.length + field.length)) =
          ⟨pre ++ (lead ++ field) ++ 0 :: post, none, pre.length + lead.length + field.length⟩ := by
        have := strtok_r_end (pre ++ (lead ++ field)) post delim
        simpa [Nat.add_assoc] using this
      obtain ⟨fuel, rfl⟩ : ∃ n, fuel = n + 1 := ⟨fuel - 1, by omega⟩
      rw [strtok_r_last _ _ noNul delims nonempty plain, forTokens]
      simp only [ended, text]
      rw [forTokens_done _ _ rfl]
      rfl
    · have whole : field.takeWhile (!among delim ·) = field :=
        List.takeWhile_eq_self_iff.mpr (fun a member => by simp [plain a member])
      rw [takeWhile_noNul noNul, firstCut_append delims _ (fun a member => plain a (List.mem_of_mem_head? member)), whole]
  | @more lead field d rest fs delims nonempty plain ends _ ih =>
    have noNulField : 0 ∉ field := fun member => noNul (by simp [member])
    have noNulRest : 0 ∉ rest := fun member => noNul (by simp [member])
    have room : rest.length < fuel - 1 := by simp at enough; omega
    obtain ⟨cut, run, size, -⟩ := ih noNulRest (pre ++ lead ++ field ++ [0]) (f state field) room
    refine ⟨lead ++ field ++ 0 :: cut, ?_, by simp [size], ?_⟩
    · have text : cstr (pre ++ lead ++ field ++ [0] ++ rest ++ 0 :: post) (pre.length + lead.length) = field := by
        have := cstr_append noNulField (pre ++ lead) (rest ++ 0 :: post)
        simpa using this
      obtain ⟨fuel, rfl⟩ : ∃ n, fuel = n + 1 := ⟨fuel - 1, by omega⟩
      rw [strtok_r_more _ _ noNul delims nonempty plain ends, forTokens]
      simp only [text]
      rw [Nat.add_sub_cancel] at run
      rw [run]
      simp
    · have start : ∀ a ∈ (field ++ d :: rest).head?, among delim a = false := by
        obtain ⟨b, more, rfl⟩ := List.exists_cons_of_ne_nil nonempty
        simpa using plain b (by simp)
      obtain ⟨taken, -⟩ := takeWhile_plain plain (d :: rest) (by simpa using ends)
      rw [List.append_assoc lead field (d :: rest), firstCut_append delims _ start, taken]
      apply takeWhile_nul
      intro member
      exact noNul (List.mem_append_left _ member)

/-- The loop from the second token on, for a string that starts with a token: the first call returns the
    string's own address, and the loop folds its body over the fields behind the first token. -/
theorem forTokens_tail {σ : Type*} (delim : List Byte) (f : σ → List Byte → σ) {str : List Byte} (noNul : 0 ∉ str)
    {b : Byte} (head : str.head? = some b) (starts : among delim b = false) (pre post : List Byte) (state : σ)
    {fuel : Nat} (enough : str.length < fuel) :
    ∃ (mem cut : List Byte) (save : Nat),
      strtok_r delim (pre ++ str ++ 0 :: post) pre.length = ⟨mem, some pre.length, save⟩ ∧
        cstr mem pre.length = str.takeWhile (!among delim ·) ∧
        forTokens delim f fuel (strtok_r delim mem save) state =
          (pre ++ cut ++ 0 :: post, (fields (among delim) (str.dropWhile (!among delim ·))).foldl f state) ∧
        cut.length = str.length ∧ cut.takeWhile (· ≠ 0) = firstCut delim str := by
  set field := str.takeWhile (!among delim ·) with fieldIs
  set rest := str.dropWhile (!among delim ·) with restIs
  have whole : field ++ rest = str := List.takeWhile_append_dropWhile
  have plain : ∀ a ∈ field, among delim a = false := by
    intro a member
    simpa using List.mem_takeWhile_imp member
  have nonempty : field ≠ [] := by
    obtain ⟨tail, rfl⟩ : ∃ tail, str = b :: tail := by
      cases str with
      | nil => simp at head
      | cons c tail => exact ⟨tail, by simpa using head⟩
    simp [fieldIs, starts]
  have cutIs : firstCut delim str = field := by
    rw [firstCut, show str.takeWhile (among delim) = [] from ?_, show str.dropWhile (among delim) = str from ?_,
      List.nil_append]
    all_goals cases str with
      | nil => simp at head
      | cons c tail =>
        obtain rfl : c = b := by simpa using head
        simp [starts]
  rw [cutIs]
  have noNulField : 0 ∉ field := fun member => noNul (whole ▸ List.mem_append_left _ member)
  cases ends : rest with
  | nil =>
    rw [ends, List.append_nil] at whole
    rw [whole] at noNulField plain nonempty ⊢
    refine ⟨pre ++ str ++ 0 :: post, str, pre.length + str.length, ?_, cstr_append noNul pre post, ?_, rfl,
      takeWhile_noNul noNul⟩
    · simpa using @strtok_r_last delim [] str pre post (by simpa using noNul) (by simp) nonempty plain
    · have ended := strtok_r_end (pre ++ str) post delim
      rw [List.length_append] at ended
      rw [ended, forTokens_done _ _ rfl]
      rfl
  | cons d tail =>
    rw [ends] at whole
    have ender : among delim d = true := by
      have := List.head?_dropWhile_not (fun b => !among delim b) str
      rw [← restIs, ends] at this
      simpa using this
    have noNulTail : 0 ∉ tail := fun member => noNul (whole ▸ by simp [member])
    have room : tail.length < fuel := by
      have := congrArg List.length whole
      simp only [List.length_append, List.length_cons] at this
      omega
    obtain ⟨cut, ran, size, -⟩ := forTokens_fields delim f noNulTail (pre ++ field ++ [0]) post state room
    refine ⟨pre ++ field ++ [0] ++ tail ++ 0 :: post, field ++ 0 :: cut, (pre ++ field ++ [0]).length, ?_, ?_, ?_, ?_,
      takeWhile_nul noNulField _⟩
    · have := @strtok_r_more delim [] field pre post d tail (by rw [List.nil_append, whole]; exact noNul) (by simp)
        nonempty plain ender
      simpa [whole] using this
    · simpa using cstr_append noNulField pre (tail ++ 0 :: post)
    · rw [ran, fields_cons_delim _ ender]
      simp
    · rw [← whole]
      simp [size]

/-- A loop whose body makes something of the address and the text of each token, and changes at most the
    bytes of the token to others of the same number that spell the string `f token`: it leaves the strings
    `f token` of all fields, laid out in the memory of the string and its terminator, and has been given
    their addresses in order. It changes no other byte. -/
theorem eachToken_laid {σ : Type*} (delim : List Byte) (body : σ → List Byte → Nat → σ × List Byte)
    (store : σ → Nat → List Byte → σ) (f : List Byte → List Byte)
    (stored : ∀ state pre token post, 0 ∉ token → ∃ bytes : List Byte,
      body state (pre ++ token ++ 0 :: post) pre.length = (store state pre.length token, pre ++ bytes ++ 0 :: post) ∧
        bytes.length = token.length ∧ bytes.takeWhile (· ≠ 0) = f token)
    {str : List Byte} (noNul : 0 ∉ str) (pre post : List Byte) (state : σ) {fuel : Nat} (enough : str.length < fuel) :
    ∃ (region : List Byte) (ptrs : List Nat) (save : Nat),
      eachToken delim body fuel (strtok_r delim (pre ++ str ++ 0 :: post) pre.length) state =
          ((ptrs.zip (fields (among delim) str)).foldl (fun state token => store state token.1 token.2) state,
            ⟨pre ++ region ++ post, none, save⟩) ∧
        region.length = str.length + 1 ∧ Laid pre.length region ptrs ((fields (among delim) str).map f) := by
  have split := split_fields (among delim) str
  generalize fields (among delim) str = fs at split
  have spelled : ∀ bytes : List Byte, ∃ tail, bytes ++ [0] = bytes.takeWhile (· ≠ 0) ++ 0 :: tail := by
    intro bytes
    induction bytes with
    | nil => exact ⟨[], rfl⟩
    | cons b bytes ih =>
      obtain ⟨tail, same⟩ := ih
      by_cases nul : b = 0
      · exact ⟨bytes ++ [0], by simp [nul]⟩
      · exact ⟨tail, by simpa [nul] using same⟩
  have noNulTaken : ∀ {bytes : List Byte}, 0 ∉ bytes.takeWhile (· ≠ 0) := by
    intro bytes member
    simpa using List.mem_takeWhile_imp member
  induction split generalizing pre state fuel with
  | @none lead delims =>
    refine ⟨lead ++ [0], [], pre.length + lead.length, ?_, by simp, .nil⟩
    obtain ⟨fuel, rfl⟩ : ∃ n, fuel = n + 1 := ⟨fuel - 1, by omega⟩
    rw [strtok_r_none _ _ noNul delims, eachToken]
    simp
  | @last lead field delims nonempty plain =>
    have noNulField : 0 ∉ field := fun member => noNul (List.mem_append_right _ member)
    obtain ⟨bytes, ran, size, spells⟩ := stored state (pre ++ lead) field post noNulField
    obtain ⟨tail, same⟩ := spelled bytes
    rw [spells] at same
    obtain ⟨fuel, rfl⟩ : ∃ n, fuel = n + 2 := by
      have := List.length_pos_of_ne_nil nonempty
      simp only [List.length_append] at enough
      exact ⟨fuel - 2, by omega⟩
    have ended := strtok_r_end (pre ++ lead ++ bytes) post delim
    have written : bytes ++ 0 :: post = f field ++ 0 :: (tail ++ post) := by
      simpa using congrArg (· ++ post) same
    refine ⟨lead ++ f field ++ 0 :: tail ++ [], [pre.length + lead.length], (pre ++ lead ++ bytes).length, ?_, ?_, ?_⟩
    · have at_end : (pre ++ lead ++ field).length = (pre ++ lead ++ bytes).length := by
        simp [size]
      rw [strtok_r_last _ _ noNul delims nonempty plain, eachToken]
      simp only [← List.append_assoc, ← List.length_append, ran, at_end, ended, eachToken]
      simp [written]
    · have := congrArg List.length same
      simp only [List.length_append, List.length_singleton] at this
      simp only [List.append_nil, List.length_append] at this ⊢
      omega
    · exact .cons (spells ▸ noNulTaken) .nil
  | @more lead field d rest fs delims nonempty plain ends _ ih =>
    have noNulField : 0 ∉ field := fun member => noNul (by simp [member])
    have noNulRest : 0 ∉ rest := fun member => noNul (by simp [member])
    obtain ⟨bytes, ran, size, spells⟩ := stored state (pre ++ lead) field (rest ++ 0 :: post) noNulField
    obtain ⟨tail, same⟩ := spelled bytes
    rw [spells] at same
    obtain ⟨fuel, rfl⟩ : ∃ n, fuel = n + 1 := ⟨fuel - 1, by omega⟩
    obtain ⟨region, ptrs, save, run, width, laid⟩ := ih noNulRest (pre ++ lead ++ bytes ++ [0])
      (store state (pre ++ lead).length field) (show rest.length < fuel by simp at enough; omega)
    refine ⟨lead ++ f field ++ 0 :: tail ++ region, (pre.length + lead.length) :: ptrs, save, ?_, ?_, ?_⟩
    · have at_rest : (pre ++ lead ++ field ++ [0]).length = (pre ++ lead ++ bytes ++ [0]).length := by simp [size]
      have laidOut : pre ++ lead ++ bytes ++ 0 :: (rest ++ 0 :: post) = pre ++ lead ++ bytes ++ [0] ++ rest ++ 0 :: post := by
        simp
      have before : pre ++ lead ++ field ++ [0] ++ rest ++ 0 :: post = pre ++ lead ++ field ++ 0 :: (rest ++ 0 :: post) := by
        simp
      rw [strtok_r_more _ _ noNul delims nonempty plain ends, eachToken]
      simp only [before, ← List.length_append, ran]
      rw [laidOut, at_rest, run]
      simp only [List.zip_cons_cons, List.foldl_cons, Prod.mk.injEq, Scan.mk.injEq, and_true, true_and]
      rw [List.append_assoc (pre ++ lead), same]
      simp
    · have := congrArg List.length same
      simp only [List.length_append, List.length_cons, List.length_nil] at this width ⊢
      omega
    · refine .cons (spells ▸ noNulTaken) ?_
      have := congrArg List.length same
      simp only [List.length_append, List.length_cons, List.length_nil] at this laid ⊢
      rwa [show pre.length + lead.length + bytes.length + (0 + 1) =
        pre.length + (lead.length + (f field).length + (tail.length + 1)) by omega] at laid

end Clib.Strings
