import BashInC.Clib.Buffers
import BashInC.Expansion

/-!
The variable list of the shell: `get_var` and `def_var`, with every write that
`def_var` makes into `nameBuffer` and `new_val`. The writes stay in both buffers
exactly when the referenced names and the expanded value fit
(`def_var_inBounds_iff`), and then the list refines a map from names to values
that an assignment updates with the single-pass expansion of its text
(`get_var_def_var`, `refines_run`).
-/
namespace BashInC.Variables
open Clib.Strings Clib.Buffers BashInC.Expansion

/-- A node of the linked list `vars`, without its `next`: the list holds the nodes in order. -/
structure Variable where
  name : CStr
  val : CStr
  deriving DecidableEq

/-- The value of the first node with the name, `none` for NULL. -/
def get_var : List Variable → List Byte → Option (List Byte)
  | [], _ => none
  | curr :: next, name => if curr.name.1 = name then some curr.val else get_var next name

/-! ### The expansion of `val` -/

/-- The locals of the loop that extracts a name: the index into `val` and the name so far. -/
structure NameScan where
  i : Nat
  nameBuffer : Buffer
  nameIndex : Nat

/-- `while (val[i] != '\0' && val[i] != '$' && ...) { nameBuffer[nameIndex++] = val[i++]; }` -/
def scan_name (val : List Byte) : Nat → NameScan → NameScan
  | 0, scan => scan
  | fuel + 1, scan =>
    if val.getD scan.i 0 ≠ 0 ∧ nameByte (val.getD scan.i 0) = true then
      scan_name val fuel ⟨scan.i + 1, scan.nameBuffer.set scan.nameIndex (val.getD scan.i 0), scan.nameIndex + 1⟩
    else scan

/-- The locals of the expansion: the expanded value so far, its length, and every range written to any
    of the `nameBuffer`s so far. -/
structure Expanding where
  new_val : Buffer
  new_val_index : Nat
  nameWrites : List Range

/-- `strcpy(new_val + new_val_index, s); new_val_index += strlen(s);` -/
def Expanding.append (e : Expanding) (s : List Byte) : Expanding :=
  { e with new_val := e.new_val.strcpy e.new_val_index s, new_val_index := e.new_val_index + s.length }

/-- `new_val[new_val_index++] = c;` -/
def Expanding.put (e : Expanding) (c : Byte) : Expanding :=
  { e with new_val := e.new_val.set e.new_val_index c, new_val_index := e.new_val_index + 1 }

/-- `for (size_t i = 0; i < strlen(val); i++) { ... }` from index `i` on. -/
def expand_loop (vars : List Variable) (val : List Byte) : Nat → Nat → Expanding → Expanding
  | 0, _, e => e
  | fuel + 1, i, e =>
    if i < val.length then
      if val.getD i 0 = chr '$' then
        let scan := scan_name val val.length ⟨i + 1, Buffer.zeros 128, 0⟩
        let nameBuffer := scan.nameBuffer.set scan.nameIndex 0
        let name := cstr nameBuffer.data 0
        let e := { e with nameWrites := e.nameWrites ++ nameBuffer.writes }
        let e := match get_var vars name with
          | some var_val => e.append var_val
          | none => (e.append [chr '$']).append name
        -- The index after `i--` and the `i++` of the loop.
        expand_loop vars val fuel (scan.i - 1 + 1) e
      else expand_loop vars val fuel (i + 1) (e.put (val.getD i 0))
    else e

/-- Overwrites the value of the first node with the name, if there is one. -/
def overwrite (name new_val : CStr) : List Variable → Option (List Variable)
  | [] => none
  | curr :: next =>
    if curr.name = name then some ({ curr with val := new_val } :: next)
    else (overwrite name new_val next).map (curr :: ·)

/-- What a call of `def_var` leaves: the list, and the ranges written to `nameBuffer` and `new_val`. -/
structure DefVar where
  vars : List Variable
  nameWrites : List Range
  valWrites : List Range

def def_var (vars : List Variable) (name val : CStr) : DefVar :=
  let e := expand_loop vars val (val.1.length + 1) 0 ⟨Buffer.zeros 1024, 0, []⟩
  let new_val := e.new_val.set e.new_val_index 0
  let text : CStr := ⟨cstr new_val.data 0, cstr_noNul _ _⟩
  ⟨(overwrite name text vars).getD (⟨name, text⟩ :: vars), e.nameWrites, new_val.writes⟩

/-- Every write of the call stays in `char nameBuffer[128]` and `char new_val[1024]`. -/
def DefVar.InBounds (call : DefVar) : Prop :=
  (∀ range ∈ call.nameWrites, InRange 128 range) ∧ ∀ range ∈ call.valWrites, InRange 1024 range

instance (call : DefVar) : Decidable call.InBounds := by
  unfold DefVar.InBounds; infer_instance

/-- Every referenced name fits into `nameBuffer`. -/
def NamesFit (val : List Byte) : Prop := ∀ name ∈ references val, name.length < 128

/-- The referenced names fit into `nameBuffer` and the expanded value into `new_val`. -/
def Fits (m : Env) (val : List Byte) : Prop := NamesFit val ∧ assignedSize m val < 1024

instance (val : List Byte) : Decidable (NamesFit val) := by
  unfold NamesFit; infer_instance

instance (m : Env) (val : List Byte) : Decidable (Fits m val) := by
  unfold Fits; infer_instance

/-! ### Names -/

/-- The ranges written to a `nameBuffer` for a name: one byte at a time, then the terminator. -/
def nameRanges (name : List Byte) : List Range := (List.range (name.length + 1)).map fun k : Nat => ((k : Int), 1)

private theorem getD_of_drop {val rest : List Byte} {c : Byte} {i : Nat} (at_i : val.drop i = c :: rest) :
    val.getD i 0 = c ∧ val.drop (i + 1) = rest ∧ i < val.length := by
  have inside : i < val.length := by
    by_contra outside
    rw [List.drop_eq_nil_of_le (by omega)] at at_i
    cases at_i
  rw [List.drop_eq_getElem_cons inside, List.cons.injEq] at at_i
  exact ⟨by rw [← at_i.1]; simp [inside], at_i.2, inside⟩

private theorem getD_at_end {val : List Byte} {i : Nat} (ended : val.drop i = []) : val.getD i 0 = 0 := by
  have outside := List.drop_eq_nil_iff.mp ended
  simp [outside]

/-- The loop over a name stops behind its last byte, whatever the buffer has room for. -/
private theorem scan_name_spec {val : List Byte} (noNul : 0 ∉ val) (fuel : Nat) (scan : NameScan)
    (enough : (val.drop scan.i).length ≤ fuel) :
    let name := (val.drop scan.i).takeWhile nameByte
    let out := scan_name val fuel scan
    out.i = scan.i + name.length ∧ out.nameIndex = scan.nameIndex + name.length ∧
      val.drop out.i = (val.drop scan.i).dropWhile nameByte ∧
      out.nameBuffer.data.length = scan.nameBuffer.data.length ∧
      out.nameBuffer.writes = scan.nameBuffer.writes ++
        (List.range name.length).map (fun k : Nat => (((scan.nameIndex + k : Nat) : Int), 1)) ∧
      (∀ held, held <+: scan.nameBuffer.data → held.length = scan.nameIndex →
        scan.nameIndex + name.length ≤ scan.nameBuffer.data.length → held ++ name <+: out.nameBuffer.data) := by
  induction fuel generalizing scan with
  | zero =>
    have ended : val.drop scan.i = [] := List.length_eq_zero_iff.mp (by omega)
    simp only [scan_name, ended, List.takeWhile_nil, List.dropWhile_nil, List.length_nil, List.range_zero,
      List.map_nil, List.append_nil, Nat.add_zero, true_and]
    intro held holds _ _
    exact holds
  | succ fuel ih =>
    cases at_i : val.drop scan.i with
    | nil =>
      have ended : val.getD scan.i 0 = 0 := getD_at_end at_i
      simp only [scan_name, ended, ne_eq, not_true_eq_false, false_and, ↓reduceIte, at_i, List.takeWhile_nil,
        List.dropWhile_nil, List.length_nil, List.range_zero, List.map_nil, List.append_nil, Nat.add_zero, true_and]
      intro held holds _ _
      exact holds
    | cons c rest =>
      obtain ⟨here, next, inside⟩ := getD_of_drop at_i
      have member : c ∈ val := List.mem_of_mem_drop (i := scan.i) (by rw [at_i]; simp)
      have notNul : c ≠ 0 := fun same => noNul (same ▸ member)
      by_cases part : nameByte c = true
      · have stepped := ih ⟨scan.i + 1, scan.nameBuffer.set scan.nameIndex c, scan.nameIndex + 1⟩
          (by rw [at_i] at enough; simp only [List.length_cons] at enough; rw [next]; omega)
        simp only [next, length_set, set_writes] at stepped
        obtain ⟨index, size, left, width, writes, text⟩ := stepped
        simp only [scan_name, here, ne_eq, notNul, not_false_eq_true, part, and_self, ↓reduceIte,
          List.takeWhile_cons_of_pos part, List.dropWhile_cons_of_pos part, List.length_cons]
        refine ⟨by omega, by omega, left, width, ?_, ?_⟩
        · rw [writes, List.range_succ_eq_map]
          simp [Function.comp_def, Nat.add_assoc, Nat.add_comm 1]
        · intro held holds long room
          have extended := set_extends holds (c := c) (by omega)
          rw [long] at extended
          have := text (held ++ [c]) extended (by simp [long]) (by omega)
          simpa using this
      · simp only [scan_name, here, part, and_false, ↓reduceIte, at_i, List.takeWhile_cons_of_neg part,
          List.dropWhile_cons_of_neg part, List.length_nil, List.range_zero, List.map_nil, List.append_nil,
          Nat.add_zero, true_and, Bool.false_eq_true]
        intro held holds _ _
        exact holds

/-- The name of a reference whose `$` is at index `i`, as the loop of `def_var` reads it, and the index
    where the loop goes on. -/
private theorem name_spec {val : List Byte} (noNul : 0 ∉ val) (i : Nat) :
    let name := (val.drop (i + 1)).takeWhile nameByte
    let scan := scan_name val val.length ⟨i + 1, Buffer.zeros 128, 0⟩
    let nameBuffer := scan.nameBuffer.set scan.nameIndex 0
    val.drop (scan.i - 1 + 1) = (val.drop (i + 1)).dropWhile nameByte ∧
      nameBuffer.writes = nameRanges name ∧ (name.length < 128 → cstr nameBuffer.data 0 = name) := by
  intro name scan nameBuffer
  have enough : (val.drop (i + 1)).length ≤ val.length := by simp
  obtain ⟨index, size, left, width, writes, text⟩ :=
    scan_name_spec noNul val.length ⟨i + 1, Buffer.zeros 128, 0⟩ enough
  have adjusted : scan.i - 1 + 1 = scan.i := by
    simp only [scan] at index ⊢
    omega
  refine ⟨by rw [adjusted]; exact left, ?_, ?_⟩
  · simp only [Nat.zero_add] at size writes
    simp only [nameBuffer, set_writes, scan, writes, size, nameRanges, List.range_succ, List.map_append, List.map_cons,
      List.map_nil]
    rfl
  · intro short
    have holds : name <+: scan.nameBuffer.data :=
      text [] List.nil_prefix rfl (by simpa using Nat.le_of_lt short)
    have width' : scan.nameBuffer.data.length = 128 := by simpa using width
    have size' : scan.nameIndex = name.length := by simpa using size
    have terminated : name ++ [0] <+: nameBuffer.data := by
      have := set_extends holds (c := 0) (by omega)
      rwa [← size'] at this
    refine cstr_of_front (fun member => noNul ?_) terminated
    exact List.mem_of_mem_drop ((List.takeWhile_sublist _).subset member)

/-! ### Expanded values -/

theorem get_var_mem {vars : List Variable} {name val : List Byte} (found : get_var vars name = some val) :
    ∃ v ∈ vars, v.name.1 = name ∧ v.val.1 = val := by
  induction vars with
  | nil => simp [get_var] at found
  | cons curr next ih =>
    by_cases same : curr.name.1 = name
    · exact ⟨curr, by simp, same, by simpa [get_var, same] using found⟩
    · obtain ⟨v, member, correct⟩ := ih (by simpa [get_var, same] using found)
      exact ⟨v, by simp [member], correct⟩

theorem get_var_noNul {vars : List Variable} {name val : List Byte} (found : get_var vars name = some val) : 0 ∉ val := by
  obtain ⟨v, -, -, rfl⟩ := get_var_mem found
  exact v.val.2

/-- The buffer holds the expansion so far, and no write has left it. -/
private def Holds (e : Expanding) (text : List Byte) : Prop :=
  e.new_val.InBounds ∧ text <+: e.new_val.data ∧ e.new_val_index = text.length

private theorem holds_append {e : Expanding} {text : List Byte} (holds : Holds e text) {s : List Byte}
    (room : text.length + s.length < e.new_val.data.length) : Holds (e.append s) (text ++ s) := by
  obtain ⟨bounds, front, index⟩ := holds
  refine ⟨inBounds_strcpy.mpr ⟨bounds, ?_⟩, ?_, by simp [Expanding.append, index]⟩
  · refine ⟨?_, ?_, ?_⟩ <;> simp only <;> omega
  · have copied : text ++ s ++ [0] <+: (e.new_val.strcpy text.length s).data := strcpy_extends front (by omega)
    rw [← index] at copied
    exact (List.prefix_append _ _).trans copied

private theorem holds_put {e : Expanding} {text : List Byte} (holds : Holds e text) {c : Byte}
    (room : text.length < e.new_val.data.length) : Holds (e.put c) (text ++ [c]) := by
  obtain ⟨bounds, front, index⟩ := holds
  refine ⟨inBounds_set.mpr ⟨bounds, ?_⟩, ?_, by simp [Expanding.put, index]⟩
  · refine ⟨?_, ?_, ?_⟩ <;> simp only <;> omega
  · have copied := set_extends front (c := c) (by omega)
    rwa [← index] at copied

/-- What one reference appends: the value of the name, or the reference as it is written. -/
private def appendReference (vars : List Variable) (name : List Byte) (e : Expanding) : Expanding :=
  match get_var vars name with
  | some var_val => e.append var_val
  | none => (e.append [chr '$']).append name

private theorem appendReference_index (vars : List Variable) (name : List Byte) (e : Expanding) :
    (appendReference vars name e).new_val_index =
        e.new_val_index + ((get_var vars name).getD (chr '$' :: name)).length ∧
      (appendReference vars name e).new_val.data.length = e.new_val.data.length := by
  unfold appendReference
  cases get_var vars name with
  | some var_val => simp [Expanding.append]
  | none =>
    simp only [Expanding.append, Option.getD_none, List.length_cons, List.length_nil, length_strcpy, and_true]
    omega

private theorem holds_reference (vars : List Variable) (name : List Byte) {e : Expanding} {text : List Byte}
    (holds : Holds e text)
    (room : text.length + ((get_var vars name).getD (chr '$' :: name)).length < e.new_val.data.length) :
    Holds (appendReference vars name e) (text ++ (get_var vars name).getD (chr '$' :: name)) := by
  unfold appendReference
  cases found : get_var vars name with
  | some var_val => exact holds_append holds (by simpa [found] using room)
  | none =>
    rw [found, Option.getD_none, List.length_cons] at room
    have first := holds_append holds (s := [chr '$']) (by simp only [List.length_singleton]; omega)
    have second := holds_append first (s := name) (by
      simp only [List.length_append, List.length_singleton, Expanding.append, length_strcpy]; omega)
    simpa using second

/-- The loop appends the expansion of what is left of the value. -/
private theorem expand_loop_spec {vars : List Variable} {val : List Byte} (noNul : 0 ∉ val) (fuel i : Nat)
    (e : Expanding) (enough : (val.drop i).length < fuel)
    (namesFit : ∀ name ∈ references (val.drop i), name.length < 128) :
    let rest := assigned (get_var vars) (val.drop i)
    let out := expand_loop vars val fuel i e
    out.new_val_index = e.new_val_index + rest.length ∧ out.new_val.data.length = e.new_val.data.length ∧
      ∀ text, Holds e text → text.length + rest.length < e.new_val.data.length → Holds out (text ++ rest) := by
  induction fuel generalizing i e with
  | zero => omega
  | succ fuel ih =>
    cases at_i : val.drop i with
    | nil =>
      have ended : ¬ i < val.length := by have := List.drop_eq_nil_iff.mp at_i; omega
      simp only [expand_loop, ended, ↓reduceIte, assigned_nil, List.length_nil, Nat.add_zero, List.append_nil, true_and]
      intro text holds _
      exact holds
    | cons c rest =>
      obtain ⟨here, next, inside⟩ := getD_of_drop at_i
      rw [at_i, List.length_cons] at enough
      rw [at_i] at namesFit
      simp only [expand_loop, inside, ↓reduceIte, here]
      split
      · next dollar =>
        subst dollar
        obtain ⟨left, writes, name⟩ := name_spec noNul i
        rw [next] at left writes name
        rw [references_cons_dollar] at namesFit
        rw [name (namesFit _ (by simp))]
        have shorter := (List.dropWhile_sublist (p := nameByte) (l := rest)).length_le
        -- The recorded name ranges play no part in the value.
        generalize e.nameWrites ++ Buffer.writes _ = nameWrites
        obtain ⟨index, size, text⟩ := ih _ (appendReference vars (rest.takeWhile nameByte) { e with nameWrites })
          (by rw [left]; omega) (fun n member => namesFit n (by rw [left] at member; simp [member]))
        obtain ⟨index', size'⟩ := appendReference_index vars (rest.takeWhile nameByte) { e with nameWrites }
        dsimp only at index' size'
        rw [left] at index text
        rw [assigned_cons_dollar, List.length_append]
        refine ⟨index.trans (by rw [index']; omega), size.trans size', ?_⟩
        intro held holds room
        have := text _ (holds_reference vars (rest.takeWhile nameByte) (e := { e with nameWrites }) holds
          (by dsimp only; omega)) (by rw [size', List.length_append]; omega)
        rwa [List.append_assoc] at this
      · next plain =>
        obtain ⟨index, size, text⟩ := ih (i + 1) (e.put c) (by rw [next]; omega)
          (fun n member => namesFit n (by rwa [references_cons_plain plain, ← next]))
        rw [next] at index text
        rw [assigned_cons_plain _ plain, List.length_cons]
        refine ⟨index.trans (by simp only [Expanding.put]; omega), size.trans (by simp [Expanding.put]), ?_⟩
        intro held holds room
        have := text _ (holds_put holds (c := c) (by omega)) (by simp [Expanding.put]; omega)
        simpa using this

/-- The ranges of `nameBuffer` depend on the value only: those of its references, in order. -/
private theorem expand_loop_names (vars : List Variable) {val : List Byte} (noNul : 0 ∉ val) (fuel i : Nat)
    (e : Expanding) (enough : (val.drop i).length < fuel) :
    (expand_loop vars val fuel i e).nameWrites = e.nameWrites ++ (references (val.drop i)).flatMap nameRanges := by
  induction fuel generalizing i e with
  | zero => omega
  | succ fuel ih =>
    cases at_i : val.drop i with
    | nil =>
      have ended : ¬ i < val.length := by have := List.drop_eq_nil_iff.mp at_i; omega
      simp [expand_loop, ended]
    | cons c rest =>
      obtain ⟨here, next, inside⟩ := getD_of_drop at_i
      rw [at_i, List.length_cons] at enough
      simp only [expand_loop, inside, ↓reduceIte, here]
      split
      · next dollar =>
        obtain ⟨left, writes, -⟩ := name_spec noNul i
        rw [next] at left writes
        have shorter := (List.dropWhile_sublist (p := nameByte) (l := rest)).length_le
        rw [ih _ _ (by rw [left]; omega), left, dollar, references_cons_dollar, List.flatMap_cons, ← writes]
        cases get_var vars _ <;> simp [Expanding.append]
      · next plain =>
        rw [ih (i + 1) _ (by rw [next]; omega), next, references_cons_plain plain]
        rfl

/-! ### Calls of `def_var` -/

private theorem nameRanges_inRange (name : List Byte) :
    (∀ range ∈ nameRanges name, InRange 128 range) ↔ name.length < 128 := by
  constructor
  · intro all
    have terminator : ((name.length : Int), 1) ∈ nameRanges name :=
      List.mem_map.mpr ⟨name.length, List.mem_range.mpr (by omega), rfl⟩
    obtain ⟨-, -, high⟩ := all _ terminator
    simp only at high
    omega
  · intro short range member
    obtain ⟨k, inside, rfl⟩ := List.mem_map.mp member
    have := List.mem_range.mp inside
    refine ⟨?_, ?_, ?_⟩ <;> simp only <;> omega

private theorem holds_start : Holds ⟨Buffer.zeros 1024, 0, []⟩ [] := ⟨inBounds_zeros _, List.nil_prefix, rfl⟩

/-- The loop of a call, from its fresh buffers over the whole value. -/
private theorem expand_call_spec (vars : List Variable) {val : CStr} (namesFit : NamesFit val) :
    let out := expand_loop vars val (val.1.length + 1) 0 ⟨Buffer.zeros 1024, 0, []⟩
    out.new_val_index = (assigned (get_var vars) val).length ∧ out.new_val.data.length = 1024 ∧
      ((assigned (get_var vars) val).length < 1024 → Holds out (assigned (get_var vars) val)) := by
  obtain ⟨index, size, text⟩ :=
    expand_loop_spec val.2 (val.1.length + 1) 0 ⟨Buffer.zeros 1024, 0, []⟩ (by simp) namesFit
  simp only [List.drop_zero, Nat.zero_add, length_zeros] at index size text
  refine ⟨index, size, ?_⟩
  intro short
  exact text [] holds_start (by simpa using short)

/-- A call stays in its buffers exactly when the names and the expanded value fit. -/
theorem def_var_inBounds_iff (vars : List Variable) (name val : CStr) :
    (def_var vars name val).InBounds ↔ Fits (get_var vars) val := by
  have names := expand_loop_names vars val.2 (val.1.length + 1) 0 ⟨Buffer.zeros 1024, 0, []⟩ (by simp)
  simp only [List.nil_append, List.drop_zero] at names
  have namesFit : (∀ range ∈ (def_var vars name val).nameWrites, InRange 128 range) ↔ NamesFit val := by
    simp only [def_var, names, List.mem_flatMap, NamesFit, ← nameRanges_inRange]
    constructor
    · intro all n member range inside
      exact all range ⟨n, member, inside⟩
    · rintro all range ⟨n, member, inside⟩
      exact all n member range inside
  unfold DefVar.InBounds Fits
  rw [namesFit]
  refine and_congr_right fun fit => ?_
  obtain ⟨index, size, text⟩ := expand_call_spec vars fit
  rw [← length_assigned]
  have whole : (∀ range ∈ (def_var vars name val).valWrites, InRange 1024 range) ↔
      (expand_loop vars val (val.1.length + 1) 0 ⟨Buffer.zeros 1024, 0, []⟩).new_val.InBounds ∧
        InRange 1024 ((assigned (get_var vars) val).length, 1) := by
    have := inBounds_set (b := (expand_loop vars val (val.1.length + 1) 0 ⟨Buffer.zeros 1024, 0, []⟩).new_val)
      (i := (assigned (get_var vars) val).length) (c := 0)
    rw [size] at this
    rw [← this, Buffer.InBounds, length_set, size, def_var, ← index]
  rw [whole]
  constructor
  · rintro ⟨-, -, -, high⟩
    simp only at high
    omega
  · intro short
    refine ⟨(text short).1, ?_, ?_, ?_⟩ <;> simp only <;> omega

theorem assigned_noNul (vars : List Variable) (val : CStr) : 0 ∉ assigned (get_var vars) val := by
  intro member
  rcases mem_assigned val.1 member with inVal | ⟨name, value, found, inValue⟩
  · exact val.2 inVal
  · exact get_var_noNul found inValue

/-- The expansion that a call stores. -/
def expanded (vars : List Variable) (val : CStr) : CStr := ⟨assigned (get_var vars) val, assigned_noNul vars val⟩

/-- A fitting call overwrites the value of the name, or puts a new node in front. -/
theorem def_var_vars {vars : List Variable} (name : CStr) {val : CStr} (fits : Fits (get_var vars) val) :
    (def_var vars name val).vars =
      (overwrite name (expanded vars val) vars).getD (⟨name, expanded vars val⟩ :: vars) := by
  obtain ⟨-, size, text⟩ := expand_call_spec vars fits.1
  have short : (assigned (get_var vars) val).length < 1024 := length_assigned (get_var vars) val ▸ fits.2
  obtain ⟨-, front, ends⟩ := text short
  have stored := set_extends front (c := 0) (by rw [size]; omega)
  rw [← ends] at stored
  simp only [def_var, cstr_of_front (assigned_noNul vars val) stored]
  rfl

private theorem overwrite_some {name new_val : CStr} {vars vars' : List Variable}
    (found : overwrite name new_val vars = some vars') (key : List Byte) :
    get_var vars' key = if key = name.1 then some new_val.1 else get_var vars key := by
  induction vars generalizing vars' with
  | nil => simp [overwrite] at found
  | cons curr next ih =>
    by_cases same : curr.name = name
    · simp only [overwrite, same, ↓reduceIte, Option.some.injEq] at found
      subst found
      by_cases asked : key = name.1
      · simp [get_var, asked]
      · have other : ¬ name.1 = key := fun h => asked h.symm
        simp [get_var, same, asked, other]
    · simp only [overwrite, same, ↓reduceIte, Option.map_eq_some_iff] at found
      obtain ⟨rest, inRest, rfl⟩ := found
      by_cases asked : curr.name.1 = key
      · have other : ¬ key = name.1 := fun h => same (Subtype.ext (asked.trans h))
        simp [get_var, asked, other]
      · simp [get_var, asked, ih inRest]

/-- The list after a fitting call, as a map: the name has the expanded value, and every other name
    what it had. -/
theorem get_var_def_var {vars : List Variable} (name : CStr) {val : CStr} (fits : Fits (get_var vars) val)
    (key : List Byte) : get_var (def_var vars name val).vars key =
      if key = name.1 then some (assigned (get_var vars) val) else get_var vars key := by
  rw [def_var_vars name fits]
  cases listed : overwrite name (expanded vars val) vars with
  | some vars' => exact overwrite_some listed key
  | none =>
    by_cases asked : key = name.1
    · simp [get_var, asked, expanded]
    · have other : ¬ name.1 = key := fun h => asked h.symm
      simp [get_var, asked, other]

/-! ### Runs of calls -/

/-- The list after a sequence of calls of `def_var`. -/
def run (vars : List Variable) (calls : List (CStr × CStr)) : List Variable :=
  calls.foldl (fun vars call => (def_var vars call.1 call.2).vars) vars

/-- The history after a sequence of assignments. -/
def recorded (h : History) (calls : List (CStr × CStr)) : History :=
  calls.foldl (fun h call => h.assign call.1 call.2) h

/-- Every reference name and every expanded value of a sequence of assignments fits. -/
def RunFits : History → List (CStr × CStr) → Prop
  | _, [] => True
  | h, call :: rest => Fits h.env call.2 ∧ RunFits (h.assign call.1 call.2) rest

instance decidableRunFits : ∀ (h : History) (calls : List (CStr × CStr)), Decidable (RunFits h calls)
  | _, [] => inferInstanceAs (Decidable True)
  | h, call :: rest =>
    have := decidableRunFits (h.assign call.1 call.2) rest
    inferInstanceAs (Decidable (Fits h.env call.2 ∧ RunFits (h.assign call.1 call.2) rest))

/-- A list that gives every name the value which the history gives it. -/
def Refines (vars : List Variable) (h : History) : Prop := get_var vars = h.env

/-- A fitting call refines an assignment. -/
theorem refines_def_var {vars : List Variable} {h : History} (refines : Refines vars h) (name : CStr) {val : CStr}
    (fits : Fits h.env val) : Refines (def_var vars name val).vars (h.assign name val) := by
  rw [← refines] at fits
  funext key
  rw [get_var_def_var name fits key, History.env_assign, refines]

theorem refines_run {vars : List Variable} {h : History} (refines : Refines vars h) {calls : List (CStr × CStr)}
    (fits : RunFits h calls) : Refines (run vars calls) (recorded h calls) := by
  induction calls generalizing vars h with
  | nil => exact refines
  | cons call rest ih => exact ih (refines_def_var refines call.1 fits.1) fits.2

/-- From the empty list, `get_var` returns what the newest assignment to the key has stored. -/
theorem get_var_run (calls : List (CStr × CStr)) (fits : RunFits [] calls) (key : List Byte) :
    get_var (run [] calls) key = (recorded [] calls).lookup key := by
  have empty : Refines [] [] := by funext name; rfl
  exact congrFun (refines_run empty fits) key

/-- A redefinition that refers to the name itself, adjacent references and an unbound one. -/
theorem get_var_run_self_reference :
    get_var (run [] [(⟨lit "x", by decide⟩, ⟨lit "a", by decide⟩), (⟨lit "x", by decide⟩, ⟨lit "$x$x$y$", by decide⟩)])
        (lit "x") = some (lit "aa$y$") :=
  (get_var_run _ (by decide) (lit "x")).trans (by decide)

end BashInC.Variables
