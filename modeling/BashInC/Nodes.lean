import BashInC.Bindings
import BashInC.Clib.Memory
import Mathlib.Data.List.Dedup

/-!
The variable list as it lies in memory: each `Variable` is a block that refers to
the blocks of its two strings and to the next one. `get_var` and `def_var` are the
loops over these blocks, with every `malloc`, `strdup` and `free`; an access to a
block that is not allocated has no result. They refine the list of variables
(`get_var_spec`, `def_var_spec`), and no block is lost or freed twice on the way:
what is allocated is three blocks for each variable (`Holds`).
-/
namespace BashInC.Nodes
open Clib.Strings Clib.Buffers Clib.Memory BashInC.IoHelpers BashInC.Expansion BashInC.Variables
open BashInC.Echo BashInC.System BashInC.Mysh BashInC.Commands BashInC.Sessions

/-- `struct Variable`. -/
structure Node where
  name : Option Nat
  val : Option Nat
  next : Option Nat
  deriving DecidableEq

/-- The content of a block: none yet, a `Variable`, or a string. -/
inductive Block
  | raw
  | node (n : Node)
  | text (s : CStr)
  deriving DecidableEq

/-- The heap and the global `vars`. -/
structure Memory where
  heap : Heap Block
  vars : Option Nat

/-- The memory of a process that has allocated nothing. -/
def initial : Memory := ⟨.empty, none⟩

def node (h : Heap Block) (curr : Nat) : Option Node :=
  match h.load curr with
  | some (.node n) => some n
  | _ => none

/-- The string at a pointer. -/
def string (h : Heap Block) (p : Option Nat) : Option CStr :=
  match p.bind h.load with
  | some (.text s) => some s
  | _ => none

/-- `free(p)`, which does nothing for NULL. -/
def release (h : Heap Block) : Option Nat → Option (Heap Block)
  | none => some h
  | some a => h.free a

def strdup (A : Allocator) (h : Heap Block) (s : CStr) : Option Nat × Heap Block := h.malloc A (.text s)

/-- `strcmp(curr->name, name) == 0`. -/
def named (h : Heap Block) (name : List Byte) (curr : Nat) : Option Bool := do
  let n ← node h curr
  let s ← string h n.name
  return s.1 == name

/-- `curr->next`. -/
def next (h : Heap Block) (curr : Nat) : Option (Option Nat) := (node h curr).map (·.next)

/-- The node at which a loop for the name stops. A chain of more nodes than there are blocks never ends. -/
def find (m : Memory) (name : List Byte) : Option (Option Nat) :=
  search (named m.heap name) (next m.heap) m.heap.live.length m.vars

/-- `get_var(name)`: the pointer it returns. -/
def get_var (m : Memory) (name : List Byte) : Option (Option Nat) := do
  match ← find m name with
  | some curr => return (← node m.heap curr).val
  | none => return none

/-- The string at the pointer that `get_var` returns, `none` for NULL. -/
def read_var (m : Memory) (name : List Byte) : Option (Option (List Byte)) := do
  let p ← get_var m name
  if p.isSome then
    let s ← string m.heap p
    return some s.1
  else return none

/-- The expansion of `val`, as in `Variables.expand_loop`, with the values read from memory. -/
def expand_loop (m : Memory) (val : List Byte) : Nat → Nat → Expanding → Option Expanding
  | 0, _, e => some e
  | fuel + 1, i, e =>
    if i < val.length then
      if val.getD i 0 = chr '$' then do
        let scan := scan_name val val.length ⟨i + 1, Buffer.zeros 128, 0⟩
        let nameBuffer := scan.nameBuffer.set scan.nameIndex 0
        let name := cstr nameBuffer.data 0
        let e := { e with nameWrites := e.nameWrites ++ nameBuffer.writes }
        let var_val ← get_var m name
        if var_val.isSome then
          let s ← string m.heap var_val
          expand_loop m val fuel (scan.i - 1 + 1) (e.append s)
        else expand_loop m val fuel (scan.i - 1 + 1) ((e.append [chr '$']).append name)
      else expand_loop m val fuel (i + 1) (e.put (val.getD i 0))
    else some e

/-- What `def_var` does behind the expansion: the value of the name is overwritten, or a node written. -/
def assign (A : Allocator) (m : Memory) (name new_val : CStr) : Option Memory := do
  match ← find m name with
  | some curr =>
    let n ← node m.heap curr
    let heap ← release m.heap n.val
    let (val, heap) := strdup A heap new_val
    let heap ← heap.store curr (.node { n with val := val })
    return ⟨heap, m.vars⟩
  | none =>
    let (new_var, heap) := m.heap.malloc A .raw
    let (name, heap) := strdup A heap name
    let (val, heap) := strdup A heap new_val
    let curr ← new_var
    let heap ← heap.store curr (.node ⟨name, val, m.vars⟩)
    return ⟨heap, some curr⟩

/-- `def_var(name, val)`; there is no result when a write leaves its buffer. -/
def def_var (A : Allocator) (m : Memory) (name val : CStr) : Option Memory := do
  let e ← expand_loop m val (val.1.length + 1) 0 ⟨Buffer.zeros 1024, 0, []⟩
  let new_val := e.new_val.set e.new_val_index 0
  if (∀ range ∈ e.nameWrites, InRange 128 range) ∧ ∀ range ∈ new_val.writes, InRange 1024 range then
    assign A m name ⟨cstr new_val.data 0, cstr_noNul _ _⟩
  else none

/-- The body of `while (curr)` in `free_var`, where `temp` stays the first node. -/
def free_loop (temp : Option Nat) : Nat → Option Nat → Heap Block → Option (Heap Block)
  | _, none, heap => some heap
  | 0, some _, _ => none
  | fuel + 1, some curr, heap => do
    let curr ← next heap curr
    let n ← curr.bind (node heap)
    let heap ← release heap n.name
    let n ← curr.bind (node heap)
    let heap ← release heap n.val
    let heap ← release heap temp
    free_loop temp fuel curr heap

def free_var (m : Memory) : Option (Heap Block) := free_loop m.vars m.heap.live.length m.vars m.heap

/-! ### What the blocks hold -/

/-- A node owns itself and its two strings. -/
def owned : Ownership Block Variable where
  Owns h a v next own := ∃ name val, h.load a = some (.node ⟨some name, some val, next⟩) ∧
    h.load name = some (.text v.name) ∧ h.load val = some (.text v.val) ∧ own = [a, name, val]
  self := by
    rintro h a v next own ⟨name, val, -, -, -, rfl⟩
    simp
  frame := by
    rintro h h' a v next own ⟨name, val, atNode, atName, atVal, rfl⟩ same
    refine ⟨name, val, ?_, ?_, ?_, rfl⟩
    · rw [same a (by simp), atNode]
    · rw [same name (by simp), atName]
    · rw [same val (by simp), atVal]

/-- The memory holds these variables, and nothing else is allocated. -/
def Holds (m : Memory) (vars : List Variable) : Prop :=
  ∃ addresses, Linked owned m.heap m.vars vars addresses ∧ addresses.Perm m.heap.live

/-! ### Looking up a name -/

section
variable {h : Heap Block} {a : Nat} {v : Variable} {nx : Option Nat} {own : List Nat}

private theorem node_owned (owns : owned.Owns h a v nx own) : ∃ name val, node h a = some ⟨some name, some val, nx⟩ ∧
    string h (some name) = some v.name ∧ string h (some val) = some v.val ∧ own = [a, name, val] := by
  obtain ⟨name, val, atNode, atName, atVal, split⟩ := owns
  refine ⟨name, val, ?_, ?_, ?_, split⟩
  · simp [node, atNode]
  · simp [string, atName]
  · simp [string, atVal]

private theorem loop_owned (name : List Byte) (owns : owned.Owns h a v nx own) :
    named h name a = some (v.name.1 == name) ∧ next h a = some nx := by
  obtain ⟨_, _, atNode, atName, -, -⟩ := node_owned owns
  simp [named, next, atNode, atName]

end

theorem get_var_eq_none_iff {vars : List Variable} {name : List Byte} :
    Variables.get_var vars name = none ↔ ∀ v ∈ vars, v.name.1 ≠ name := by
  induction vars with
  | nil => simp [Variables.get_var]
  | cons v vars ih =>
    by_cases same : v.name.1 = name <;> simp [Variables.get_var, same, ih]

section
variable {front back : List Variable} {v : Variable} {name : List Byte} (others : ∀ u ∈ front, u.name.1 ≠ name)
  (here : v.name.1 = name)
include others here

private theorem get_var_first : Variables.get_var (front ++ v :: back) name = some v.val.1 := by
  induction front with
  | nil => simp [Variables.get_var, here]
  | cons u front ih =>
    rw [List.forall_mem_cons] at others
    simp [Variables.get_var, others.1, ih others.2]

end

private theorem overwrite_first {front back : List Variable} {v : Variable} {name : CStr}
    (others : ∀ u ∈ front, u.name.1 ≠ name.1) (here : v.name.1 = name.1) (new_val : CStr) :
    overwrite name new_val (front ++ v :: back) = some (front ++ { v with val := new_val } :: back) := by
  induction front with
  | nil => simp [overwrite, Subtype.ext here]
  | cons u front ih =>
    rw [List.forall_mem_cons] at others
    have differs : u.name ≠ name := fun same => others.1 (congrArg Subtype.val same)
    simp [overwrite, differs, ih others.2]

private theorem overwrite_none {vars : List Variable} {name : CStr} (others : ∀ u ∈ vars, u.name.1 ≠ name.1)
    (new_val : CStr) : overwrite name new_val vars = none := by
  induction vars with
  | nil => rfl
  | cons u vars ih =>
    rw [List.forall_mem_cons] at others
    have differs : u.name ≠ name := fun same => others.1 (congrArg Subtype.val same)
    simp [overwrite, differs, ih others.2]

section
variable {m : Memory} {vars : List Variable}

/-- A loop for a name ends, at the node of the first variable with it if there is one. -/
private theorem find_spec {addresses : List Nat} (linked : Linked owned m.heap m.vars vars addresses)
    (all : addresses.Perm m.heap.live) (name : List Byte) :
    (∀ v ∈ vars, v.name.1 ≠ name) ∧ find m name = some none ∨
      ∃ front v back a nx before own after, vars = front ++ v :: back ∧ (∀ u ∈ front, u.name.1 ≠ name) ∧
        v.name.1 = name ∧ find m name = some (some a) ∧
        Focus owned m.heap m.vars front v back addresses a nx before own after := by
  have enough : vars.length ≤ m.heap.live.length := all.length_eq ▸ linked.length_le
  have each := fun (a : Nat) (v : Variable) (nx : Option Nat) (own : List Nat) (owns : owned.Owns m.heap a v nx own) =>
    loop_owned name owns
  have searched := search_linked each linked enough
  simp only [beq_eq_false_iff_ne, beq_iff_eq] at searched
  exact searched

/-- `get_var` returns NULL for a name that is not bound, else a pointer to its value. -/
theorem get_var_spec (holds : Holds m vars) (name : List Byte) :
    match Variables.get_var vars name with
    | none => get_var m name = some none
    | some val => ∃ p s, get_var m name = some (some p) ∧ string m.heap (some p) = some s ∧ s.1 = val := by
  obtain ⟨addresses, linked, all⟩ := holds
  rcases find_spec linked all name with
    ⟨others, ran⟩ | ⟨front, v, back, a, nx, before, own, after, rfl, others, here, ran, focus⟩
  · rw [get_var_eq_none_iff.mpr others]
    simp [get_var, ran]
  · obtain ⟨_, val, atNode, -, atVal, -⟩ := node_owned focus.owns
    rw [get_var_first others here]
    exact ⟨val, v.val, by simp [get_var, ran, atNode], atVal, rfl⟩

theorem read_var_eq (holds : Holds m vars) (name : List Byte) : read_var m name = some (Variables.get_var vars name) := by
  have looked := get_var_spec holds name
  split at looked
  · next unbound => simp [read_var, looked, unbound]
  · next val bound =>
    obtain ⟨p, s, pointer, text, rfl⟩ := looked
    simp [read_var, pointer, text, bound]

/-! ### Assignments -/

theorem expand_loop_eq (holds : Holds m vars) (val : List Byte) (fuel i : Nat) (e : Expanding) :
    expand_loop m val fuel i e = some (Variables.expand_loop vars val fuel i e) := by
  induction fuel generalizing i e with
  | zero => rfl
  | succ fuel ih =>
    unfold expand_loop Variables.expand_loop
    split_ifs with inside dollar
    · have looked := get_var_spec holds
        (cstr ((scan_name val val.length ⟨i + 1, Buffer.zeros 128, 0⟩).nameBuffer.set
          (scan_name val val.length ⟨i + 1, Buffer.zeros 128, 0⟩).nameIndex 0).data 0)
      dsimp only
      split at looked
      · next unbound => simp [looked, unbound, ih]
      · next text bound =>
        obtain ⟨p, s, pointer, read, rfl⟩ := looked
        simp [pointer, read, bound, ih]
    · exact ih _ _
    · rfl

/-- The value of a node is freed, and the copy of the new one takes its place. -/
private theorem overwritten {A : Allocator} (total : A.Total) {front back : List Variable} {v : Variable}
    {addresses before own after : List Nat} {a : Nat} {nx : Option Nat}
    (focus : Focus owned m.heap m.vars front v back addresses a nx before own after) (all : addresses.Perm m.heap.live)
    (text : CStr) :
    ∃ n h h', node m.heap a = some n ∧ release m.heap n.val = some h ∧
      (strdup A h text).2.store a (.node { n with val := (strdup A h text).1 }) = some h' ∧
      Holds ⟨h', m.vars⟩ (front ++ { v with val := text } :: back) := by
  obtain ⟨name, val, isNode, -, -, rfl⟩ := node_owned focus.owns
  obtain ⟨_, _, atNode, atName, -, same⟩ := focus.owns
  obtain ⟨-, rfl, rfl⟩ : a = a ∧ name = _ ∧ val = _ := by simpa using same
  have split := focus.split
  have distinct : addresses.Nodup := all.nodup_iff.mpr m.heap.live_nodup
  -- the addresses but the one of the value
  have moved : (val :: (before ++ ([a, name] ++ after))).Perm m.heap.live := by
    refine List.Perm.trans ?_ all
    rw [split]
    have := (@List.perm_middle _ val (before ++ [a, name]) after).symm
    simpa using this
  have apart := moved.nodup_iff.mpr m.heap.live_nodup
  rw [List.nodup_cons] at apart
  obtain ⟨unshared, apart⟩ := apart
  obtain ⟨h, freed, liveFreed, keptFreed⟩ := Heap.free_spec (moved.subset List.mem_cons_self)
  have rest : (before ++ ([a, name] ++ after)).Perm h.live := by
    have := moved.erase val
    rwa [List.erase_cons_head, ← liveFreed] at this
  obtain ⟨copy, isCopy⟩ := total h.allocations h.live
  obtain ⟨h', copied, liveCopied, atCopy, keptCopied⟩ := Heap.malloc_some (c := Block.text text) isCopy
  have unused : copy ∉ before ++ ([a, name] ++ after) := fun member => A.fresh _ _ _ isCopy (rest.subset member)
  obtain ⟨h'', stored, liveStored, atStored, keptStored⟩ := Heap.store_spec (h := h') (a := a)
    (by rw [liveCopied]; exact List.mem_cons_of_mem _ (rest.subset (by simp))) (.node ⟨some name, some copy, nx⟩)
  have untouched : ∀ b ∈ before ++ ([name] ++ after), h''.load b = m.heap.load b := by
    intro b member
    have inRest : b ∈ before ++ ([a, name] ++ after) := by
      simp only [List.mem_append, List.mem_cons, List.not_mem_nil, or_false] at member ⊢
      tauto
    have notNode : b ≠ a := by
      rintro rfl
      have once := apart
      rw [List.nodup_append] at once
      simp only [List.cons_append, List.nil_append, List.mem_cons, List.mem_append] at once member
      rcases member with inFront | isName | inBack
      · exact once.2.2 b inFront b (by simp) rfl
      · simp [isName] at once
      · simp [inBack] at once
    rw [keptStored b notNode, keptCopied b (fun same => unused (same ▸ inRest)),
      keptFreed b (fun same => unshared (same ▸ inRest))]
  have notNode : copy ≠ a := fun same => unused (by simp [same])
  have owns : owned.Owns h'' a { v with val := text } nx [a, name, copy] := by
    refine ⟨name, copy, atStored, ?_, ?_, rfl⟩
    · rw [untouched name (by simp), atName]
    · rw [keptStored copy notNode, atCopy]
  refine ⟨_, h, h'', isNode, freed, by rw [strdup, copied]; exact stored, _, focus.replace owns ?_, ?_⟩
  · intro b member
    apply untouched
    simp only [List.mem_append, List.mem_cons, List.not_mem_nil, or_false] at member ⊢
    tauto
  · rw [liveStored, liveCopied]
    refine List.Perm.trans ?_ (rest.cons copy)
    have := @List.perm_middle _ copy (before ++ [a, name]) after
    simpa using this

/-- A new node comes in front of the others, with copies of its name and its value. -/
private theorem pushed {A : Allocator} (total : A.Total) (holds : Holds m vars) (name text : CStr) :
    let made := m.heap.malloc A .raw
    let named := strdup A made.2 name
    let valued := strdup A named.2 text
    ∃ a h, made.1 = some a ∧ valued.2.store a (.node ⟨named.1, valued.1, m.vars⟩) = some h ∧
      Holds ⟨h, some a⟩ (⟨name, text⟩ :: vars) := by
  intro made named valued
  obtain ⟨addresses, linked, all⟩ := holds
  obtain ⟨a, isNew⟩ := total m.heap.allocations m.heap.live
  obtain ⟨h₁, made', live₁, -, kept₁⟩ := Heap.malloc_some (c := Block.raw) isNew
  obtain ⟨b, isName⟩ := total h₁.allocations h₁.live
  obtain ⟨h₂, named', live₂, at₂, kept₂⟩ := Heap.malloc_some (c := Block.text name) isName
  obtain ⟨c, isVal⟩ := total h₂.allocations h₂.live
  obtain ⟨h₃, valued', live₃, at₃, kept₃⟩ := Heap.malloc_some (c := Block.text text) isVal
  have isMade : made = (some a, h₁) := made'
  have isNamed : named = (some b, h₂) := by rw [← named']; simp only [named, isMade, strdup]
  have isValued : valued = (some c, h₃) := by rw [← valued']; simp only [valued, isNamed, strdup]
  have live : h₃.live = c :: b :: a :: m.heap.live := by rw [live₃, live₂, live₁]
  have distinct := h₃.live_nodup
  rw [live] at distinct
  simp only [List.nodup_cons, List.mem_cons, not_or] at distinct
  obtain ⟨⟨cb, ca, cUnused⟩, ⟨ba, bUnused⟩, aUnused, -⟩ := distinct
  obtain ⟨h, stored, live₄, at₄, kept₄⟩ := Heap.store_spec (h := h₃) (a := a) (by simp [live]) (.node ⟨some b, some c, m.vars⟩)
  refine ⟨a, h, by rw [isMade], by rw [isValued, isNamed]; exact stored, [a, b, c] ++ addresses, .cons ?_ (linked.frame ?_), ?_⟩
  · refine ⟨b, c, at₄, ?_, ?_, rfl⟩
    · rw [kept₄ b ba, kept₃ b (Ne.symm cb), at₂]
    · rw [kept₄ c ca, at₃]
  · intro d member
    have used := all.subset member
    have notA : d ≠ a := fun same => aUnused (same ▸ used)
    have notB : d ≠ b := fun same => bUnused (same ▸ used)
    have notC : d ≠ c := fun same => cUnused (same ▸ used)
    rw [kept₄ d notA, kept₃ d notC, kept₂ d notB, kept₁ d notA]
  · rw [live₄, live]
    have order : [a, b, c].Perm [c, b, a] := by
      refine List.Perm.trans ?_ (List.reverse_perm [c, b, a])
      exact List.Perm.refl _
    exact order.append all

private theorem assign_spec {A : Allocator} (total : A.Total) (holds : Holds m vars) (name text : CStr) :
    ∃ m', assign A m name text = some m' ∧ Holds m' ((overwrite name text vars).getD (⟨name, text⟩ :: vars)) := by
  obtain ⟨addresses, linked, all⟩ := holds
  rcases find_spec linked all name with
    ⟨others, ran⟩ | ⟨front, v, back, a, nx, before, own, after, rfl, others, here, ran, focus⟩
  · obtain ⟨a, h, made, stored, holds⟩ := pushed total ⟨addresses, linked, all⟩ name text
    refine ⟨⟨h, some a⟩, ?_, ?_⟩
    · simp [assign, ran, made, stored]
    · rwa [overwrite_none others, Option.getD_none]
  · obtain ⟨n, h, h', isNode, freed, stored, holds⟩ := overwritten total focus all text
    refine ⟨⟨h', m.vars⟩, ?_, ?_⟩
    · simp [assign, ran, isNode, freed, stored]
    · rwa [overwrite_first others here, Option.getD_some]

/-- `def_var` on memory is `def_var` on the list that it holds, exactly when the call stays in its buffers. -/
theorem def_var_spec {A : Allocator} (total : A.Total) (holds : Holds m vars) (name val : CStr) :
    (∃ m', def_var A m name val = some m' ∧ Holds m' (Variables.def_var vars name val).vars) ∧
        (Variables.def_var vars name val).InBounds ∨
      def_var A m name val = none ∧ ¬ (Variables.def_var vars name val).InBounds := by
  have expanded := expand_loop_eq holds val (val.1.length + 1) 0 ⟨Buffer.zeros 1024, 0, []⟩
  by_cases inBounds : (Variables.def_var vars name val).InBounds
  · obtain ⟨m', assigned, holds'⟩ := assign_spec total holds name _
    refine .inl ⟨⟨m', ?_, holds'⟩, inBounds⟩
    rw [def_var, expanded]
    exact (if_pos inBounds).trans assigned
  · refine .inr ⟨?_, inBounds⟩
    rw [def_var, expanded]
    exact if_neg inBounds

end

/-! ### Runs -/

/-- The memory after a sequence of calls of `def_var`. -/
def run (A : Allocator) : Memory → List (CStr × CStr) → Option Memory
  | m, [] => some m
  | m, call :: rest => (def_var A m call.1 call.2).bind (run A · rest)

theorem holds_initial : Holds initial [] := ⟨[], .nil, List.Perm.refl _⟩

private theorem run_spec {A : Allocator} (total : A.Total) {m : Memory} {vars : List Variable} (holds : Holds m vars)
    {h : History} (refines : Refines vars h) (calls : List (CStr × CStr)) :
    (∃ m', run A m calls = some m' ∧ Holds m' (Variables.run vars calls)) ∧ RunFits h calls ∨
      run A m calls = none ∧ ¬ RunFits h calls := by
  induction calls generalizing m vars h with
  | nil => exact .inl ⟨⟨m, rfl, holds⟩, trivial⟩
  | cons call rest ih =>
    obtain ⟨name, val⟩ := call
    have fits := def_var_inBounds_iff vars name val
    rw [refines] at fits
    rcases def_var_spec total holds name val with ⟨⟨m', ran, holds'⟩, inBounds⟩ | ⟨ran, overflows⟩
    · have later := ih holds' (refines_def_var refines name (fits.mp inBounds))
      simp only [run, ran, Option.bind_some]
      rcases later with ⟨done, fit⟩ | ⟨stuck, unfit⟩
      · exact .inl ⟨done, fits.mp inBounds, fit⟩
      · exact .inr ⟨stuck, fun both => unfit both.2⟩
    · refine .inr ⟨?_, fun both => overflows (fits.mpr both.1)⟩
      simp only [run, ran, Option.bind_none]

/-- A sequence of assignments has a defined course in memory exactly when every reference name and every
    expanded value fits: no access to a block that is not allocated and no second `free` comes on top. -/
theorem run_isSome_iff {A : Allocator} (total : A.Total) (calls : List (CStr × CStr)) :
    (run A initial calls).isSome ↔ RunFits [] calls := by
  rcases run_spec total holds_initial (h := []) (by funext name; rfl) calls with ⟨⟨m, ran, -⟩, fits⟩ | ⟨ran, unfit⟩
  · simp [ran, fits]
  · simp [ran, unfit]

/-- `malloc` returns the address above all that are in use. -/
def above : Allocator where
  address _ live := some (live.foldr max 0 + 1)
  fresh := by
    intro _ live a isAbove member
    have bounded : ∀ l : List Nat, ∀ b ∈ l, b ≤ l.foldr max 0 := by
      intro l
      induction l with
      | nil => simp
      | cons c l ih =>
        rw [List.forall_mem_cons]
        exact ⟨Nat.le_max_left _ _, fun b member => (ih b member).trans (Nat.le_max_right _ _)⟩
    have := bounded live a member
    rw [Option.some.injEq] at isAbove
    omega

theorem above_total : above.Total := fun _ _ => ⟨_, rfl⟩

/-- A name is assigned twice, the second time to its own value, and another one in between. -/
def selfReferring : List (CStr × CStr) :=
  [(CStr.of (lit "x"), CStr.of (lit "a")), (CStr.of (lit "y"), CStr.of (lit "b")),
    (CStr.of (lit "x"), CStr.of (lit "$x$y$x$"))]

theorem run_isSome_self_referring : (run above initial selfReferring).isSome ↔ RunFits [] selfReferring :=
  run_isSome_iff above_total selfReferring

private theorem run_self_referring : ∃ m, run above initial selfReferring = some m :=
  Option.isSome_iff_exists.mp (by decide +kernel)

private theorem run_holds {A : Allocator} (total : A.Total) {calls : List (CStr × CStr)} {m : Memory}
    (ran : run A initial calls = some m) : Holds m (Variables.run [] calls) ∧ RunFits [] calls := by
  rcases run_spec total holds_initial (h := []) (by funext name; rfl) calls with ⟨⟨m', ran', holds⟩, fits⟩ | ⟨stuck, -⟩
  · rw [ran] at ran'
    cases ran'
    exact ⟨holds, fits⟩
  · rw [ran] at stuck
    cases stuck

/-- After any sequence of assignments `get_var` returns NULL for the names that none of them has assigned,
    and else a pointer to what the newest of them has stored. -/
theorem read_var_after_run {A : Allocator} (total : A.Total) {calls : List (CStr × CStr)} {m : Memory}
    (ran : run A initial calls = some m) (key : List Byte) : read_var m key = some ((recorded [] calls).lookup key) := by
  obtain ⟨holds, fits⟩ := run_holds total ran
  have refines := @refines_run [] [] (by funext name; rfl) calls fits
  rw [read_var_eq holds, refines]
  rfl

theorem read_var_self_referring : ∃ m, run above initial selfReferring = some m ∧
    read_var m (lit "x") = some (some (lit "aba$")) ∧ read_var m (lit "z") = some none := by
  obtain ⟨m, ran⟩ := run_self_referring
  exact ⟨m, ran, (read_var_after_run above_total ran (lit "x")).trans (by decide),
    (read_var_after_run above_total ran (lit "z")).trans (by decide)⟩

private theorem names_overwrite (name new_val : CStr) (vars : List Variable) :
    ((overwrite name new_val vars).getD (⟨name, new_val⟩ :: vars)).map (·.name) =
      if name ∈ vars.map (·.name) then vars.map (·.name) else name :: vars.map (·.name) := by
  have named : ∀ vars : List Variable, (overwrite name new_val vars).map (List.map (·.name)) =
      if name ∈ vars.map (·.name) then some (vars.map (·.name)) else none := by
    intro vars
    induction vars with
    | nil => rfl
    | cons v vars ih =>
      by_cases same : v.name = name
      · simp [overwrite, same]
      · simp only [overwrite, same, ↓reduceIte, Option.map_map, List.map_cons, List.mem_cons, Ne.symm same, false_or]
        have := congrArg (Option.map (v.name :: ·)) ih
        rw [Option.map_map] at this
        refine Eq.trans ?_ (this.trans ?_)
        · rfl
        · split_ifs <;> rfl
  have here := named vars
  split_ifs at here ⊢ with member
  · obtain ⟨vars', found, names⟩ := Option.map_eq_some_iff.mp here
    rw [found, Option.getD_some, names]
  · rw [Option.map_eq_none_iff.mp here]
    rfl

/-- The variables after a sequence of calls have the names that were assigned, each once. -/
private theorem names_run (calls : List (CStr × CStr)) {vars : List Variable} (distinct : (vars.map (·.name)).Nodup) :
    ((Variables.run vars calls).map (·.name)).Nodup ∧
      ∀ name, name ∈ (Variables.run vars calls).map (·.name) ↔ name ∈ vars.map (·.name) ∨ name ∈ calls.map (·.1) := by
  induction calls generalizing vars with
  | nil => simpa [Variables.run] using distinct
  | cons call rest ih =>
    obtain ⟨name, val⟩ := call
    have names : ((Variables.def_var vars name val).vars).map (·.name) =
        if name ∈ vars.map (·.name) then vars.map (·.name) else name :: vars.map (·.name) := names_overwrite ..
    have kept : (((Variables.def_var vars name val).vars).map (·.name)).Nodup := by
      rw [names]
      split_ifs with member
      · exact distinct
      · exact List.nodup_cons.mpr ⟨member, distinct⟩
    obtain ⟨distinct', members⟩ := ih kept
    refine ⟨distinct', fun key => ?_⟩
    have all := members key
    rw [names] at all
    refine all.trans ?_
    rw [List.map_cons, List.mem_cons]
    split_ifs with member
    · constructor
      · rintro (old | later)
        · exact .inl old
        · exact .inr (.inr later)
      · rintro (old | rfl | later)
        · exact .inl old
        · exact .inl member
        · exact .inr later
    · rw [List.mem_cons]
      tauto

/-- Each variable owns three blocks, and there are no others. -/
theorem length_live {m : Memory} {vars : List Variable} (holds : Holds m vars) : m.heap.live.length = 3 * vars.length := by
  obtain ⟨addresses, linked, all⟩ := holds
  rw [← all.length_eq]
  generalize m.vars = head at linked
  clear all
  induction linked with
  | nil => rfl
  | cons owns _ ih =>
    obtain ⟨name, val, -, -, -, rfl⟩ := owns
    rw [List.length_append, ih, List.length_cons]
    simp only [List.length_cons, List.length_nil]
    omega

/-- No assignment loses a block: after any sequence of them, as many are allocated as three for each name
    that was assigned. -/
theorem live_after_run {A : Allocator} (total : A.Total) {calls : List (CStr × CStr)} {m : Memory}
    (ran : run A initial calls = some m) : m.heap.live.length = 3 * (calls.map (·.1)).dedup.length := by
  obtain ⟨holds, -⟩ := run_holds total ran
  obtain ⟨distinct, members⟩ := @names_run calls [] List.nodup_nil
  have names : ((Variables.run [] calls).map (·.name)).Perm (calls.map (·.1)).dedup := by
    rw [List.perm_ext_iff_of_nodup distinct (List.nodup_dedup _)]
    intro name
    rw [members, List.mem_dedup]
    simp
  rw [length_live holds, ← names.length_eq, List.length_map]

theorem live_self_referring : ∃ m, run above initial selfReferring = some m ∧ m.heap.live.length = 6 := by
  obtain ⟨m, ran⟩ := run_self_referring
  exact ⟨m, ran, (live_after_run above_total ran).trans (by decide)⟩

/-! ### Sessions -/

section
variable {W : Type*} {k : Kernel W} {A : Allocator} (total : A.Total)

/-- The assignments that the lines of a session make, in order. -/
def assignments (lines : List (Residue × List Byte)) : List (CStr × CStr) :=
  lines.filterMap fun line => assignmentIn (words (CStr.of line.2))

include total

private theorem memory_after {s s' : Shell W} (sized : s.Sized) {m : Memory} (holds : Holds m s.vars)
    {lines : List (Residue × List Byte)} (short : ∀ l ∈ lines, l.2.length ≤ MAX_STR_LEN) (ran : after k s lines = some s') :
    ∃ m', run A m (assignments lines) = some m' ∧ Holds m' s'.vars := by
  induction lines generalizing s m with
  | nil =>
    cases ran
    exact ⟨m, rfl, holds⟩
  | cons line lines ih =>
    obtain ⟨stack, line⟩ := line
    have here : line.length ≤ MAX_STR_LEN := short (stack, line) (by simp)
    have later : ∀ l ∈ lines, l.2.length ≤ MAX_STR_LEN := fun l member => short l (by simp [member])
    rw [after] at ran
    split at ran
    · next s₁ round =>
      have stepped := step_next_vars sized here round
      have sized₁ := sized_step sized here round
      cases assigns : assignmentIn (words (CStr.of line)) with
      | none =>
        rw [assigns] at stepped
        have same : assignments ((stack, line) :: lines) = assignments lines := by simp [assignments, assigns]
        rw [same]
        exact ih sized₁ (stepped ▸ holds) later ran
      | some call =>
        obtain ⟨name, val⟩ := call
        rw [assigns] at stepped
        obtain ⟨fits, vars⟩ := stepped
        have more : assignments ((stack, line) :: lines) = (name, val) :: assignments lines := by simp [assignments, assigns]
        rcases def_var_spec total holds name val with ⟨⟨m₁, called, holds₁⟩, -⟩ | ⟨-, overflows⟩
        · rw [more, run, called, Option.bind_some]
          exact ih sized₁ (vars ▸ holds₁) later ran
        · exact absurd ((def_var_inBounds_iff s.vars name val).mpr fits) overflows
    · cases ran

/-- Behind any session that still runs the memory has come to hold just the variables of the shell: every
    `malloc`, `free` and access on the way was defined, `get_var` finds what the list has, and three blocks
    for each variable are all that is allocated. -/
theorem session_memory (stack : Residue) (w : W) {lines : List (Residue × List Byte)}
    (short : ∀ l ∈ lines, l.2.length ≤ MAX_STR_LEN) {s : Shell W} (ran : after k (start stack w) lines = some s) :
    ∃ m, run A initial (assignments lines) = some m ∧ m.heap.live.length = 3 * s.vars.length ∧
      ∀ key, read_var m key = some (Variables.get_var s.vars key) := by
  have sized := reachable_sized (Reachable.start (k := k) stack w)
  obtain ⟨m, called, holds⟩ := memory_after total sized (m := initial) holds_initial short ran
  exact ⟨m, called, length_live holds, read_var_eq holds⟩

end

theorem session_memory_referring : ∃ s m, after bare (start zeros ()) referring = some s ∧
    run above initial (assignments referring) = some m ∧ m.heap.live.length = 3 * s.vars.length := by
  obtain ⟨s, ran⟩ := Option.isSome_iff_exists.mp (show (after bare (start zeros ()) referring).isSome = true by decide +kernel)
  obtain ⟨m, called, blocks, -⟩ := session_memory above_total zeros () (show ∀ l ∈ referring, _ by decide +kernel) ran
  exact ⟨s, m, ran, called, blocks⟩

/-! ### Freeing the list -/

private theorem live_release {h h' : Heap Block} {p : Option Nat} (freed : release h p = some h') : h'.live ⊆ h.live := by
  cases p with
  | none =>
    cases freed
    exact List.Subset.refl _
  | some a =>
    by_cases used : a ∈ h.live
    · obtain ⟨h₁, freed₁, live, -⟩ := Heap.free_spec used
      obtain rfl : h₁ = h' := Option.some.inj (freed₁.symm.trans freed)
      rw [live]
      exact List.erase_subset
    · rw [release, Heap.free_eq_none_iff.mpr used] at freed
      cases freed

/-- The second time round `temp` is freed again, if the loop has come so far. -/
private theorem free_loop_freed {a : Nat} {h : Heap Block} (gone : a ∉ h.live) (fuel b : Nat) :
    free_loop (some a) fuel (some b) h = none := by
  cases fuel with
  | zero => rfl
  | succ fuel =>
    unfold free_loop
    simp only [Option.bind_eq_bind, Option.bind_eq_none_iff]
    intro curr _ n _ h₁ freed₁ n' _ h₂ freed₂ h₃ freed₃
    have still : a ∉ h₂.live := fun member => gone (live_release freed₁ (live_release freed₂ member))
    rw [release, Heap.free_eq_none_iff.mpr still] at freed₃
    cases freed₃

/-- `free_var` is defined where there is nothing to free: else it reads through the NULL behind the second node or
    the only one, or frees the first of more nodes twice. -/
private theorem free_var_isSome_iff (m : Memory) : (free_var m).isSome ↔ m.vars = none := by
  unfold free_var
  cases head : m.vars with
  | none => cases m.heap.live.length <;> simp [free_loop]
  | some a =>
    have undefined : free_loop (some a) m.heap.live.length (some a) m.heap = none := by
      cases m.heap.live.length with
      | zero => rfl
      | succ fuel =>
        unfold free_loop
        simp only [Option.bind_eq_bind, Option.bind_eq_none_iff]
        intro curr _ n isNode h₁ freed₁ n' _ h₂ freed₂ h₃ freed₃
        cases curr with
        | none => cases isNode
        | some b =>
          have used : a ∈ h₂.live := by
            by_contra unused
            rw [release, Heap.free_eq_none_iff.mpr unused] at freed₃
            cases freed₃
          obtain ⟨h, freed, live, -⟩ := Heap.free_spec used
          obtain rfl : h = h₃ := Option.some.inj (freed.symm.trans freed₃)
          apply free_loop_freed
          rw [live, h₂.live_nodup.mem_erase_iff]
          simp
    simp [undefined]

/-- After any sequence of assignments `free_var` has no defined course, unless there were none. -/
theorem free_var_after_run {A : Allocator} (total : A.Total) {calls : List (CStr × CStr)} {m : Memory}
    (ran : run A initial calls = some m) : (free_var m).isSome ↔ calls = [] := by
  obtain ⟨⟨addresses, linked, -⟩, -⟩ := run_holds total ran
  obtain ⟨-, members⟩ := @names_run calls [] List.nodup_nil
  rw [free_var_isSome_iff]
  constructor
  · intro head
    rw [head, linked_none_iff] at linked
    rw [linked.1] at members
    cases calls with
    | nil => rfl
    | cons call rest => simpa using members call.1
  · rintro rfl
    cases ran
    rfl

/-- Behind any session that still runs `free_var` has a defined course on the memory only if no line has assigned
    a variable. -/
theorem session_free_var {W : Type*} {k : Kernel W} {A : Allocator} (total : A.Total) (stack : Residue) (w : W)
    {lines : List (Residue × List Byte)} (short : ∀ l ∈ lines, l.2.length ≤ MAX_STR_LEN) {s : Shell W}
    (ran : after k (start stack w) lines = some s) :
    ∃ m, run A initial (assignments lines) = some m ∧ ((free_var m).isSome ↔ assignments lines = []) := by
  have sized := reachable_sized (Reachable.start (k := k) stack w)
  obtain ⟨m, called, -⟩ := memory_after total sized (m := initial) holds_initial short ran
  exact ⟨m, called, free_var_after_run total called⟩

theorem session_free_var_referring : ∃ m, run above initial (assignments referring) = some m ∧
    ((free_var m).isSome ↔ assignments referring = []) := by
  obtain ⟨s, ran⟩ := Option.isSome_iff_exists.mp (show (after bare (start zeros ()) referring).isSome = true by decide +kernel)
  exact session_free_var above_total zeros () (show ∀ l ∈ referring, _ by decide +kernel) ran

end BashInC.Nodes
