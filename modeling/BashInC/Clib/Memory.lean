import Mathlib.Data.List.Nodup
import Mathlib.Data.List.Perm.Basic

/-!
Allocated memory as blocks at addresses. An access to an address that is not
allocated, and a second `free` of one, have no result; what `malloc` returns is any
address that is not in use. `Linked` says that a chain of nodes holds a list, with
the addresses it owns: it only depends on those (`Linked.frame`), and a loop over its
nodes is a search in the list, which stops at a node that can be replaced in place
(`search_linked`).
-/
namespace Clib.Memory

/-- What is allocated, each address once, and how often something was. -/
structure Heap (C : Type*) where
  blocks : List (Nat × C)
  distinct : (blocks.map Prod.fst).Nodup
  allocations : Nat

/-- What the `n`-th call of `malloc` returns when these addresses are in use, `none` for NULL. -/
structure Allocator where
  address : Nat → List Nat → Option Nat
  fresh : ∀ n live a, address n live = some a → a ∉ live

/-- No allocation fails. -/
def Allocator.Total (A : Allocator) : Prop := ∀ n live, ∃ a, A.address n live = some a

namespace Heap
variable {C : Type*}

def empty : Heap C := ⟨[], List.nodup_nil, 0⟩

/-- The addresses in use. -/
def live (h : Heap C) : List Nat := h.blocks.map Prod.fst

def load (h : Heap C) (a : Nat) : Option C := h.blocks.lookup a

private theorem fst_update (blocks : List (Nat × C)) (a : Nat) (c : C) :
    (blocks.map fun b => if b.1 = a then (a, c) else b).map Prod.fst = blocks.map Prod.fst := by
  rw [List.map_map]
  apply List.map_congr_left
  intro b _
  by_cases same : b.1 = a <;> simp [same]

def store (h : Heap C) (a : Nat) (c : C) : Option (Heap C) :=
  if a ∈ h.live then
    some ⟨h.blocks.map fun b => if b.1 = a then (a, c) else b, (fst_update h.blocks a c).symm ▸ h.distinct, h.allocations⟩
  else none

def free (h : Heap C) (a : Nat) : Option (Heap C) :=
  if a ∈ h.live then
    some ⟨h.blocks.filter (·.1 ≠ a), (List.filter_sublist.map Prod.fst).nodup h.distinct, h.allocations⟩
  else none

private def place (h : Heap C) (a : Nat) (c : C) (unused : a ∉ h.live) : Heap C :=
  ⟨(a, c) :: h.blocks, List.nodup_cons.mpr ⟨unused, h.distinct⟩, h.allocations + 1⟩

/-- `malloc` of a block with this content: its address, or NULL, and what is allocated then. -/
def malloc (A : Allocator) (h : Heap C) (c : C) : Option Nat × Heap C :=
  match found : A.address h.allocations h.live with
  | some a => (some a, h.place a c (A.fresh _ _ _ found))
  | none => (none, { h with allocations := h.allocations + 1 })

theorem live_nodup (h : Heap C) : h.live.Nodup := h.distinct

private theorem lookup_isSome_iff (blocks : List (Nat × C)) (a : Nat) :
    (blocks.lookup a).isSome ↔ a ∈ blocks.map Prod.fst := by
  induction blocks with
  | nil => simp
  | cons b blocks ih =>
    obtain ⟨b, c⟩ := b
    by_cases same : a = b
    · simp [same]
    · have other : (a == b) = false := by simpa using same
      simp [List.lookup_cons, other, same, ih]

theorem mem_live_iff {h : Heap C} {a : Nat} : a ∈ h.live ↔ (h.load a).isSome := (lookup_isSome_iff h.blocks a).symm

/-- A store is defined at the addresses in use, and changes the content of one. -/
theorem store_spec {h : Heap C} {a : Nat} (used : a ∈ h.live) (c : C) :
    ∃ h', h.store a c = some h' ∧ h'.live = h.live ∧ h'.load a = some c ∧ ∀ b ≠ a, h'.load b = h.load b := by
  have updated : ∀ blocks : List (Nat × C), ∀ b,
      (blocks.map fun b => if b.1 = a then (a, c) else b).lookup b =
        if b = a then (blocks.lookup a).map fun _ => c else blocks.lookup b := by
    intro blocks b
    induction blocks with
    | nil => simp
    | cons block blocks ih =>
      obtain ⟨d, e⟩ := block
      rw [List.map_cons]
      by_cases here : d = a
      · subst here
        by_cases asked : b = d
        · simp [asked]
        · have other : (b == d) = false := by simpa using asked
          simp only [↓reduceIte, List.lookup_cons, other, ih, asked]
      · have elsewhere : (a == d) = false := by simpa using Ne.symm here
        by_cases asked : b = d
        · subst asked
          simp [here]
        · have other : (b == d) = false := by simpa using asked
          simp only [here, ↓reduceIte, List.lookup_cons, other, ih, elsewhere]
  obtain ⟨held, isHeld⟩ := Option.isSome_iff_exists.mp (mem_live_iff.mp used)
  have isHeld' : h.blocks.lookup a = some held := isHeld
  refine ⟨_, if_pos used, fst_update h.blocks a c, ?_, ?_⟩
  · simp [load, updated, isHeld']
  · intro b other
    simp [load, updated, other]

/-- A block is freed once. -/
theorem free_spec {h : Heap C} {a : Nat} (used : a ∈ h.live) :
    ∃ h', h.free a = some h' ∧ h'.live = h.live.erase a ∧ ∀ b ≠ a, h'.load b = h.load b := by
  have kept : ∀ blocks : List (Nat × C), ∀ b ≠ a,
      (blocks.filter fun block => decide (block.1 ≠ a)).lookup b = blocks.lookup b := by
    intro blocks b other
    induction blocks with
    | nil => rfl
    | cons block blocks ih =>
      obtain ⟨d, e⟩ := block
      by_cases here : d = a
      · have elsewhere : (b == d) = false := by simpa [here] using other
        rw [List.filter_cons_of_neg (by simp [here]), ih, List.lookup_cons, elsewhere]
      · rw [List.filter_cons_of_pos (by simp [here]), List.lookup_cons, List.lookup_cons, ih]
  refine ⟨_, if_pos used, ?_, fun b other => kept h.blocks b other⟩
  rw [h.live_nodup.erase_eq_filter, live, live, List.filter_map]
  congr 1
  apply List.filter_congr
  intro b _
  by_cases here : b.1 = a <;> simp [here]

theorem free_eq_none_iff {h : Heap C} {a : Nat} : h.free a = none ↔ a ∉ h.live := by
  simp [free]

/-- A new block, and everything else as it was. -/
theorem malloc_some {A : Allocator} {h : Heap C} {c : C} {a : Nat} (found : A.address h.allocations h.live = some a) :
    ∃ h', h.malloc A c = (some a, h') ∧ h'.live = a :: h.live ∧ h'.load a = some c ∧ ∀ b ≠ a, h'.load b = h.load b := by
  refine ⟨h.place a c (A.fresh _ _ _ found), ?_, rfl, ?_, ?_⟩
  · unfold malloc
    split
    · next b found' =>
      obtain rfl : a = b := Option.some.inj (found.symm.trans found')
      rfl
    · next missing => cases found.symm.trans missing
  · simp [load, place]
  · intro b other
    have elsewhere : (b == a) = false := by simpa using other
    simp [load, place, List.lookup_cons, elsewhere]

end Heap

/-! ### Chains of nodes -/

variable {C α : Type*}

/-- What the node at an address owns when it holds an element and refers to the next node: its own block
    among others, and nothing that lies elsewhere plays a part. -/
structure Ownership (C α : Type*) where
  Owns : Heap C → Nat → α → Option Nat → List Nat → Prop
  self : ∀ {h a x next own}, Owns h a x next own → a ∈ own
  frame : ∀ {h h' a x next own}, Owns h a x next own → (∀ b ∈ own, h'.load b = h.load b) → Owns h' a x next own

/-- The nodes from an address on hold the list, and own these addresses. -/
inductive Linked (o : Ownership C α) (h : Heap C) : Option Nat → List α → List Nat → Prop
  | nil : Linked o h none [] []
  | cons {a : Nat} {x : α} {next : Option Nat} {own : List Nat} {xs : List α} {rest : List Nat} :
      o.Owns h a x next own → Linked o h next xs rest → Linked o h (some a) (x :: xs) (own ++ rest)

/-- The node at `a` holds `x`, and can come to hold another element in its place. -/
structure Focus (o : Ownership C α) (h : Heap C) (head : Option Nat) (front : List α) (x : α) (back : List α)
    (addresses : List Nat) (a : Nat) (next : Option Nat) (before own after : List Nat) : Prop where
  split : addresses = before ++ (own ++ after)
  owns : o.Owns h a x next own
  replace : ∀ {h' : Heap C} {y : α} {own' : List Nat}, o.Owns h' a y next own' →
    (∀ b ∈ before ++ after, h'.load b = h.load b) → Linked o h' head (front ++ y :: back) (before ++ (own' ++ after))

section
variable {o : Ownership C α} {h h' : Heap C} {head : Option Nat} {xs : List α} {addresses : List Nat}

theorem Linked.frame (linked : Linked o h head xs addresses) (same : ∀ b ∈ addresses, h'.load b = h.load b) :
    Linked o h' head xs addresses := by
  induction linked with
  | nil => exact .nil
  | cons owns _ ih =>
    rw [List.forall_mem_append] at same
    exact .cons (o.frame owns same.1) (ih same.2)

theorem Linked.length_le (linked : Linked o h head xs addresses) : xs.length ≤ addresses.length := by
  induction linked with
  | nil => exact Nat.le_refl 0
  | cons owns _ ih =>
    have positive := List.length_pos_of_mem (o.self owns)
    rw [List.length_cons, List.length_append]
    omega

/-- An empty chain is NULL. -/
theorem linked_none_iff : Linked o h none xs addresses ↔ xs = [] ∧ addresses = [] := by
  constructor
  · intro linked
    cases linked
    exact ⟨rfl, rfl⟩
  · rintro ⟨rfl, rfl⟩
    exact .nil

/-! ### Loops over a chain -/

/-- `while (curr) { if (stops) break; curr = curr->next; }`: the node at which the loop stops. It has no
    result when an access has none, or when it goes on for more than `fuel` nodes. -/
def search (stops : Nat → Option Bool) (next : Nat → Option (Option Nat)) : Nat → Option Nat → Option (Option Nat)
  | _, none => some none
  | 0, some _ => none
  | fuel + 1, some curr =>
    match stops curr with
    | none => none
    | some true => some (some curr)
    | some false => (next curr).bind (search stops next fuel)

/-- A loop over the nodes of a list stops at the node of the first element found. -/
theorem search_linked {stops : Nat → Option Bool} {next : Nat → Option (Option Nat)} {found : α → Bool}
    (each : ∀ a x nx own, o.Owns h a x nx own → stops a = some (found x) ∧ next a = some nx)
    (linked : Linked o h head xs addresses) {fuel : Nat} (enough : xs.length ≤ fuel) :
    (∀ x ∈ xs, found x = false) ∧ search stops next fuel head = some none ∨
      ∃ front x back a nx before own after, xs = front ++ x :: back ∧ (∀ y ∈ front, found y = false) ∧ found x = true ∧
        search stops next fuel head = some (some a) ∧ Focus o h head front x back addresses a nx before own after := by
  induction linked generalizing fuel with
  | nil =>
    refine .inl ⟨by simp, ?_⟩
    cases fuel <;> rfl
  | @cons a x nx own xs rest owns linked ih =>
    obtain ⟨fuel, rfl⟩ : ∃ n, fuel = n + 1 := ⟨fuel - 1, by rw [List.length_cons] at enough; omega⟩
    obtain ⟨atNode, onward⟩ := each a x nx own owns
    rw [search, atNode, onward]
    cases here : found x with
    | true =>
      refine .inr ⟨[], x, xs, a, nx, [], own, rest, rfl, by simp, here, rfl, rfl, owns, ?_⟩
      intro h' y own' owns' same
      have replaced : Linked o h' (some a) (y :: xs) (own' ++ rest) := .cons owns' (linked.frame same)
      exact replaced
    | false =>
      have less : xs.length ≤ fuel := by
        rw [List.length_cons] at enough
        omega
      have later := ih less
      rcases later with ⟨none, ran⟩ | ⟨front, y, back, b, nb, before, own', after, rfl, skipped, hit, ran, focus⟩
      · refine .inl ⟨?_, ran⟩
        rw [List.forall_mem_cons]
        exact ⟨here, none⟩
      · refine .inr ⟨x :: front, y, back, b, nb, own ++ before, own', after, rfl, ?_, hit, ran, ?_, focus.owns, ?_⟩
        · rw [List.forall_mem_cons]
          exact ⟨here, skipped⟩
        · rw [focus.split, List.append_assoc]
        · intro h' z own'' owns' same
          rw [List.append_assoc, List.forall_mem_append] at same
          rw [List.append_assoc]
          exact Linked.cons (o.frame owns same.1) (focus.replace owns' same.2)

end

end Clib.Memory
