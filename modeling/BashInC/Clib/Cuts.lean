import Mathlib.Data.List.DropRight
import BashInC.Clib.Fields

/-!
One list cut into pieces in two ways. A piece is taken for the fields in it, and a
piece without any is passed over. Two ways that are followed some way give the same
fields piece by piece exactly when the pieces are the same up to the delimiters at
their ends, also when each leaves parts of the list out that hold no field
(`fieldsOf_kept_append_iff`). When both are followed to the end it is enough that one
of them leaves out no field (`fieldsOf_kept_iff`).
-/
namespace Clib.Cuts
open Clib.Fields
variable {α : Type*} {p : α → Bool}

/-- A list without the delimiters at its ends. -/
def core (p : α → Bool) (l : List α) : List α := (l.dropWhile p).rdropWhile p

/-- The cores of the pieces that have one, in order. -/
def cores (p : α → Bool) (pieces : List (List α)) : List (List α) := (pieces.map (core p)).filter (!·.isEmpty)

/-- The fields of the pieces that have some, piece by piece. -/
def fieldsOf (p : α → Bool) (pieces : List (List α)) : List (List (List α)) := (pieces.map (fields p)).filter (!·.isEmpty)

/-! ### Cores -/

theorem core_append_trail (p : α → Bool) (l : List α) :
    ∃ trail, (∀ a ∈ trail, p a = true) ∧ l.dropWhile p = core p l ++ trail :=
  ⟨_, fun _ => List.mem_rtakeWhile_imp, List.rdropWhile_append_rtakeWhile.symm⟩

/-- A list with a field starts with its core, but for delimiters. -/
theorem dropWhile_append {l : List α} (some : fields p l ≠ []) (rest : List α) :
    ∃ trail, (∀ a ∈ trail, p a = true) ∧ (l ++ rest).dropWhile p = core p l ++ (trail ++ rest) := by
  obtain ⟨trail, delims, split⟩ := core_append_trail p l
  have begins : (l.dropWhile p).isEmpty ≠ true := by
    intro empty
    exact some (fields_delims (List.dropWhile_eq_nil_iff.mp (List.isEmpty_iff.mp empty)))
  exact ⟨trail, delims, by rw [List.dropWhile_append, if_neg begins, split, List.append_assoc]⟩

/-- The fields of a list are those of its core. -/
theorem fields_core (l : List α) : fields p (core p l) = fields p l := by
  obtain ⟨trail, delims, split⟩ := core_append_trail p l
  have lead : ∀ a ∈ l.takeWhile p, p a = true := fun _ => List.mem_takeWhile_imp
  rw [← fields_append_trail (core p l) delims, ← split, ← fields_lead_append lead, List.takeWhile_append_dropWhile]

theorem core_delims {l : List α} (delims : ∀ a ∈ l, p a = true) : core p l = [] := by
  rw [core, List.dropWhile_eq_nil_iff.mpr delims]
  rfl

theorem core_eq_nil_iff {l : List α} : core p l = [] ↔ fields p l = [] := by
  constructor
  · intro none
    rw [← fields_core, none, fields_nil]
  · intro none
    exact core_delims (fields_eq_nil_iff.mp none)

/-- No core is longer than another by elements that hold no field. -/
private theorem core_append {l l' more : List α} (longer : core p l' = core p l ++ more) (same : fields p l = fields p l') :
    more = [] := by
  have plains := congrArg (List.filter (!p ·)) longer
  rw [List.filter_append, ← flatten_fields, ← flatten_fields, fields_core, fields_core, same, List.self_eq_append_right,
    List.filter_eq_nil_iff] at plains
  by_contra some
  have nonempty : core p l' ≠ [] := by simp [longer, some]
  have delim : p (more.getLast some) = true := by simpa using plains _ (List.getLast_mem some)
  apply List.rdropWhile_last_not p (l'.dropWhile p) nonempty
  have last : (core p l').getLast nonempty = more.getLast some := by simp only [longer, List.getLast_append_of_ne_nil _ some]
  exact last ▸ delim

/-- Two lists that start with their cores start with the same one if the fields in these are the same. -/
theorem core_inj {l l' rest rest' : List α} (whole : core p l ++ rest = core p l' ++ rest') (same : fields p l = fields p l') :
    core p l = core p l' ∧ rest = rest' := by
  rcases List.append_eq_append_iff.mp whole with ⟨more, longer, rfl⟩ | ⟨more, longer, rfl⟩
  · obtain rfl := core_append longer same
    exact ⟨by rw [longer, List.append_nil], rfl⟩
  · obtain rfl := core_append longer same.symm
    exact ⟨by rw [longer, List.append_nil], rfl⟩

/-! ### Pieces -/

theorem fieldsOf_cons (piece : List α) (pieces : List (List α)) : fieldsOf p (piece :: pieces) =
    (if fields p piece = [] then [] else [fields p piece]) ++ fieldsOf p pieces := by
  by_cases none : fields p piece = [] <;> simp [fieldsOf, none]

theorem cores_cons (piece : List α) (pieces : List (List α)) : cores p (piece :: pieces) =
    (if fields p piece = [] then [] else [core p piece]) ++ cores p pieces := by
  by_cases none : fields p piece = [] <;> simp [cores, core_eq_nil_iff, none]

private theorem fieldsOf_eq (pieces : List (List α)) : fieldsOf p pieces = (cores p pieces).map (fields p) := by
  induction pieces with
  | nil => rfl
  | cons piece pieces ih =>
    rw [fieldsOf_cons, cores_cons, List.map_append, ← ih]
    split_ifs
    · rfl
    · rw [List.map_singleton, fields_core]

/-- A piece without a field is passed over. -/
theorem passed_over {piece : List α} (delims : ∀ a ∈ piece, p a = true) (pieces : List (List α)) :
    fieldsOf p (piece :: pieces) = fieldsOf p pieces ∧ cores p (piece :: pieces) = cores p pieces := by
  rw [fieldsOf_cons, cores_cons, if_pos (fields_delims delims), if_pos (fields_delims delims)]
  exact ⟨rfl, rfl⟩

/-- What is in front of the first fields, and what is behind. -/
private theorem fieldsOf_eq_cons {pieces : List (List α)} {fs : List (List α)} {more : List (List (List α))}
    (first : fieldsOf p pieces = fs :: more) : ∃ piece later, fields p piece = fs ∧ fs ≠ [] ∧ fieldsOf p later = more ∧
      cores p pieces = core p piece :: cores p later ∧
      ∀ rest, (pieces.flatten ++ rest).dropWhile p = (piece ++ (later.flatten ++ rest)).dropWhile p := by
  induction pieces with
  | nil => cases first
  | cons piece pieces ih =>
    by_cases none : fields p piece = []
    · have delims := fields_eq_nil_iff.mp none
      rw [(passed_over delims pieces).1] at first
      simp only [(passed_over delims pieces).2, List.flatten_cons, List.append_assoc, List.dropWhile_append_of_pos delims]
      exact ih first
    · rw [fieldsOf_cons, if_neg none, List.singleton_append] at first
      obtain ⟨rfl, rfl⟩ := List.cons.inj first
      exact ⟨piece, pieces, rfl, none, rfl, by rw [cores_cons, if_neg none, List.singleton_append], by simp⟩

private theorem cores_eq {pieces pieces' : List (List α)} {rest rest' : List α}
    (whole : (pieces.flatten ++ rest).dropWhile p = (pieces'.flatten ++ rest').dropWhile p)
    (same : fieldsOf p pieces = fieldsOf p pieces') : cores p pieces = cores p pieces' := by
  generalize first : fieldsOf p pieces' = found at same
  induction found generalizing pieces pieces' with
  | nil =>
    rw [fieldsOf_eq, List.map_eq_nil_iff] at same first
    rw [same, first]
  | cons fs more ih =>
    obtain ⟨piece, later, isFields, nonempty, behind, isCores, front⟩ := fieldsOf_eq_cons same
    obtain ⟨piece', later', isFields', -, behind', isCores', front'⟩ := fieldsOf_eq_cons first
    obtain ⟨trail, delims, begins⟩ := dropWhile_append (isFields ▸ nonempty) (later.flatten ++ rest)
    obtain ⟨trail', delims', begins'⟩ := dropWhile_append (isFields' ▸ nonempty) (later'.flatten ++ rest')
    rw [front, front', begins, begins'] at whole
    obtain ⟨here, beyond⟩ := core_inj whole (isFields.trans isFields'.symm)
    have further := congrArg (List.dropWhile p) beyond
    rw [List.dropWhile_append_of_pos delims, List.dropWhile_append_of_pos delims'] at further
    rw [isCores, isCores', here, ih further behind' behind]

/-! ### Pieces that are left out -/

private theorem flatten_fieldsOf (pieces : List (List α)) :
    (fieldsOf p pieces).flatten.flatten = pieces.flatten.filter (!p ·) := by
  induction pieces with
  | nil => rfl
  | cons piece pieces ih =>
    rw [List.flatten_cons, List.filter_append, ← ih, ← flatten_fields, fieldsOf_cons]
    split_ifs with none
    · rw [none]
      rfl
    · rw [List.singleton_append, List.flatten_cons, List.flatten_append]

/-- A list cut into pieces, each with what is left out behind it. -/
def whole (segments : List (List α × List α)) : List α := segments.flatMap fun s => s.1 ++ s.2

private theorem length_plains (segments : List (List α × List α)) : ((whole segments).filter (!p ·)).length =
    ((segments.map Prod.fst).flatten.filter (!p ·)).length + ((segments.map Prod.snd).flatten.filter (!p ·)).length := by
  induction segments with
  | nil => rfl
  | cons s segments ih =>
    simp only [whole, List.flatMap_cons, List.map_cons, List.flatten_cons, List.filter_append, List.length_append] at ih ⊢
    omega

private theorem nothing_left_out_iff {segments : List (List α × List α)} :
    (segments.map Prod.snd).flatten.filter (!p ·) = [] ↔ ∀ s ∈ segments, ∀ a ∈ s.2, p a = true := by
  rw [List.filter_eq_nil_iff, List.forall_mem_flatten, List.forall_mem_map]
  simp

/-- What is left out can be taken for pieces that are passed over. -/
private theorem left_out {segments : List (List α × List α)} (delims : ∀ s ∈ segments, ∀ a ∈ s.2, p a = true) :
    ∃ pieces, pieces.flatten = whole segments ∧ fieldsOf p pieces = fieldsOf p (segments.map Prod.fst) ∧
      cores p pieces = cores p (segments.map Prod.fst) := by
  induction segments with
  | nil => exact ⟨[], rfl, rfl, rfl⟩
  | cons s segments ih =>
    rw [List.forall_mem_cons] at delims
    obtain ⟨pieces, isWhole, isFields, isCores⟩ := ih delims.2
    obtain ⟨overFields, overCores⟩ := passed_over delims.1 pieces
    refine ⟨s.1 :: s.2 :: pieces, by simp [whole, isWhole], ?_, ?_⟩
    · rw [fieldsOf_cons, overFields, isFields, List.map_cons, fieldsOf_cons]
    · rw [cores_cons, overCores, isCores, List.map_cons, cores_cons]

/-- Two ways to cut a list that leave out no field give the same fields, as far as they are followed, exactly when
    they give the same cores. -/
theorem fieldsOf_kept_append_iff {segments segments' : List (List α × List α)} {rest rest' : List α}
    (same : whole segments ++ rest = whole segments' ++ rest') (delims : ∀ s ∈ segments, ∀ a ∈ s.2, p a = true)
    (delims' : ∀ s ∈ segments', ∀ a ∈ s.2, p a = true) :
    fieldsOf p (segments.map Prod.fst) = fieldsOf p (segments'.map Prod.fst) ↔
      cores p (segments.map Prod.fst) = cores p (segments'.map Prod.fst) := by
  obtain ⟨pieces, isWhole, ofFields, ofCores⟩ := left_out delims
  obtain ⟨pieces', isWhole', ofFields', ofCores'⟩ := left_out delims'
  rw [← ofFields, ← ofFields', ← ofCores, ← ofCores']
  constructor
  · exact cores_eq (by rw [isWhole, isWhole', same])
  · intro isCores
    rw [fieldsOf_eq, fieldsOf_eq, isCores]

/-- Two ways to cut a list, of which one leaves out no field, give the same fields exactly when they give
    the same cores. -/
theorem fieldsOf_kept_iff {segments segments' : List (List α × List α)} (same : whole segments = whole segments')
    (delims : ∀ s ∈ segments', ∀ a ∈ s.2, p a = true) :
    fieldsOf p (segments.map Prod.fst) = fieldsOf p (segments'.map Prod.fst) ↔
      cores p (segments.map Prod.fst) = cores p (segments'.map Prod.fst) := by
  constructor
  · intro isFields
    -- the other way keeps as many elements that are no delimiter, so it leaves out none either
    have counts := length_plains (p := p) segments
    have counts' := length_plains (p := p) segments'
    rw [nothing_left_out_iff.mpr delims, ← same, counts, ← flatten_fieldsOf (segments.map Prod.fst), isFields, flatten_fieldsOf,
      List.length_nil, Nat.add_zero, Nat.add_eq_left, List.length_eq_zero_iff] at counts'
    have appended : whole segments ++ [] = whole segments' ++ [] := by rw [same]
    exact (fieldsOf_kept_append_iff appended (nothing_left_out_iff.mp counts') delims).mp isFields
  · intro isCores
    rw [fieldsOf_eq, fieldsOf_eq, isCores]

end Clib.Cuts
