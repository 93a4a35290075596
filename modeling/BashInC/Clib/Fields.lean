import Mathlib.Data.List.Basic

/-!
The fields of a list: its maximal runs of elements that are no delimiter. `Split`
is the derivation of the fields from left to right (leading delimiters, a field,
the delimiter that ends it, the rest), and every list has exactly one
(`split_fields`, `fields_of_split`), so that a scanner which finds the fields one
by one is followed by induction on it.
-/
namespace Clib.Fields
variable {α : Type*} {p : α → Bool}

/-- The maximal runs of elements that are no delimiter, in order. -/
def fields (p : α → Bool) (l : List α) : List (List α) := (l.splitOnP p).filter fun f => !f.isEmpty

/-- The number of fields that end at a delimiter of the list, which lies behind the element `prev`. -/
def ends (p : α → Bool) : α → List α → Nat
  | _, [] => 0
  | prev, a :: l => (if !p prev && p a then 1 else 0) + ends p a l

/-- The fields of a list, found from left to right. -/
inductive Split (p : α → Bool) : List α → List (List α) → Prop
  | none {lead : List α} : (∀ a ∈ lead, p a = true) → Split p lead []
  | last {lead field : List α} : (∀ a ∈ lead, p a = true) → field ≠ [] → (∀ a ∈ field, p a = false) →
      Split p (lead ++ field) [field]
  | more {lead field : List α} {d : α} {rest : List α} {fs : List (List α)} :
      (∀ a ∈ lead, p a = true) → field ≠ [] → (∀ a ∈ field, p a = false) → p d = true → Split p rest fs →
      Split p (lead ++ field ++ d :: rest) (field :: fs)

/-- A list in which fields are written out, with delimiters in front of and behind each, at least one between two. -/
inductive Written (p : α → Bool) : List (List α) → List α → Prop
  | nil {gap : List α} : (∀ a ∈ gap, p a = true) → Written p [] gap
  | last {lead field trail : List α} : (∀ a ∈ lead, p a = true) → field ≠ [] → (∀ a ∈ field, p a = false) →
      (∀ a ∈ trail, p a = true) → Written p [field] (lead ++ field ++ trail)
  | cons {lead field gap rest f : List α} {fs : List (List α)} : (∀ a ∈ lead, p a = true) → field ≠ [] →
      (∀ a ∈ field, p a = false) → (∀ a ∈ gap, p a = true) → gap ≠ [] → Written p (f :: fs) rest →
      Written p (field :: f :: fs) (lead ++ field ++ gap ++ rest)

@[simp] theorem fields_nil : fields p [] = [] := rfl

theorem fields_append_cons (l r : List α) {d : α} (delim : p d = true) :
    fields p (l ++ d :: r) = fields p l ++ fields p r := by
  simp [fields, List.splitOnP_append_cons l r delim]

theorem fields_cons_delim (r : List α) {d : α} (delim : p d = true) : fields p (d :: r) = fields p r := by
  simpa using fields_append_cons [] r delim

theorem fields_lead_append {lead : List α} (delims : ∀ a ∈ lead, p a = true) (l : List α) :
    fields p (lead ++ l) = fields p l := by
  induction lead with
  | nil => rfl
  | cons a lead ih =>
    rw [List.cons_append, fields_cons_delim _ (delims a (by simp)), ih (fun b member => delims b (by simp [member]))]

theorem fields_delims {lead : List α} (delims : ∀ a ∈ lead, p a = true) : fields p lead = [] := by
  simpa using fields_lead_append delims []

theorem fields_append_trail (l : List α) {trail : List α} (delims : ∀ a ∈ trail, p a = true) :
    fields p (l ++ trail) = fields p l := by
  cases trail with
  | nil => rw [List.append_nil]
  | cons d trail =>
    rw [List.forall_mem_cons] at delims
    rw [fields_append_cons l trail delims.1, fields_delims delims.2, List.append_nil]

theorem fields_single {field : List α} (nonempty : field ≠ []) (plain : ∀ a ∈ field, p a = false) :
    fields p field = [field] := by
  simp [fields, List.splitOnP_eq_singleton plain, nonempty]

theorem fields_of_split {l : List α} {fs : List (List α)} (split : Split p l fs) : fields p l = fs := by
  induction split with
  | none delims => exact fields_delims delims
  | last delims nonempty plain => rw [fields_lead_append delims, fields_single nonempty plain]
  | more delims nonempty plain delim _ ih =>
    rw [fields_append_cons _ _ delim, fields_lead_append delims, fields_single nonempty plain, ih]
    rfl

private theorem split_cons_delim {a : α} (delim : p a = true) {l : List α} {fs : List (List α)}
    (split : Split p l fs) : Split p (a :: l) fs := by
  have grown : ∀ {lead : List α}, (∀ b ∈ lead, p b = true) → ∀ b ∈ a :: lead, p b = true := by
    intro lead delims b member
    rcases List.mem_cons.mp member with rfl | later
    · exact delim
    · exact delims b later
  cases split with
  | none delims => exact .none (grown delims)
  | last delims nonempty plain => exact .last (grown delims) nonempty plain
  | more delims nonempty plain ends rest => exact .more (grown delims) nonempty plain ends rest

private theorem split_cons_plain {a : α} (plain : p a = false) {l : List α} {fs : List (List α)}
    (split : Split p l fs) : ∃ gs, Split p (a :: l) gs := by
  have noLead : ∀ b ∈ ([] : List α), p b = true := by simp
  have alone : ∀ b ∈ [a], p b = false := by simpa using plain
  have grown : ∀ {field : List α}, (∀ b ∈ field, p b = false) → ∀ b ∈ a :: field, p b = false := by
    intro field plains b member
    rcases List.mem_cons.mp member with rfl | later
    · exact plain
    · exact plains b later
  -- A list that starts with a delimiter leaves `a` a field of its own; one that starts
  -- with a field has that field extended by `a`.
  cases split with
  | none delims =>
    cases l with
    | nil => exact ⟨_, .last noLead (by simp) alone⟩
    | cons d lead =>
      exact ⟨_, .more noLead (by simp) alone (delims d (by simp)) (.none fun b member => delims b (by simp [member]))⟩
  | @last lead field delims nonempty plains =>
    cases lead with
    | nil => exact ⟨_, .last noLead (by simp) (grown plains)⟩
    | cons d lead =>
      exact ⟨_, .more noLead (by simp) alone (delims d (by simp))
        (.last (fun b member => delims b (by simp [member])) nonempty plains)⟩
  | @more lead field e rest fs delims nonempty plains ends tail =>
    cases lead with
    | nil => exact ⟨_, .more noLead (by simp) (grown plains) ends tail⟩
    | cons d lead =>
      exact ⟨_, .more noLead (by simp) alone (delims d (by simp))
        (.more (fun b member => delims b (by simp [member])) nonempty plains ends tail)⟩

/-- Every list splits into its fields. -/
theorem split_fields (p : α → Bool) (l : List α) : Split p l (fields p l) := by
  have exists_split : ∃ fs, Split p l fs := by
    induction l with
    | nil => exact ⟨[], .none (by simp)⟩
    | cons a l ih =>
      obtain ⟨fs, split⟩ := ih
      cases kind : p a with
      | true => exact ⟨fs, split_cons_delim kind split⟩
      | false => exact split_cons_plain kind split
  obtain ⟨fs, split⟩ := exists_split
  rwa [fields_of_split split]

theorem fields_ne_nil {l f : List α} (member : f ∈ fields p l) : f ≠ [] := by
  have kept := (List.mem_filter.mp member).2
  intro empty
  simp [empty] at kept

/-- The fields are the elements that are no delimiter. -/
theorem flatten_fields (l : List α) : (fields p l).flatten = l.filter (!p ·) := by
  have delimiters : ∀ {l : List α}, (∀ a ∈ l, p a = true) → l.filter (!p ·) = [] := by
    intro l delims
    simpa using delims
  have plains : ∀ {l : List α}, (∀ a ∈ l, p a = false) → l.filter (!p ·) = l := by
    intro l plain
    simpa using plain
  have split := split_fields p l
  generalize fields p l = fs at split
  induction split with
  | none delims => rw [delimiters delims, List.flatten_nil]
  | last delims _ plain => simp [delimiters delims, plains plain]
  | more delims _ plain delim _ ih => simp [delimiters delims, plains plain, delim, ih]

theorem fields_eq_nil_iff {l : List α} : fields p l = [] ↔ ∀ a ∈ l, p a = true := by
  constructor
  · intro none
    have all := flatten_fields (p := p) l
    rw [none, List.flatten_nil] at all
    simpa using List.filter_eq_nil_iff.mp all.symm
  · exact fields_delims

theorem fields_plain {l f : List α} (member : f ∈ fields p l) : ∀ a ∈ f, p a = false := by
  have split := split_fields p l
  generalize fields p l = fs at split member
  induction split with
  | none => simp at member
  | last _ _ plain => simp only [List.mem_singleton] at member; subst member; exact plain
  | more _ _ plain _ _ ih =>
    rcases List.mem_cons.mp member with rfl | later
    · exact plain
    · exact ih later

theorem fields_sublist {l f : List α} (member : f ∈ fields p l) : f.Sublist l := by
  have split := split_fields p l
  generalize fields p l = fs at split member
  induction split with
  | none => simp at member
  | last => simp only [List.mem_singleton] at member; subst member; exact List.sublist_append_right _ _
  | more _ _ _ _ _ ih =>
    rcases List.mem_cons.mp member with rfl | later
    · exact (List.sublist_append_right _ _).trans (List.sublist_append_left _ _)
    · exact ((ih later).trans (List.sublist_cons_self _ _)).trans (List.sublist_append_right _ _)

/-- The fields of a list are those that are written out in it. -/
theorem fields_written {fs : List (List α)} {l : List α} (written : Written p fs l) : fields p l = fs := by
  induction written with
  | nil delims => exact fields_delims delims
  | @last lead field trail delims nonempty plain behind =>
    rw [fields_append_trail _ behind, fields_lead_append delims, fields_single nonempty plain]
  | @cons lead field gap rest f fs delims nonempty plain between some _ ih =>
    obtain ⟨d, gap, rfl⟩ := List.exists_cons_of_ne_nil some
    rw [List.forall_mem_cons] at between
    rw [List.append_assoc, List.append_assoc, fields_lead_append delims, List.cons_append,
      fields_append_cons field _ between.1, fields_single nonempty plain, fields_lead_append between.2, ih]
    rfl

theorem mem_written {fs : List (List α)} {l : List α} (written : Written p fs l) {a : α} (member : a ∈ l) :
    p a = true ∨ ∃ f ∈ fs, a ∈ f := by
  induction written with
  | nil delims => exact .inl (delims a member)
  | @last lead field trail delims _ _ behind =>
    simp only [List.mem_append] at member
    rcases member with (inLead | inField) | inTrail
    · exact .inl (delims a inLead)
    · exact .inr ⟨field, by simp, inField⟩
    · exact .inl (behind a inTrail)
  | @cons lead field gap rest f fs delims _ _ between _ _ ih =>
    simp only [List.mem_append] at member
    rcases member with ((inLead | inField) | inGap) | inRest
    · exact .inl (delims a inLead)
    · exact .inr ⟨field, by simp, inField⟩
    · exact .inl (between a inGap)
    · rcases ih inRest with delim | ⟨g, there, inField⟩
      · exact .inl delim
      · exact .inr ⟨g, List.mem_cons_of_mem _ there, inField⟩

/-- Each field but the last is followed by a delimiter, so at most every second element starts one. -/
theorem length_fields_le (p : α → Bool) (l : List α) : 2 * (fields p l).length ≤ l.length + 1 := by
  have split := split_fields p l
  generalize fields p l = fs at split
  induction split with
  | none => simp
  | last _ nonempty _ =>
    have := List.length_pos_of_ne_nil nonempty
    simp only [List.length_append, List.length_singleton]
    omega
  | more _ nonempty _ _ _ ih =>
    have := List.length_pos_of_ne_nil nonempty
    simp only [List.length_append, List.length_cons]
    omega

/-- The fields with single elements between them are no longer than the list. -/
theorem length_intercalate_fields_le (p : α → Bool) (d : α) (l : List α) :
    ([d].intercalate (fields p l)).length ≤ l.length := by
  have split := split_fields p l
  generalize fields p l = fs at split
  induction split with
  | none => simp
  | last => simp
  | @more lead field _ rest fs _ _ _ _ _ ih =>
    cases fs with
    | nil =>
      simp only [List.intercalate_singleton, List.length_append, List.length_cons]
      omega
    | cons f fs =>
      simp only [List.intercalate_cons_cons, List.length_append, List.length_cons, List.length_nil]
      omega

section
variable {β : Type*} {f g : β → List α} (shorter : ∀ w, (f w).length ≤ (g w).length) (sep : List α)
include shorter

theorem length_intercalate_map_le (ws : List β) :
    (sep.intercalate (ws.map f)).length ≤ (sep.intercalate (ws.map g)).length := by
  induction ws with
  | nil => simp
  | cons w ws ih =>
    have here := shorter w
    cases ws with
    | nil => simpa using here
    | cons w' ws =>
      simp only [List.map_cons, List.intercalate_cons_cons, List.length_append] at ih ⊢
      omega

/-- If no field is longer than its counterpart, the lists are the same only if the fields are. -/
theorem intercalate_map_eq_iff (ws : List β) :
    sep.intercalate (ws.map f) = sep.intercalate (ws.map g) ↔ ∀ w ∈ ws, f w = g w := by
  constructor
  · intro same
    induction ws with
    | nil => simp
    | cons w ws ih =>
      cases ws with
      | nil => simpa using same
      | cons w' ws =>
        have here := shorter w
        have later := length_intercalate_map_le shorter sep (w' :: ws)
        have sizes := congrArg List.length same
        simp only [List.map_cons, List.intercalate_cons_cons, List.append_assoc, List.length_append] at same sizes later ih
        obtain ⟨first, rest⟩ := List.append_inj same (by omega)
        rw [List.append_cancel_left_eq] at rest
        rw [List.forall_mem_cons]
        exact ⟨first, ih rest⟩
  · intro same
    rw [List.map_congr_left same]

end

/-! ### Counting fields -/

/-- In front of an element another one starts a field of its own only if the first is plain and the second
    a delimiter. -/
theorem length_fields_cons_cons (a b : α) (l : List α) :
    (fields p (a :: b :: l)).length = (if !p a && p b then 1 else 0) + (fields p (b :: l)).length := by
  cases first : p a with
  | true => simp [fields_cons_delim _ first]
  | false =>
    cases second : p b with
    | true =>
      have alone : fields p [a] = [[a]] := fields_single (by simp) (by simpa using first)
      rw [fields_cons_delim l second, ← List.singleton_append, fields_append_cons [a] l second, alone]
      simp
      omega
    | false =>
      unfold fields
      rw [List.splitOnP_cons_eq_if_modifyHead, List.splitOnP_cons_eq_if_modifyHead, first, second]
      cases l.splitOnP p <;> simp

theorem ends_le_length (p : α → Bool) (prev : α) (l : List α) : ends p prev l ≤ l.length := by
  induction l generalizing prev with
  | nil => simp [ends]
  | cons a l ih =>
    have rest := ih a
    rw [ends, List.length_cons]
    split <;> omega

/-- Every field ends at a delimiter, but for the last one when it ends with the list. -/
theorem ends_add_last (p : α → Bool) (prev : α) (l : List α) :
    ends p prev l + (if p ((prev :: l).getLast (List.cons_ne_nil _ _)) then 0 else 1) = (fields p (prev :: l)).length := by
  induction l generalizing prev with
  | nil =>
    cases delim : p prev with
    | true => simp [ends, delim, fields_cons_delim _ delim]
    | false =>
      have alone : fields p [prev] = [[prev]] := fields_single (by simp) (by simpa using delim)
      simp [ends, delim, alone]
  | cons a l ih =>
    rw [length_fields_cons_cons, ← ih a, ends, List.getLast_cons (List.cons_ne_nil _ _)]
    omega

end Clib.Fields
