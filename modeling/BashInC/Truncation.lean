import BashInC.Replacing

/-!
What `replace_variables` leaves in the string that it fills, for any length of it
and any index to start from: the first bytes of the expansion of its token, as many
as there is room for in front of the last byte, and nothing else
(`replace_variables_truncates`). Every copy keeps what the copies so far have
filled (`filled_copy`).
-/
namespace BashInC.Truncation
open Clib.Strings Clib.Buffers BashInC.IoHelpers BashInC.Expansion BashInC.Variables BashInC.Replacing

/-- A token with its variables replaced, were nothing clipped. -/
def expansion (m : Env) (w : List Byte) : List Byte := before w ++ values m w

/-- The bytes of a text that fit behind an index, in front of the last byte of a string. -/
def room (c max_str_len : Nat) (text : List Byte) : Nat := min text.length (max_str_len - 1 - c)

/-- A string filled from an index on with as much of a text as fits: nothing else of it is changed, and no write
    goes further than to the last byte but one. -/
structure Filled (final : Buffer) (c max_str_len : Nat) (text : List Byte) (r : Replacement) : Prop where
  index : r.curr_final_index = ((c + room c max_str_len text : Nat) : Int)
  data : r.final.data =
    final.data.take c ++ text.take (room c max_str_len text) ++ final.data.drop (c + room c max_str_len text)
  writes : ∃ ranges, r.final.writes = final.writes ++ ranges ∧
    ∀ range ∈ ranges, (c : Int) ≤ range.1 ∧ 0 ≤ range.2 ∧ range.1 + range.2 ≤ max_str_len - 1

section
variable {final : Buffer} {c max_str_len : Nat} (start : c < max_str_len) (size : final.data.length = max_str_len)

private theorem filled_nil : Filled final c max_str_len [] ⟨final, c⟩ where
  index := by simp [room]
  data := by simp [room]
  writes := ⟨[], by simp, by simp⟩

include start size

/-- A copy fills in as much of its source as still fits. -/
private theorem filled_copy {text : List Byte} {r : Replacement} (filled : Filled final c max_str_len text r)
    (src : List Byte) : Filled final c max_str_len (text ++ src) (r.copy max_str_len src) := by
  have fits : room c max_str_len text ≤ max_str_len - 1 - c := Nat.min_le_right ..
  have held : room c max_str_len text ≤ text.length := Nat.min_le_left ..
  obtain ⟨len, isLen⟩ : ∃ len, len = min src.length (max_str_len - 1 - (c + room c max_str_len text)) := ⟨_, rfl⟩
  have clipped : (if r.curr_final_index + (src.length : Int) ≥ max_str_len - 1 then max_str_len - 1 - r.curr_final_index
      else (src.length : Int)) = len := by
    rw [filled.index]
    split <;> omega
  have grown : room c max_str_len (text ++ src) = room c max_str_len text + len := by
    unfold room at *
    rw [List.length_append]
    omega
  have whole : r.final.data.length = max_str_len := by
    rw [filled.data, List.length_append, List.length_append, List.length_take, List.length_take, List.length_drop]
    omega
  have taken : (text ++ src).take (room c max_str_len text + len) = text.take (room c max_str_len text) ++ src.take len := by
    rw [List.take_append]
    by_cases full : room c max_str_len text = text.length
    · have all : text.take (text.length + len) = text := List.take_of_length_le (Nat.le_add_right ..)
      rw [full, all, List.take_length, Nat.add_sub_cancel_left]
    · -- nothing fits any more
      have none : len = 0 := by
        unfold room at *
        omega
      rw [none, Nat.add_zero]
      congr 2
      omega
  have inside : InRange r.final.data.length (((c + room c max_str_len text : Nat) : Int), (len : Int)) := by
    rw [whole]
    refine ⟨?_, ?_, ?_⟩ <;> simp only <;> omega
  have front : r.final.data.take (c + room c max_str_len text) =
      final.data.take c ++ text.take (room c max_str_len text) := by
    rw [filled.data]
    apply List.take_left'
    rw [List.length_append, List.length_take, List.length_take]
    omega
  have behind : r.final.data.drop (c + room c max_str_len text + len) =
      final.data.drop (c + (room c max_str_len text + len)) := by
    rw [filled.data, ← List.drop_drop, List.drop_left', List.drop_drop, Nat.add_assoc]
    rw [List.length_append, List.length_take, List.length_take]
    omega
  obtain ⟨ranges, written, kept⟩ := filled.writes
  unfold Replacement.copy
  dsimp only
  rw [clipped]
  constructor
  · dsimp only
    rw [filled.index, grown]
    omega
  · dsimp only
    rw [grown, taken, filled.index, Buffer.strncpy]
    dsimp only
    rw [if_pos inside, Int.toNat_natCast, Int.toNat_natCast, front, behind, List.take_append_of_le_length (by omega)]
    simp only [List.append_assoc]
  · refine ⟨ranges ++ [(r.curr_final_index, (len : Int))], ?_, ?_⟩
    · dsimp only
      rw [strncpy_writes, written, List.append_assoc]
    · rw [List.forall_mem_append, List.forall_mem_singleton, filled.index]
      refine ⟨kept, ?_, ?_, ?_⟩ <;> dsimp only <;> omega

private theorem filled_foldl {text : List Byte} {r : Replacement} (filled : Filled final c max_str_len text r)
    (srcs : List (List Byte)) :
    Filled final c max_str_len (text ++ srcs.flatten) (srcs.foldl (Replacement.copy max_str_len) r) := by
  induction srcs generalizing text r with
  | nil => simpa using filled
  | cons src srcs ih =>
    rw [List.flatten_cons, ← List.append_assoc, List.foldl_cons]
    exact ih (filled_copy start size filled src)

end

/-- The copies for a token spell its expansion. -/
private theorem flatten_pieces (m : Env) (w : List Byte) : (pieces m w).flatten = expansion m w := by
  have referred : ∀ names : List (List Byte), (names.filterMap m).flatten = names.flatMap fun name => (m name).getD [] := by
    intro names
    induction names with
    | nil => rfl
    | cons name names ih => cases found : m name <;> simp [found, ih]
  unfold pieces expansion values
  rw [List.flatten_append, referred]
  by_cases none : before w = []
  · simp [none]
  · simp [none]

/-- A call of `replace_variables` writes only between the index that it starts from and the last byte of `final`,
    with no negative length, and leaves there the first bytes of the expansion, as many as fit; the index that it
    returns is behind these. No `int` of the source wraps when `max_str_len` and the length of what is copied, the text
    in front of the first `$` or a value, add up to at most `INT_MAX`. -/
theorem replace_variables_truncates (vars : List Variable) {w : List Byte} (noNul : 0 ∉ w) (pre post : List Byte)
    {final : Buffer} {c max_str_len : Nat} (start : c < max_str_len) (size : final.data.length = max_str_len) :
    Filled final c max_str_len (expansion (get_var vars) w)
      (replace_variables vars (pre ++ w ++ 0 :: post) pre.length final c max_str_len).2 := by
  obtain ⟨cut, replaced, -, -⟩ := replace_variables_spec vars noNul pre post final c max_str_len
  have filled := filled_foldl start size filled_nil (pieces (get_var vars) w)
  rw [flatten_pieces, List.nil_append] at filled
  rw [replaced]
  exact filled

theorem replace_variables_truncates_dir :
    Filled (.zeros 5) 1 5 (expansion (get_var dirVars) (lit "a$y"))
      (replace_variables dirVars ([] ++ lit "a$y" ++ 0 :: []) 0 (.zeros 5) (1 : Nat) (5 : Nat)).2 :=
  replace_variables_truncates dirVars (by decide) [] [] (by decide) (length_zeros 5)

end BashInC.Truncation
