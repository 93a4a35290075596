import BashInC.Clib.Strings

/-!
`char` arrays of a fixed size. A `Buffer` records every range written to it, in
or out of bounds, so that memory safety is a statement about that record
(`InBounds`); a write that leaves the array changes none of its bytes. A buffer
that is filled from its start holds what was copied into it (`strncpy_extends`
and its relatives).
-/
namespace Clib.Buffers
open Clib.Strings

/-- A range of an array, as C computes it: the first index and the number of bytes. -/
abbrev Range := Int × Int

/-- A range with no negative length that lies in an array of `size` bytes. -/
def InRange (size : Nat) (range : Range) : Prop := 0 ≤ range.1 ∧ 0 ≤ range.2 ∧ range.1 + range.2 ≤ size

instance (size : Nat) (range : Range) : Decidable (InRange size range) := by
  unfold InRange; infer_instance

/-- An array and the ranges written to it so far. -/
structure Buffer where
  data : List Byte
  writes : List Range
  deriving DecidableEq

/-- `char b[size] = {0}`. -/
def Buffer.zeros (size : Nat) : Buffer := ⟨List.replicate size 0, []⟩

/-- Every write so far stayed in the array. -/
def Buffer.InBounds (b : Buffer) : Prop := ∀ range ∈ b.writes, InRange b.data.length range

instance (b : Buffer) : Decidable b.InBounds := by
  unfold Buffer.InBounds; infer_instance

/-- `strncpy(b + i, src, n)`, which pads a source of fewer than `n` bytes with NULs. -/
def Buffer.strncpy (b : Buffer) (i n : Int) (src : List Byte) : Buffer where
  data :=
    if InRange b.data.length (i, n) then
      b.data.take i.toNat ++ (src ++ List.replicate n.toNat 0).take n.toNat ++ b.data.drop (i.toNat + n.toNat)
    else b.data
  writes := b.writes ++ [(i, n)]

/-- `strcpy(b + i, src)`: the source and its terminator. -/
def Buffer.strcpy (b : Buffer) (i : Int) (src : List Byte) : Buffer := b.strncpy i (src.length + 1) src

/-- `b[i] = c`. -/
def Buffer.set (b : Buffer) (i : Int) (c : Byte) : Buffer := b.strncpy i 1 [c]

@[simp] theorem strncpy_writes (b : Buffer) (i n : Int) (src : List Byte) :
    (b.strncpy i n src).writes = b.writes ++ [(i, n)] := rfl

@[simp] theorem set_writes (b : Buffer) (i : Int) (c : Byte) : (b.set i c).writes = b.writes ++ [(i, 1)] := rfl

@[simp] theorem length_strncpy (b : Buffer) (i n : Int) (src : List Byte) :
    (b.strncpy i n src).data.length = b.data.length := by
  simp only [Buffer.strncpy]
  split
  · next inside =>
    obtain ⟨low, size, high⟩ := inside
    simp only [List.length_append, List.length_take, List.length_drop, List.length_replicate]
    omega
  · rfl

@[simp] theorem length_strcpy (b : Buffer) (i : Int) (src : List Byte) :
    (b.strcpy i src).data.length = b.data.length := length_strncpy ..

@[simp] theorem length_set (b : Buffer) (i : Int) (c : Byte) : (b.set i c).data.length = b.data.length :=
  length_strncpy ..

@[simp] theorem length_zeros (size : Nat) : (Buffer.zeros size).data.length = size := by simp [Buffer.zeros]

theorem inBounds_zeros (size : Nat) : (Buffer.zeros size).InBounds := by simp [Buffer.InBounds, Buffer.zeros]

/-- A write in range keeps a buffer in bounds, a write out of range never does. -/
theorem inBounds_strncpy {b : Buffer} {i n : Int} {src : List Byte} :
    (b.strncpy i n src).InBounds ↔ b.InBounds ∧ InRange b.data.length (i, n) := by
  simp only [Buffer.InBounds, length_strncpy, strncpy_writes, List.mem_append, List.mem_singleton]
  constructor
  · intro all
    exact ⟨fun range member => all range (.inl member), all (i, n) (.inr rfl)⟩
  · rintro ⟨before, last⟩ range (member | rfl)
    · exact before range member
    · exact last

theorem inBounds_strcpy {b : Buffer} {i : Int} {src : List Byte} :
    (b.strcpy i src).InBounds ↔ b.InBounds ∧ InRange b.data.length (i, (src.length : Int) + 1) := inBounds_strncpy

theorem inBounds_set {b : Buffer} {i : Int} {c : Byte} :
    (b.set i c).InBounds ↔ b.InBounds ∧ InRange b.data.length (i, 1) := inBounds_strncpy

/-! ### Buffers filled from the start -/

/-- A copy to the end of what a buffer holds extends it. -/
theorem strncpy_extends {b : Buffer} {held src : List Byte} (holds : held <+: b.data) {n : Nat}
    (room : held.length + n ≤ b.data.length) :
    held ++ (src ++ List.replicate n 0).take n <+: (b.strncpy held.length n src).data := by
  have inside : InRange b.data.length ((held.length : Int), (n : Int)) := by
    refine ⟨?_, ?_, ?_⟩ <;> simp only <;> omega
  have front : b.data.take held.length = held := (List.prefix_iff_eq_take.mp holds).symm
  simp only [Buffer.strncpy, inside, ↓reduceIte, Int.toNat_natCast, front]
  exact List.prefix_append _ _

theorem strncpy_take_extends {b : Buffer} {held src : List Byte} (holds : held <+: b.data) {n : Nat}
    (enough : n ≤ src.length) (room : held.length + n ≤ b.data.length) :
    held ++ src.take n <+: (b.strncpy held.length n src).data := by
  have := @strncpy_extends b held src holds n room
  rwa [List.take_append_of_le_length enough] at this

theorem strcpy_extends {b : Buffer} {held src : List Byte} (holds : held <+: b.data)
    (room : held.length + src.length + 1 ≤ b.data.length) :
    held ++ src ++ [0] <+: (b.strcpy held.length src).data := by
  have copied := @strncpy_extends b held src holds (src.length + 1) (by omega)
  have padded : (src ++ List.replicate (src.length + 1) 0).take (src.length + 1) = src ++ [0] := by
    rw [List.take_append, List.take_of_length_le (by omega)]
    simp
  rw [padded, ← List.append_assoc] at copied
  exact_mod_cast copied

theorem set_extends {b : Buffer} {held : List Byte} (holds : held <+: b.data) {c : Byte}
    (room : held.length + 1 ≤ b.data.length) : held ++ [c] <+: (b.set held.length c).data := by
  exact @strncpy_take_extends b held [c] holds 1 (by simp) room

/-- A terminated prefix is the string that a buffer holds. -/
theorem cstr_of_front {data str : List Byte} (noNul : 0 ∉ str) (holds : str ++ [0] <+: data) : cstr data 0 = str := by
  obtain ⟨tail, rfl⟩ := holds
  simpa using cstr_append noNul [] tail

end Clib.Buffers
