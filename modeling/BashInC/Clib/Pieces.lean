import Mathlib.Data.List.Infix
import Mathlib.Data.List.TakeWhile

/-!
A list read in pieces, as by `fgets`: a piece ends with the first delimiter, or has
as many elements as there is room for. The pieces are the list (`flatten_pieces`),
and those of a line, which ends with its only delimiter, come in front of those of
what follows it (`pieces_line`).
-/
namespace Clib.Pieces
variable {α : Type*} {p : α → Bool} {n : Nat}

/-- The elements up to the first delimiter, or `n` of them. -/
def piece (p : α → Bool) (n : Nat) (l : List α) : List α := (l.takeWhile (!p ·) ++ (l.dropWhile (!p ·)).take 1).take n

/-- The first pieces of a list, at most so many. -/
def firstPieces (p : α → Bool) (n : Nat) : Nat → List α → List (List α)
  | 0, _ => []
  | count + 1, l => if l = [] then [] else piece p n l :: firstPieces p n count (l.drop (piece p n l).length)

/-- All pieces of a list, as no piece of a list is empty. -/
def pieces (p : α → Bool) (n : Nat) (l : List α) : List (List α) := firstPieces p n l.length l

@[simp] theorem pieces_nil : pieces p n ([] : List α) = [] := rfl

theorem piece_plain {l : List α} (plain : ∀ a ∈ l, p a = false) : piece p n l = l.take n := by
  have all : ∀ a ∈ l, (!p a) = true := by simpa using plain
  rw [piece, List.takeWhile_eq_self_iff.mpr all, List.dropWhile_eq_nil_iff.mpr all, List.take_nil, List.append_nil]

theorem piece_line {body : List α} (plain : ∀ a ∈ body, p a = false) {d : α} (delim : p d = true) (rest : List α) :
    piece p n (body ++ d :: rest) = (body ++ [d]).take n := by
  have all : ∀ a ∈ body, (!p a) = true := by simpa using plain
  rw [piece, List.takeWhile_append_of_pos all, List.dropWhile_append_of_pos all, List.takeWhile_cons_of_neg (by simp [delim]),
    List.dropWhile_cons_of_neg (by simp [delim]), List.append_nil, List.take_succ_cons, List.take_zero]

theorem length_piece_le (l : List α) : (piece p n l).length ≤ n := List.length_take_le ..

/-- A piece is what the list starts with. -/
theorem piece_front (l : List α) : piece p n l <+: l := by
  have split : l.takeWhile (!p ·) ++ l.dropWhile (!p ·) = l := List.takeWhile_append_dropWhile
  have front : l.takeWhile (!p ·) ++ (l.dropWhile (!p ·)).take 1 <+: l.takeWhile (!p ·) ++ l.dropWhile (!p ·) :=
    (List.prefix_append_right_inj _).mpr (List.take_prefix _ _)
  rw [split] at front
  exact (List.take_prefix _ _).trans front

theorem piece_append_drop (l : List α) : piece p n l ++ l.drop (piece p n l).length = l := by
  have front : l.take (piece p n l).length = piece p n l := (List.prefix_iff_eq_take.mp (piece_front l)).symm
  have split := List.take_append_drop (piece p n l).length l
  rwa [front] at split

section
variable (positive : 0 < n)
include positive

theorem piece_ne_nil {l : List α} (nonempty : l ≠ []) : piece p n l ≠ [] := by
  obtain ⟨a, l, rfl⟩ := List.exists_cons_of_ne_nil nonempty
  obtain ⟨n, rfl⟩ : ∃ m, n = m + 1 := ⟨n - 1, by omega⟩
  unfold piece
  cases delim : p a <;> simp [delim]

theorem length_drop_piece {l : List α} (nonempty : l ≠ []) : (l.drop (piece p n l).length).length < l.length := by
  have some := List.length_pos_of_ne_nil (piece_ne_nil (p := p) positive nonempty)
  have all := List.length_pos_of_ne_nil nonempty
  rw [List.length_drop]
  omega

/-- Any count that is large enough gives the same pieces. -/
private theorem firstPieces_enough {count count' : Nat} {l : List α} (enough : l.length ≤ count) (enough' : l.length ≤ count') :
    firstPieces p n count l = firstPieces p n count' l := by
  induction count generalizing count' l with
  | zero =>
    obtain rfl : l = [] := List.length_eq_zero_iff.mp (by omega)
    cases count' <;> rfl
  | succ count ih =>
    by_cases nonempty : l = []
    · subst nonempty
      cases count' <;> rfl
    · have shorter := length_drop_piece (p := p) positive nonempty
      obtain ⟨count', rfl⟩ : ∃ m, count' = m + 1 := ⟨count' - 1, by omega⟩
      rw [firstPieces, firstPieces, if_neg nonempty, if_neg nonempty, @ih count' _ (by omega) (by omega)]

theorem firstPieces_eq {count : Nat} {l : List α} (enough : l.length ≤ count) : firstPieces p n count l = pieces p n l :=
  firstPieces_enough positive enough (Nat.le_refl _)

theorem pieces_cons {l : List α} (nonempty : l ≠ []) :
    pieces p n l = piece p n l :: pieces p n (l.drop (piece p n l).length) := by
  have shorter := length_drop_piece (p := p) positive nonempty
  rw [← firstPieces_eq positive (Nat.le_succ l.length), firstPieces, if_neg nonempty, firstPieces_eq positive (by omega)]

/-- Induction on a list as it is read in pieces. -/
theorem pieces_induction (p : α → Bool) {P : List α → Prop} (nil : P [])
    (cons : ∀ l, l ≠ [] → P (l.drop (piece p n l).length) → P l) (l : List α) : P l := by
  induction size : l.length using Nat.strongRecOn generalizing l with
  | ind size ih =>
    by_cases nonempty : l = []
    · rw [nonempty]
      exact nil
    · have shorter := length_drop_piece (p := p) positive nonempty
      exact cons l nonempty (ih _ (by omega) _ rfl)

/-- The pieces are the list, none is empty, and none has more than `n` elements. -/
theorem flatten_pieces (l : List α) : (pieces p n l).flatten = l := by
  induction l using pieces_induction positive p with
  | nil => rfl
  | cons l nonempty ih => rw [pieces_cons positive nonempty, List.flatten_cons, ih, piece_append_drop]

theorem mem_pieces {l q : List α} (member : q ∈ pieces p n l) : q ≠ [] ∧ q.length ≤ n := by
  induction l using pieces_induction positive p with
  | nil => cases member
  | cons l nonempty ih =>
    rw [pieces_cons positive nonempty, List.mem_cons] at member
    rcases member with rfl | later
    · exact ⟨piece_ne_nil positive nonempty, length_piece_le l⟩
    · exact ih later

/-- What follows a line does not change its pieces. -/
theorem pieces_line {body : List α} (plain : ∀ a ∈ body, p a = false) {d : α} (delim : p d = true) (rest : List α) :
    pieces p n (body ++ d :: rest) = pieces p n (body ++ [d]) ++ pieces p n rest := by
  induction size : body.length using Nat.strongRecOn generalizing body with
  | ind size ih =>
    have first := piece_line (n := n) plain delim rest
    have alone := piece_line (n := n) plain delim []
    rw [pieces_cons positive (by simp), pieces_cons (l := body ++ [d]) positive (by simp), first, alone, List.cons_append]
    by_cases fits : body.length + 1 ≤ n
    · have whole : (body ++ [d]).take n = body ++ [d] := List.take_of_length_le (by simpa using fits)
      have split : body ++ d :: rest = body ++ [d] ++ rest := by simp
      rw [whole, split, List.drop_left, List.drop_length]
      rfl
    · have cut : ((body ++ [d]).take n).length = n := by
        rw [List.length_take, List.length_append, List.length_singleton]
        omega
      have plain' : ∀ a ∈ body.drop n, p a = false := fun a member => plain a (List.mem_of_mem_drop member)
      rw [cut, List.drop_append_of_le_length (by omega), List.drop_append_of_le_length (by omega),
        ih _ (by rw [List.length_drop]; omega) plain' rfl]

end

end Clib.Pieces
