import BashInC.Options

/-!
The depth that `ls --rec --d N` lists to. `strtol` reads `N` as a `long`, cut at the
limits of one, and `bn_ls` checks what is left of that in an `int`: an integer too
large for an `int` passes when its low 32 bits look like a depth
(`bn_ls_depth_iff`).
-/
namespace BashInC.Depths
open Clib.Strings Clib.Numbers BashInC.IoHelpers BashInC.System BashInC.Listing BashInC.Options

/-- The word denotes an integer that is a depth. -/
def Representable (number : List Byte) (n : Int) : Prop := Denotes number n ∧ 0 ≤ n ∧ n ≤ INT_MAX

/-- With these tokens `bn_ls` reports an invalid depth and returns -1, and no more. -/
def RefusesDepth (mem : List Byte) (tokens : List (Option Nat)) : Prop :=
  ∀ (W : Type) (k : Kernel W) (w : W),
    let done := bn_ls k w mem tokens
    done.ret = -1 ∧ done.world = w ∧ visible done.events = display_error (lit "Invalid depth value") (lit "-1") ∧
      ∀ e ∈ done.events, e.InBounds

/-- `bn_ls` lists to the depth that the word denotes if it is one, and otherwise refuses it. -/
def Accepts (mem : List Byte) (tokens : List (Option Nat)) (number path filter : List Byte) : Prop :=
  (∀ n, Representable number n → Calls mem tokens path n filter) ∧
    ((∀ n, ¬ Representable number n) → RefusesDepth mem tokens)

/-- The integer that the word denotes, if it denotes one, is a depth, or as a `long` becomes a negative `int`. -/
def NarrowsSoundly (number : List Byte) : Prop :=
  ∀ n, Denotes number n → (0 ≤ n ∧ n ≤ INT_MAX) ∨ toInt (clampLong n) < 0

/-- The depth of a recursive listing, read off the word behind `--d`. -/
private theorem ls_depth_denotes {number : List Byte} {n : Int} (denotes : Denotes number n) :
    ls_depth true (some number) =
      if toInt (clampLong n) < 0 then .error (lit "Invalid depth value") else .ok (toInt (clampLong n)) := by
  unfold ls_depth
  simp only [strtol_denotes denotes]
  by_cases negative : toInt (clampLong n) < 0
  · simp [negative]
  · simp [negative]

private theorem ls_depth_refused {number : List Byte} (nonempty : number ≠ []) (none : ∀ n, ¬ Denotes number n) :
    ls_depth true (some number) = .error (lit "Invalid depth value") := by
  have rest : (strtol number).2 ≠ [] := by
    intro whole
    obtain ⟨n, denotes⟩ := denotes_of_strtol nonempty whole
    exact none n denotes
  unfold ls_depth
  simp [rest]

private theorem toInt_clampLong {n : Int} (low : 0 ≤ n) (high : n ≤ INT_MAX) : toInt (clampLong n) = n := by
  obtain ⟨m, rfl⟩ := Int.eq_ofNat_of_zero_le low
  have fits : m ≤ INT_MAX := by exact_mod_cast high
  have clamped : clampLong m = m := by
    unfold INT_MAX at fits
    unfold clampLong LONG_MIN LONG_MAX
    omega
  exact (congrArg toInt clamped).trans (toInt_of_fits fits)

/-- On an `ls` line with `--rec` that is otherwise valid, `bn_ls` lists to the integer that the word behind `--d`
    denotes if that is an `int` from 0 on, and refuses every other word, exactly when the integer, cut at the
    limits of a `long`, becomes no depth in an `int`. -/
theorem bn_ls_depth_iff {mem : List Byte} {ptrs : List Nat} {args : List (List Byte)} (first : Nat)
    (placed : List.Forall₂ (Token mem) ptrs args) (stale : List (Option Nat)) (recursive : lit "--rec" ∈ args)
    {number : List Byte} (given : valueOf (lit "--d") args = some number) (nonempty : number ≠ [])
    {path : Option (List Byte)} (valid : pathOf false none args = some (.path path)) :
    Accepts mem (some first :: ptrs.map some ++ none :: stale) number (path.getD (lit "./"))
        ((valueOf (lit "--f") args).getD []) ↔
      NarrowsSoundly number := by
  have refuses : ls_depth true (some number) = .error (lit "Invalid depth value") →
      RefusesDepth mem (some first :: ptrs.map some ++ none :: stale) := by
    intro wrong W k w
    have settled : ls_words k w args = some ⟨-1, display_error (lit "Invalid depth value") (lit "-1"), w⟩ := by
      simp only [ls_words, given, recursive, decide_true, wrong]
    exact bn_ls_words k w first placed stale settled
  have calls : ∀ {depth : Int}, ls_depth true (some number) = .ok depth →
      Calls mem (some first :: ptrs.map some ++ none :: stale) (path.getD (lit "./")) depth
        ((valueOf (lit "--f") args).getD []) := by
    intro depth right W k w
    have settled : ls_words k w args =
        some (list_directory k w (path.getD (lit "./")) depth ((valueOf (lit "--f") args).getD [])) := by
      simp only [ls_words, given, recursive, decide_true, right, valid]
    exact bn_ls_words k w first placed stale settled
  constructor
  · rintro ⟨-, others⟩ n denotes
    by_contra wrong
    obtain ⟨outside, positive⟩ := not_or.mp wrong
    -- the `int` is taken for a depth that the word does not denote
    have read := ls_depth_denotes denotes
    rw [if_neg positive] at read
    have refused : RefusesDepth mem (some first :: ptrs.map some ++ none :: stale) := by
      apply others
      rintro m ⟨denotes', inside⟩
      exact outside (denotes_unique denotes' denotes ▸ inside)
    exact calls_not_refuses (ls_depth_valid read) (calls read) ⟨_, refused⟩
  · intro narrowed
    constructor
    · rintro n ⟨denotes, low, high⟩
      have read := ls_depth_denotes denotes
      rw [toInt_clampLong low high, if_neg (by omega)] at read
      exact calls read
    · intro none
      apply refuses
      by_cases integer : ∃ n, Denotes number n
      · obtain ⟨n, denotes⟩ := integer
        have negative := (narrowed n denotes).resolve_left fun inside => none n ⟨denotes, inside⟩
        rw [ls_depth_denotes denotes, if_pos negative]
      · exact ls_depth_refused nonempty (not_exists.mp integer)

theorem bn_ls_depth_five :
    Accepts (tokenMemory [lit "ls", lit "--rec", lit "--d", lit "5"]) [some 0, some 3, some 9, some 13, none] (lit "5")
      (lit "./") [] := by
  refine (@bn_ls_depth_iff _ [3, 9, 13] [lit "--rec", lit "--d", lit "5"] 0 (by decide +kernel) [] (by decide) _ rfl
    (by decide) none (by decide)).mpr ?_
  intro n denotes
  obtain rfl := denotes_unique denotes (denotes_digits (by decide) (by decide +kernel))
  exact .inl (by decide +kernel)

/-- `ls --rec --d 4294967297` lists to depth 1. -/
theorem depth_taken_for_one : ¬ ∀ (mem : List Byte) (ptrs : List Nat) (args : List (List Byte)),
    List.Forall₂ (Token mem) ptrs args → ∀ (first : Nat) (stale : List (Option Nat)), lit "--rec" ∈ args →
      ∀ number, valueOf (lit "--d") args = some number → number ≠ [] →
        ∀ path, pathOf false none args = some (.path path) →
          Accepts mem (some first :: ptrs.map some ++ none :: stale) number (path.getD (lit "./"))
            ((valueOf (lit "--f") args).getD []) := by
  intro accepts
  obtain ⟨-, others⟩ := accepts (tokenMemory [lit "ls", lit "--rec", lit "--d", lit "4294967297"]) [3, 9, 13]
    [lit "--rec", lit "--d", lit "4294967297"] (by decide +kernel) 0 [] (by decide) (lit "4294967297") rfl (by decide) none
    (by decide)
  have large : ∀ n, ¬ Representable (lit "4294967297") n := by
    rintro n ⟨denotes, -, high⟩
    obtain rfl := denotes_unique denotes (denotes_digits (by decide) (by decide +kernel))
    exact absurd high (by decide +kernel)
  have refused := (others large Unit bare ()).1
  exact absurd refused (by decide +kernel)

end BashInC.Depths
