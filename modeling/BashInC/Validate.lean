import BashInC.Clib.Streams
import BashInC.Files

/-!
The password checker of week 7. It reads the password file in pieces of at most 30
bytes, removes the last byte of each, and decides by the first that starts with the
user id. `validate_decides_iff` says for which files this is what the first line of
the user decides.
-/
namespace BashInC.Validate
open Clib.Strings Clib.Streams Clib.Pieces BashInC.Files

def MAXLINE : Nat := 32

def MAX_PASSWORD : Nat := 10

/-- What is written to stderr. -/
inductive Report
  | perror (s : List Byte)
  | fprintf (text : List Byte)
  deriving DecidableEq

structure Exit where
  status : Nat
  report : Option Report
  deriving DecidableEq

/-- `strncat(dest, src, n)` -/
def strncat (dest src : List Byte) (n : Nat) : List Byte := dest ++ src.take n

theorem strncat_fits {src : List Byte} {n : Nat} (fits : src.length ≤ n) (dest : List Byte) :
    strncat dest src n = dest ++ src := by
  rw [strncat, List.take_of_length_le fits]

/-- The string in an array once a newline in it is replaced by a terminator. -/
def cutNewline (bytes : List Byte) : List Byte := (CStr.of bytes).1.takeWhile (· ≠ chr '\n')

/-- `while(fgets(line, sizeof(line) - 1, fp)) { ... }`; `none` where `line[strlen(line) - 1]` is in front of the array. -/
def check_lines (userid : List Byte) (user_length : Nat) : Nat → List Byte → Option Exit
  | 0, _ => some ⟨3, none⟩
  | fuel + 1, content =>
    match fgets (MAXLINE - 1) content with
    | none => some ⟨3, none⟩
    | some (line, rest) =>
      let line := (CStr.of line).1
      if line = [] then none
      else
        let line := line.dropLast
        if userid = line then some ⟨0, none⟩
        else if userid.take user_length = line.take user_length then some ⟨2, none⟩
        else check_lines userid user_length fuel rest

/-- `main`, on what is read from stdin and the content of the password file, `none` if it does not open; `none`
    where its behaviour is not defined. -/
def main (stdin : Deliveries) (password_file : Option (List Byte)) : Option Exit :=
  let couldNotRead := Report.fprintf (lit "Error: could not read from stdin")
  match read MAX_PASSWORD stdin with
  | (none, _) => some ⟨1, some (.perror (lit "read"))⟩
  | (some [], _) => some ⟨1, some couldNotRead⟩
  | (some bytes, stdin) =>
    let userid := cutNewline bytes
    match read MAX_PASSWORD stdin with
    | (none, _) => some ⟨1, some (.perror (lit "read"))⟩
    | (some [], _) => some ⟨1, some couldNotRead⟩
    | (some bytes, _) =>
      let password := cutNewline bytes
      let userid := strncat userid (lit ":") (MAXLINE - userid.length - 1)
      let user_length := userid.length
      let userid := strncat userid password (MAXLINE - userid.length - 1)
      match password_file with
      | none => some ⟨1, some (.perror (lit "fopen"))⟩
      | some content => check_lines userid user_length (content.length + 1) content

/-! ### Verdicts -/

/-- The verdict of an entry of the user, by the entry that it should be. -/
def status (entry e : List Byte) : Nat := if e = entry then 0 else 2

/-- The verdict of some entries: that of the first one of the user, or that there is none. -/
def verdict (user entry : List Byte) (entries : List (List Byte)) : Nat :=
  match entries.find? (user <+: ·) with
  | some e => status entry e
  | none => 3

/-- What is compared of some bytes: their pieces, each without its last byte. -/
def compared (bytes : List Byte) : List (List Byte) := (pieces (· == chr '\n') 30 bytes).map List.dropLast

/-- For the lines of a file, of which all but the last have a newline: the first line of the user has one, or more
    than 30 bytes, or is neither the entry, nor that with another byte, nor without a password; and in front of it
    no piece of a line behind its first one looks like an entry of the user, or the first that does leads to the
    same verdict. -/
def Kept (user entry : List Byte) : List (List Byte) → Prop
  | [] => True
  | line :: rest =>
    if user <+: line then rest ≠ [] ∨ 30 < line.length ∨ line ≠ user ∧ line ≠ entry ∧ line.dropLast ≠ entry
    else
      match (compared (if rest = [] then line else line ++ [chr '\n'])).tail.find? (user <+: ·) with
      | some e => verdict user entry rest = status entry e
      | none => Kept user entry rest

/-- A user id with its colon, and an entry that it starts. -/
structure Login (user entry : List Byte) : Prop where
  nonempty : user ≠ []
  short : user.length ≤ 11
  starts : user <+: entry
  fits : entry.length ≤ 21

section
variable {user entry : List Byte}

private theorem status_ne (entry e : List Byte) : status entry e ≠ 3 := by
  unfold status
  split <;> decide

private theorem verdict_cons (e : List Byte) (entries : List (List Byte)) :
    verdict user entry (e :: entries) = if user <+: e then status entry e else verdict user entry entries := by
  unfold verdict
  rw [List.find?_cons]
  by_cases isUser : user <+: e <;> simp [isUser]

private theorem verdict_append (entries more : List (List Byte)) :
    verdict user entry (entries ++ more) =
      match entries.find? (user <+: ·) with
      | some e => status entry e
      | none => verdict user entry more := by
  unfold verdict
  rw [List.find?_append]
  cases entries.find? (user <+: ·) <;> rfl

private theorem newline_free {body : List Byte} (plain : chr '\n' ∉ body) : ∀ b ∈ body, (b == chr '\n') = false := by
  intro b member
  rw [beq_eq_false_iff_ne]
  rintro rfl
  exact plain member

private theorem compared_line {body : List Byte} (plain : chr '\n' ∉ body) (rest : List Byte) :
    compared (body ++ chr '\n' :: rest) = compared (body ++ [chr '\n']) ++ compared rest := by
  rw [compared, pieces_line (by decide) (newline_free plain) (beq_self_eq_true _), List.map_append]
  rfl

private theorem compared_cons {bytes : List Byte} (nonempty : bytes ≠ []) :
    compared bytes = (piece (· == chr '\n') 30 bytes).dropLast :: (compared bytes).tail := by
  rw [compared, pieces_cons (by decide) nonempty]
  rfl

/-- The first piece compared of a line with its newline. -/
private theorem compared_head {body : List Byte} (plain : chr '\n' ∉ body) :
    compared (body ++ [chr '\n']) = body.take 29 :: (compared (body ++ [chr '\n'])).tail := by
  have first : (piece (· == chr '\n') 30 (body ++ [chr '\n'])).dropLast = body.take 29 := by
    rw [piece_line (newline_free plain) (beq_self_eq_true _), List.dropLast_eq_take, List.length_take, List.length_append,
      List.length_singleton, List.take_take, List.take_append]
    have none : min (min 30 (body.length + 1) - 1) 30 - body.length = 0 := by omega
    rw [none, List.take_zero, List.append_nil, List.take_eq_take_iff]
    omega
  have cut := compared_cons (show body ++ [chr '\n'] ≠ [] by simp)
  rwa [first] at cut

/-- That of a last line without one. -/
private theorem compared_last {body : List Byte} (plain : chr '\n' ∉ body) (nonempty : body ≠ []) :
    compared body = (body.take 30).dropLast :: (compared body).tail := by
  have cut := compared_cons nonempty
  rwa [piece_plain (newline_free plain)] at cut

private theorem compared_short {body : List Byte} (plain : chr '\n' ∉ body) (nonempty : body ≠ []) (short : body.length ≤ 30) :
    compared body = [body.dropLast] := by
  have whole : piece (· == chr '\n') 30 body = body := by
    rw [piece_plain (newline_free plain), List.take_of_length_le short]
  rw [compared, pieces_cons (by decide) nonempty, whole, List.drop_length]
  rfl

variable (login : Login user entry)
include login

/-- The first 29 bytes of a line decide about it as the whole line does. -/
private theorem take_decides (line : List Byte) :
    (user <+: line.take 29 ↔ user <+: line) ∧ status entry (line.take 29) = status entry line := by
  have short := login.short
  have fits := login.fits
  constructor
  · constructor
    · exact fun starts => starts.trans (List.take_prefix _ _)
    · intro starts
      rw [List.prefix_take_iff]
      exact ⟨starts, by omega⟩
  · have same : line.take 29 = entry ↔ line = entry := by
      constructor
      · intro isEntry
        have size := congrArg List.length isEntry
        rw [List.length_take] at size
        rwa [List.take_of_length_le (by omega)] at isEntry
      · rintro rfl
        exact List.take_of_length_le (by omega)
    simp only [status, same]

/-- A last line without a newline decides the verdict as a line does exactly when its last byte does not matter. -/
private theorem verdict_last_iff {line : List Byte} (plain : chr '\n' ∉ line) (isUser : user <+: line) :
    verdict user entry (compared line) = status entry line ↔
      30 < line.length ∨ line ≠ user ∧ line ≠ entry ∧ line.dropLast ≠ entry := by
  have short := login.short
  have nonempty : line ≠ [] := by
    rintro rfl
    exact login.nonempty (List.prefix_nil.mp isUser)
  by_cases long : 30 < line.length
  · have first : (line.take 30).dropLast = line.take 29 := by
      rw [List.dropLast_eq_take, List.length_take, List.take_take, List.take_eq_take_iff]
      omega
    obtain ⟨starts, same⟩ := take_decides login line
    rw [compared_last plain nonempty, verdict_cons, first, if_pos (starts.mpr isUser), same]
    exact iff_of_true rfl (.inl long)
  · rw [compared_short plain nonempty (by omega), verdict_cons, or_iff_right long]
    obtain ⟨tail, rfl⟩ := isUser
    by_cases bare : tail = []
    · -- the colon is cut off
      have cut : ¬ user <+: (user ++ tail).dropLast := by
        intro starts
        have size := starts.length_le
        have some := List.length_pos_of_ne_nil login.nonempty
        rw [bare, List.append_nil, List.length_dropLast] at size
        omega
      rw [if_neg cut, bare]
      exact iff_of_false (status_ne _ _).symm fun others => others.1 (List.append_nil user)
    · have starts : user <+: (user ++ tail).dropLast := by
        rw [List.dropLast_append_of_ne_nil bare]
        exact List.prefix_append _ _
      have more : user ++ tail ≠ user := by simpa using bare
      have differ : (user ++ tail).dropLast ≠ user ++ tail := by
        intro same
        have size := congrArg List.length same
        have some := List.length_pos_of_ne_nil nonempty
        rw [List.length_dropLast] at size
        omega
      rw [if_pos starts, and_iff_right more, status, status]
      by_cases whole : user ++ tail = entry
      · rw [if_pos whole, if_neg fun cut => differ (cut.trans whole.symm)]
        simp [whole]
      · by_cases cut : (user ++ tail).dropLast = entry
        · simp [whole, cut]
        · simp [whole, cut]

/-- What is compared decides as the lines of the file do exactly when the first line of the user is kept whole, and
    nothing else looks like one in front of it. -/
private theorem verdict_compared_iff (content : List Byte) :
    verdict user entry (compared content) = verdict user entry (content.splitOn (chr '\n')) ↔
      Kept user entry (content.splitOn (chr '\n')) := by
  have noUser : ∀ {line e : List Byte}, ¬ user <+: line → e <+: line → ¬ user <+: e :=
    fun other front starts => other (starts.trans front)
  induction size : content.length using Nat.strongRecOn generalizing content with
  | ind size ih =>
    by_cases last : chr '\n' ∈ content
    · obtain ⟨body, rest, rfl, plain⟩ := List.eq_append_cons_of_mem last
      have lines : rest.splitOn (chr '\n') ≠ [] := List.splitOn_ne_nil _ _
      obtain ⟨starts, same⟩ := take_decides login body
      rw [List.splitOn_append_cons_self_of_not_mem plain, compared_line plain, Kept, verdict_cons body]
      by_cases isUser : user <+: body
      · rw [if_pos isUser, if_pos isUser, compared_head plain, List.cons_append, verdict_cons, if_pos (starts.mpr isUser), same]
        exact iff_of_true rfl (.inl lines)
      · have later := ih rest.length (by rw [← size, List.length_append, List.length_cons]; omega) rest rfl
        rw [if_neg isUser, if_neg isUser, if_neg lines, compared_head plain, List.cons_append, verdict_cons,
          if_neg (mt starts.mp isUser), verdict_append, List.tail_cons]
        split
        · exact eq_comm
        · exact later
    · rw [List.splitOn_eq_singleton last, Kept, verdict_cons content]
      by_cases isUser : user <+: content
      · rw [if_pos isUser, if_pos isUser, verdict_last_iff login last isUser]
        simp
      · rw [if_neg isUser, if_neg isUser, if_pos rfl]
        by_cases nonempty : content = []
        · subst nonempty
          exact iff_of_true rfl trivial
        · have cut : (content.take 30).dropLast <+: content := (List.dropLast_prefix _).trans (List.take_prefix _ _)
          rw [compared_last last nonempty, verdict_cons, if_neg (noUser isUser cut), List.tail_cons, verdict]
          split
          · exact eq_comm
          · exact iff_of_true rfl trivial

/-- The loop compares the pieces of the file. -/
private theorem check_lines_compared {fuel : Nat} {content : List Byte} (text : 0 ∉ content) (enough : content.length < fuel) :
    check_lines entry user.length fuel content = some ⟨verdict user entry (compared content), none⟩ := by
  have prefixed : entry.take user.length = user := (List.prefix_iff_eq_take.mp login.starts).symm
  induction content using pieces_induction (show 0 < 30 by decide) (· == chr '\n') generalizing fuel with
  | nil =>
    obtain ⟨fuel, rfl⟩ : ∃ m, fuel = m + 1 := ⟨fuel - 1, by omega⟩
    rfl
  | cons content nonempty ih =>
    obtain ⟨fuel, rfl⟩ : ∃ m, fuel = m + 1 := ⟨fuel - 1, by omega⟩
    have shorter := length_drop_piece (p := (· == chr '\n')) (show 0 < 30 by decide) nonempty
    have some := piece_ne_nil (p := (· == chr '\n')) (show 0 < 30 by decide) nonempty
    have noNul : 0 ∉ piece (· == chr '\n') 30 content := fun nul => text ((piece_front content).subset nul)
    have later := @ih fuel (fun nul => text (List.mem_of_mem_drop nul)) (by omega)
    have cut : compared content = (piece (· == chr '\n') 30 content).dropLast ::
        compared (content.drop (piece (· == chr '\n') 30 content).length) := by
      rw [compared, pieces_cons (by decide) nonempty]
      rfl
    rw [check_lines, MAXLINE, fgets_piece 31 nonempty, cut, verdict_cons]
    generalize piece (· == chr '\n') 30 content = line at *
    dsimp only
    rw [CStr.of_noNul noNul, if_neg some, prefixed, later]
    by_cases same : entry = line.dropLast
    · rw [if_pos same, if_pos (same ▸ login.starts), status, if_pos same.symm]
    · rw [if_neg same]
      by_cases isUser : user <+: line.dropLast
      · rw [if_pos (List.prefix_iff_eq_take.mp isUser), if_pos isUser, status, if_neg (Ne.symm same)]
      · rw [if_neg fun front => isUser (List.prefix_iff_eq_take.mpr front), if_neg isUser]

end

/-- For every readable password file without NUL bytes the program exits as the first line of the user decides, with
    0 if that is the entry, 2 if it is not and 3 if there is none, exactly when that line is kept whole and nothing
    else looks like one in front of it. -/
theorem validate_decides_iff {stdin later later' : Deliveries} {first second content : List Byte}
    (userRead : read MAX_PASSWORD stdin = (some first, later)) (nonempty : first ≠ []) (noNul : 0 ∉ first)
    (passwordRead : read MAX_PASSWORD later = (some second, later')) (nonempty' : second ≠ []) (noNul' : 0 ∉ second)
    (text : 0 ∉ content) :
    let user := first.takeWhile (· ≠ chr '\n') ++ lit ":"
    let entry := user ++ second.takeWhile (· ≠ chr '\n')
    main stdin (some content) = some ⟨verdict user entry (content.splitOn (chr '\n')), none⟩ ↔
      Kept user entry (content.splitOn (chr '\n')) := by
  intro user entry
  have colon : (lit ":").length = 1 := rfl
  have userShort : (first.takeWhile (· ≠ chr '\n')).length ≤ 10 :=
    (List.takeWhile_sublist _).length_le.trans (length_read userRead)
  have passwordShort : (second.takeWhile (· ≠ chr '\n')).length ≤ 10 :=
    (List.takeWhile_sublist _).length_le.trans (length_read passwordRead)
  have login : Login user entry := by
    refine ⟨by simp [user, lit], ?_, List.prefix_append _ _, ?_⟩
    · rw [List.length_append, colon]
      omega
    · rw [List.length_append, List.length_append, colon]
      omega
  have checked : main stdin (some content) = check_lines entry user.length (content.length + 1) content := by
    obtain ⟨b, first, rfl⟩ := List.exists_cons_of_ne_nil nonempty
    obtain ⟨c, second, rfl⟩ := List.exists_cons_of_ne_nil nonempty'
    have isUser : cutNewline (b :: first) = (b :: first).takeWhile (· ≠ chr '\n') := by rw [cutNewline, CStr.of_noNul noNul]
    have isPassword : cutNewline (c :: second) = (c :: second).takeWhile (· ≠ chr '\n') := by
      rw [cutNewline, CStr.of_noNul noNul']
    have withColon : strncat ((b :: first).takeWhile (· ≠ chr '\n')) (lit ":")
        (MAXLINE - ((b :: first).takeWhile (· ≠ chr '\n')).length - 1) = user := by
      apply strncat_fits
      rw [colon, MAXLINE]
      omega
    have whole : strncat user ((c :: second).takeWhile (· ≠ chr '\n')) (MAXLINE - user.length - 1) = entry := by
      apply strncat_fits
      rw [List.length_append, colon, MAXLINE]
      omega
    simp only [main, userRead, passwordRead, isUser, isPassword, withColon, whole]
  rw [checked, check_lines_compared login text (Nat.lt_succ_self _), ← verdict_compared_iff login content]
  simp

instance decidableKept (user entry : List Byte) : ∀ lines, Decidable (Kept user entry lines)
  | [] => inferInstanceAs (Decidable True)
  | line :: rest =>
    have := decidableKept user entry rest
    have : ∀ found : Option (List Byte), Decidable (match found with
        | some e => verdict user entry rest = status entry e
        | none => Kept user entry rest)
      | some e => inferInstanceAs (Decidable (verdict user entry rest = status entry e))
      | none => inferInstanceAs (Decidable (Kept user entry rest))
    inferInstanceAs (Decidable (if user <+: line then _ else _))

/-- A delivery of the user id and one of the password. -/
def typed (user password : List Byte) : Deliveries := [some user, some password]

theorem validate_decides_birds :
    main (typed (lit "birds\n") (lit "fly\n")) (some (lit "fish:swim\nbirds:fly\n")) = some ⟨0, none⟩ :=
  (@validate_decides_iff (typed (lit "birds\n") (lit "fly\n")) [some (lit "fly\n")] [] (lit "birds\n") (lit "fly\n")
    (lit "fish:swim\nbirds:fly\n") (by decide +kernel) (by decide) (by decide) (by decide +kernel) (by decide) (by decide)
    (by decide)).mpr (by decide +kernel)

/-- On a last line without a newline the right password is refused. -/
theorem validate_refuses_last : ¬ ∀ (user password content : List Byte), user ≠ [] → user.length ≤ MAX_PASSWORD → 0 ∉ user →
    password ≠ [] → password.length ≤ MAX_PASSWORD → 0 ∉ password → 0 ∉ content →
      main (typed user password) (some content) =
        some ⟨verdict (user.takeWhile (· ≠ chr '\n') ++ lit ":")
          (user.takeWhile (· ≠ chr '\n') ++ lit ":" ++ password.takeWhile (· ≠ chr '\n'))
          (content.splitOn (chr '\n')), none⟩ := by
  intro decides
  have refused : main (typed (lit "fish\n") (lit "swim\n")) (some (lit "fish:swim")) = some ⟨2, none⟩ := by decide +kernel
  have right := decides (lit "fish\n") (lit "swim\n") (lit "fish:swim") (by decide) (by decide) (by decide) (by decide)
    (by decide) (by decide) (by decide)
  rw [refused] at right
  exact absurd right (by decide +kernel)

end BashInC.Validate
