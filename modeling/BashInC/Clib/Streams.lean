import BashInC.Clib.Strings

/-!
Standard input as a program sees it through `read` and through `getchar`. What is
still to come is a list of deliveries; a read takes bytes of the first one and
never goes beyond it, and `getchar` keeps in a buffer of its own what it has read
ahead. Once `getchar` has seen a read of no bytes it does not read again, while
`read` itself does. `skipThrough_line` says what a loop over `getchar` up to a stop
byte leaves when the rest of the first delivery ends with it, `skipThrough_skips`
what it takes from any input that only ends where there is nothing more.
-/
namespace Clib.Streams
open Clib.Strings

/-- What successive reads find: some bytes, or a failure. Behind the last delivery is the end of the input. -/
abbrev Deliveries := List (Option (List Byte))

/-- The deliveries when these bytes of the first one are left. -/
def remaining (bytes : List Byte) (later : Deliveries) : Deliveries := if bytes = [] then later else some bytes :: later

/-- `read(STDIN_FILENO, buf, count)`: the bytes it stores, `none` on failure. -/
def read (count : Nat) : Deliveries → Option (List Byte) × Deliveries
  | [] => (some [], [])
  | none :: later => (none, later)
  | some bytes :: later => (some (bytes.take count), remaining (bytes.drop count) later)

/-- Standard input: what is to come, what `getchar` has read ahead, and the end-of-file indicator. -/
structure Stdin where
  deliveries : Deliveries
  ahead : List Byte
  eof : Bool
  deriving DecidableEq

/-- `getchar()` with a buffer of `bufsiz` bytes; `none` is `EOF`. The indicator stays set once a read has returned
    no bytes; a read that fails does not set it. -/
def getchar (bufsiz : Nat) (stdin : Stdin) : Option Byte × Stdin :=
  match stdin.ahead with
  | c :: ahead => (some c, { stdin with ahead := ahead })
  | [] =>
    if stdin.eof then (none, stdin)
    else
      match read bufsiz stdin.deliveries with
      | (some (c :: ahead), deliveries) => (some c, ⟨deliveries, ahead, false⟩)
      | (some [], deliveries) => (none, ⟨deliveries, [], true⟩)
      | (none, deliveries) => (none, ⟨deliveries, [], false⟩)

/-- `while ((c = getchar()) != EOF && c != stop);` -/
def skipThrough (stop : Byte) (bufsiz : Nat) : Nat → Stdin → Stdin
  | 0, stdin => stdin
  | fuel + 1, stdin =>
    match getchar bufsiz stdin with
    | (none, stdin) => stdin
    | (some c, stdin) => if c = stop then stdin else skipThrough stop bufsiz fuel stdin

/-- The bytes to come. -/
def Deliveries.bytes (deliveries : Deliveries) : List Byte := deliveries.flatMap (·.getD [])

/-- The number of the bytes still to come; every `getchar` that returns one takes it from these. -/
def Stdin.size (stdin : Stdin) : Nat := (stdin.ahead ++ stdin.deliveries.bytes).length

@[simp] theorem remaining_nil (later : Deliveries) : remaining [] later = later := rfl

theorem remaining_ne_nil {bytes : List Byte} (nonempty : bytes ≠ []) (later : Deliveries) :
    remaining bytes later = some bytes :: later := if_neg nonempty

/-- A read that asks for at least as many bytes as there are takes the whole delivery. -/
theorem read_whole {count : Nat} {bytes : List Byte} (short : bytes.length ≤ count) (later : Deliveries) :
    read count (some bytes :: later) = (some bytes, later) := by
  rw [read, List.take_of_length_le short, List.drop_eq_nil_of_le short, remaining_nil]

/-- A read returns no more bytes than it asks for. -/
theorem length_read {count : Nat} {deliveries later : Deliveries} {bytes : List Byte}
    (got : read count deliveries = (some bytes, later)) : bytes.length ≤ count := by
  cases deliveries with
  | nil =>
    obtain rfl : [] = bytes := by simpa [read] using congrArg Prod.fst got
    simp
  | cons delivery deliveries =>
    cases delivery with
    | none => simp [read] at got
    | some delivered =>
      obtain rfl : delivered.take count = bytes := by simpa [read] using congrArg Prod.fst got
      exact List.length_take_le ..

@[simp] theorem bytes_nil : Deliveries.bytes [] = [] := rfl

@[simp] theorem bytes_cons (bytes : List Byte) (later : Deliveries) :
    Deliveries.bytes (some bytes :: later) = bytes ++ Deliveries.bytes later := rfl

theorem bytes_map_some (pieces : List (List Byte)) : Deliveries.bytes (pieces.map some) = pieces.flatten := by
  induction pieces with
  | nil => rfl
  | cons piece pieces ih => rw [List.map_cons, bytes_cons, ih, List.flatten_cons]

@[simp] theorem bytes_remaining (bytes : List Byte) (later : Deliveries) :
    (remaining bytes later).bytes = bytes ++ Deliveries.bytes later := by
  by_cases nonempty : bytes = []
  · simp [nonempty]
  · rw [remaining_ne_nil nonempty, bytes_cons]

theorem length_le_size_remaining (bytes : List Byte) (later : Deliveries) (ahead : List Byte) (eof : Bool) :
    bytes.length ≤ (Stdin.mk (remaining bytes later) ahead eof).size := by
  simp only [Stdin.size, bytes_remaining, List.length_append]
  omega

/-- The next byte comes from what is read ahead, or from a delivery that a refill goes no further than. -/
theorem getchar_cons {bufsiz : Nat} (positive : 0 < bufsiz) {ahead bytes line : List Byte} {c : Byte} (later : Deliveries)
    {eof : Bool} (more : eof = true → bytes = []) (here : ahead ++ bytes = c :: line) :
    ∃ ahead' bytes', ahead' ++ bytes' = line ∧ (eof = true → bytes' = []) ∧
      getchar bufsiz ⟨remaining bytes later, ahead, eof⟩ = (some c, ⟨remaining bytes' later, ahead', eof⟩) := by
  cases ahead with
  | cons c' ahead =>
    rw [List.cons_append, List.cons.injEq] at here
    obtain ⟨rfl, rest⟩ := here
    exact ⟨ahead, bytes, rest, more, rfl⟩
  | nil =>
    rw [List.nil_append] at here
    subst here
    have reads : eof = false := by
      cases eof with
      | false => rfl
      | true => cases more rfl
    subst reads
    obtain ⟨n, rfl⟩ : ∃ n, bufsiz = n + 1 := ⟨bufsiz - 1, by omega⟩
    refine ⟨line.take n, line.drop n, List.take_append_drop n line, by simp, ?_⟩
    rw [remaining_ne_nil (List.cons_ne_nil c line)]
    rfl

/-- Skipping through the last byte of a delivery leaves the deliveries behind it, and nothing read ahead. -/
theorem skipThrough_line {stop : Byte} {bufsiz : Nat} (positive : 0 < bufsiz) (later : Deliveries) {fuel : Nat}
    {ahead bytes body : List Byte} {eof : Bool} (more : eof = true → bytes = []) (line : ahead ++ bytes = body ++ [stop])
    (plain : stop ∉ body) (enough : body.length < fuel) :
    skipThrough stop bufsiz fuel ⟨remaining bytes later, ahead, eof⟩ = ⟨later, [], eof⟩ := by
  induction fuel generalizing ahead bytes body with
  | zero => omega
  | succ fuel ih =>
    cases body with
    | nil =>
      obtain ⟨ahead', bytes', rest, -, got⟩ := getchar_cons positive later more line
      obtain ⟨rfl, rfl⟩ := List.append_eq_nil_iff.mp rest
      rw [skipThrough, got]
      simp
    | cons c body =>
      obtain ⟨ahead', bytes', rest, more', got⟩ := getchar_cons positive later more line
      rw [List.mem_cons, not_or] at plain
      have goes : c ≠ stop := Ne.symm plain.1
      rw [skipThrough, got]
      simp only [if_neg goes]
      apply ih more' rest plain.2
      simpa using enough

/-- At the end of the input there is nothing to skip, and it is noticed. -/
theorem skipThrough_end (stop : Byte) (bufsiz fuel : Nat) (eof : Bool) :
    skipThrough stop bufsiz (fuel + 1) ⟨[], [], eof⟩ = ⟨[], [], true⟩ := by
  cases eof <;> rfl

/-! ### Inputs without a gap -/

/-- Deliveries of some bytes each. -/
def Deliveries.Each (deliveries : Deliveries) : Prop := ∀ delivery ∈ deliveries, ∃ bytes, delivery = some bytes ∧ bytes ≠ []

/-- An input that ends only where nothing more is to come. -/
structure Stdin.Flowing (stdin : Stdin) : Prop where
  each : stdin.deliveries.Each
  ended : stdin.eof = true → stdin.deliveries = []

/-- A read takes the next bytes of such an input. -/
theorem read_each {deliveries : Deliveries} (each : deliveries.Each) (more : deliveries ≠ []) {count : Nat}
    (positive : 0 < count) : ∃ bytes later, read count deliveries = (some bytes, later) ∧ bytes ≠ [] ∧ later.Each ∧
      deliveries.bytes = bytes ++ later.bytes := by
  obtain ⟨delivery, later, rfl⟩ := List.exists_cons_of_ne_nil more
  obtain ⟨bytes, rfl, nonempty⟩ := each delivery (by simp)
  have behind : Deliveries.Each later := fun delivery member => each delivery (List.mem_cons_of_mem _ member)
  refine ⟨bytes.take count, remaining (bytes.drop count) later, rfl, ?_, ?_, ?_⟩
  · rw [ne_eq, List.take_eq_nil_iff, not_or]
    exact ⟨by omega, nonempty⟩
  · unfold remaining
    split
    · exact behind
    · next rest => exact List.forall_mem_cons.mpr ⟨⟨_, rfl, rest⟩, behind⟩
  · rw [bytes_cons, bytes_remaining, ← List.append_assoc, List.take_append_drop]

/-- `getchar` comes to the next byte, for which it may have to read `lost`, or to the end. -/
theorem getchar_flowing {stdin : Stdin} (flows : stdin.Flowing) {bufsiz : Nat} (positive : 0 < bufsiz) :
    (stdin.ahead = [] ∧ stdin.deliveries = [] ∧ getchar bufsiz stdin = (none, ⟨[], [], true⟩)) ∨
      ∃ c stdin' lost, getchar bufsiz stdin = (some c, stdin') ∧ stdin'.Flowing ∧ stdin.ahead ++ lost = c :: stdin'.ahead ∧
        stdin.deliveries.bytes = lost ++ stdin'.deliveries.bytes ∧
        (lost = [] ∨ stdin.ahead = [] ∧ stdin'.ahead.length < bufsiz) := by
  obtain ⟨deliveries, ahead, eof⟩ := stdin
  cases ahead with
  | cons c ahead => exact .inr ⟨c, ⟨deliveries, ahead, eof⟩, [], rfl, ⟨flows.each, flows.ended⟩, by simp, rfl, .inl rfl⟩
  | nil =>
    by_cases more : deliveries = []
    · subst more
      refine .inl ⟨rfl, rfl, ?_⟩
      cases eof <;> rfl
    · have reads : eof = false := by
        cases marked : eof with
        | false => rfl
        | true => exact absurd (flows.ended marked) more
      obtain ⟨bytes, later, got, nonempty, each, bytesOf⟩ := read_each flows.each more positive
      obtain ⟨c, ahead, rfl⟩ := List.exists_cons_of_ne_nil nonempty
      have few := length_read got
      refine .inr ⟨c, ⟨later, ahead, false⟩, c :: ahead, ?_, ⟨each, by simp⟩, rfl, bytesOf, .inr ⟨rfl, few⟩⟩
      subst reads
      simp [getchar, got]

/-- What a loop over `getchar` up to a stop byte has read, `lost`, with what was read ahead before: everything through
    the first stop byte, and what is then read ahead; or everything that was to come, if there is none. -/
structure Skips (stop : Byte) (bufsiz : Nat) (stdin : Stdin) (lost : List Byte) (stdin' : Stdin) : Prop where
  flows : stdin'.Flowing
  bytes : stdin.deliveries.bytes = lost ++ stdin'.deliveries.bytes
  through : (∃ junk, stop ∉ junk ∧ stdin.ahead ++ lost = junk ++ stop :: stdin'.ahead) ∨
    stop ∉ stdin.ahead ++ lost ∧ stdin'.ahead = [] ∧ stdin'.deliveries = []
  few : lost = [] ∨ stop ∉ stdin.ahead ∧ stdin'.ahead.length < bufsiz

/-- A byte other than the stop byte in front of what is skipped. -/
private theorem Skips.cons {stop c : Byte} {bufsiz : Nat} (positive : 0 < bufsiz) {stdin stdin' last : Stdin}
    {here later : List Byte} (other : c ≠ stop) (line : stdin.ahead ++ here = c :: stdin'.ahead)
    (bytes : stdin.deliveries.bytes = here ++ stdin'.deliveries.bytes)
    (few : here = [] ∨ stdin.ahead = [] ∧ stdin'.ahead.length < bufsiz) (skips : Skips stop bufsiz stdin' later last) :
    Skips stop bufsiz stdin (here ++ later) last := by
  have front : stdin.ahead ++ (here ++ later) = c :: (stdin'.ahead ++ later) := by
    rw [← List.append_assoc, line, List.cons_append]
  refine ⟨skips.flows, ?_, ?_, ?_⟩
  · rw [bytes, skips.bytes, List.append_assoc]
  · rw [front]
    rcases skips.through with ⟨junk, plain, found⟩ | ⟨plain, noneAhead, noMore⟩
    · exact .inl ⟨c :: junk, by simp [plain, Ne.symm other], by rw [found, List.cons_append]⟩
    · exact .inr ⟨by simpa [Ne.symm other] using plain, noneAhead, noMore⟩
  · rcases skips.few with rfl | ⟨plain, few'⟩
    · rcases few with rfl | ⟨noneAhead, few⟩
      · exact .inl rfl
      -- what has just been read ahead holds the stop byte, or there is none
      · refine .inr ⟨by simp [noneAhead], ?_⟩
        rcases skips.through with ⟨junk, -, found⟩ | ⟨-, none, -⟩
        · have shorter := congrArg List.length found
          simp only [List.append_nil, List.length_append, List.length_cons] at shorter
          omega
        · rw [none]
          exact positive
    · refine .inr ⟨fun member => ?_, few'⟩
      have inLine : stop ∈ c :: stdin'.ahead := line ▸ List.mem_append_left _ member
      rcases List.mem_cons.mp inLine with same | later
      · exact other same.symm
      · exact plain later

/-- The loop skips as much of such an input, and leaves one. -/
theorem skipThrough_skips (stop : Byte) {bufsiz : Nat} (positive : 0 < bufsiz) {fuel : Nat} {stdin : Stdin}
    (flows : stdin.Flowing) (enough : stdin.size < fuel) :
    ∃ lost, Skips stop bufsiz stdin lost (skipThrough stop bufsiz fuel stdin) := by
  induction fuel generalizing stdin with
  | zero => omega
  | succ fuel ih =>
    rw [skipThrough]
    rcases getchar_flowing flows positive with ⟨noneAhead, noMore, got⟩ | ⟨c, stdin', here, got, flows', line, bytes, few⟩
    · rw [got]
      refine ⟨[], ⟨by simp [Deliveries.Each], by simp⟩, by simp [noMore], .inr ⟨?_, rfl, rfl⟩, .inl rfl⟩
      simp [noneAhead]
    rw [got]
    dsimp only
    by_cases ends : c = stop
    · rw [if_pos ends]
      refine ⟨here, flows', bytes, .inl ⟨[], by simp, by rw [line, ends]; rfl⟩, ?_⟩
      rcases few with none | ⟨noneAhead, few⟩
      · exact .inl none
      · exact .inr ⟨by simp [noneAhead], few⟩
    · rw [if_neg ends]
      have less : stdin'.size < fuel := by
        have sizes := congrArg List.length line
        have lengths := congrArg List.length bytes
        simp only [Stdin.size, List.length_append, List.length_cons] at sizes lengths enough ⊢
        omega
      obtain ⟨later, skips⟩ := ih flows' less
      exact ⟨here ++ later, skips.cons positive ends line bytes few⟩

end Clib.Streams
