import BashInC.Server

/-!
The chat server as a room. Whatever the helper functions do, what the server does is
allowed in a room whose members are its clients (`main_room`): `select` waits for
the listening socket and the members, and a message goes to every member but its
sender, once, before anything else happens. What is opened is closed at most once,
and when the server exits everything has been (`descriptors_closed`). So `select`
waits for what is open (`select_watches`), and a message reaches whoever is there
(`message_reaches`).
-/
namespace BashInC.ChatRoom
open Clib.Strings Clib.Traces BashInC.Chat BashInC.Server
variable {W : Type*}

/-! ### The room -/

/-- What is known of the server from what can be seen: whether it listens, who is in the room, the message under way
    and who has still to get it, and a descriptor that is about to be closed. -/
structure Room where
  listening : Bool
  members : List Int
  text : List Byte
  due : List Int
  leaving : Option Int
  deriving DecidableEq

/-- Nothing is under way. -/
def Room.Quiet (r : Room) : Prop := r.listening = true ∧ r.due = [] ∧ r.leaving = none

instance (r : Room) : Decidable r.Quiet := by
  unfold Room.Quiet; infer_instance

def Room.empty : Room := ⟨true, [], [], [], none⟩

/-- The room behind an event, which has to be one that it allows. There is room for one more than MAX_CONNECTIONS, and
    for CRLF and the terminator behind a message. -/
def Room.step (sock_fd : Int) (r : Room) : Event → Option Room
  | .select nfds readfds _ =>
    if r.Quiet ∧ readfds.Perm (sock_fd :: r.members) ∧ ∀ fd ∈ readfds, fd < nfds then some r else none
  | .accept fd =>
    if r.Quiet ∧ fd ∉ sock_fd :: r.members then
      some (if r.members.length ≤ MAX_CONNECTIONS then { r with members := r.members ++ [fd] }
        else { r with leaving := some fd })
    else none
  | .message fd username msg =>
    let text := said username msg
    if r.Quiet ∧ fd ∈ r.members ∧ text.length + 2 < BUF_SIZE then
      some { r with text, due := r.members.filter (· ≠ fd) }
    else none
  | .write fd text ret =>
    match r.due with
    | [] => none
    | next :: due =>
      if r.leaving = none ∧ fd = next ∧ fd ∈ r.members ∧ text = r.text then
        some (if ret = 2 then { r with members := r.members.erase fd, due, leaving := some fd } else { r with due })
      else none
  | .close fd =>
    if r.leaving = some fd then some { r with leaving := none }
    else if r.Quiet ∧ fd = sock_fd then some { r with listening := false }
    else if r.Quiet ∧ fd ∈ r.members then some { r with members := r.members.erase fd }
    else none
  | .printf _ => some r
  | .perror _ => some r

/-- What is open in a room. -/
def Room.opens (sock_fd : Int) (r : Room) : List Int :=
  (if r.listening then [sock_fd] else []) ++ (r.members ++ r.leaving.toList)

/-- An event keeps the account of what is open. -/
private theorem opens_step {sock_fd : Int} {r r' : Room} {e : Event} (taken : r.step sock_fd e = some r') :
    (r'.opens sock_fd ++ closed [e]).Perm (r.opens sock_fd ++ accepted [e]) := by
  have moved : ∀ fd ∈ r.members, (r.members.erase fd ++ [fd]).Perm r.members := fun fd member =>
    (List.perm_append_singleton fd _).trans (List.perm_cons_erase member).symm
  cases e with
  | select nfds readfds answer =>
    simp only [Room.step, Option.ite_none_right_eq_some, Option.some.injEq] at taken
    rw [← taken.2]
    rfl
  | accept fd =>
    simp only [Room.step, Option.ite_none_right_eq_some, Option.some.injEq] at taken
    obtain ⟨⟨⟨listens, -, none⟩, -⟩, rfl⟩ := taken
    split <;> simp [Room.opens, accepted, closed, listens, none]
  | message fd username msg =>
    simp only [Room.step, Option.ite_none_right_eq_some, Option.some.injEq] at taken
    rw [← taken.2]
    rfl
  | write fd text ret =>
    rw [Room.step] at taken
    cases due : r.due with
    | nil => simp [due] at taken
    | cons next rest =>
      simp only [due, Option.ite_none_right_eq_some, Option.some.injEq] at taken
      obtain ⟨⟨none, -, member, -⟩, rfl⟩ := taken
      split
      · simpa [Room.opens, accepted, closed, none] using (moved fd member).append_left _
      · rfl
  | close fd =>
    rw [Room.step] at taken
    by_cases isLeaving : r.leaving = some fd
    · rw [if_pos isLeaving] at taken
      cases taken
      simp [Room.opens, accepted, closed, isLeaving]
    rw [if_neg isLeaving] at taken
    by_cases isServer : r.Quiet ∧ fd = sock_fd
    · rw [if_pos isServer] at taken
      cases taken
      obtain ⟨⟨listens, -, none⟩, rfl⟩ := isServer
      simp [Room.opens, accepted, closed, listens, none]
    rw [if_neg isServer] at taken
    simp only [Option.ite_none_right_eq_some, Option.some.injEq] at taken
    obtain ⟨⟨⟨-, -, none⟩, member⟩, rfl⟩ := taken
    simpa [Room.opens, accepted, closed, none] using (moved fd member).append_left _
  | printf text =>
    cases taken
    rfl
  | perror s =>
    cases taken
    rfl

/-- A room holds what has been accepted and not closed. -/
private theorem opens_replay {sock_fd : Int} {r : Room} {events : List Event}
    (ran : replay (Room.step sock_fd) Room.empty events = some r) :
    (r.opens sock_fd ++ closed events).Perm (sock_fd :: accepted events) := by
  apply replay_invariant (P := fun r shown => (r.opens sock_fd ++ closed shown).Perm (sock_fd :: accepted shown)) ran
    (List.Perm.refl _)
  intro r shown e r' ledger taken
  rw [List.perm_iff_count] at ledger ⊢
  intro fd
  have here := (opens_step taken).count_eq fd
  have before := ledger fd
  rw [closed_append, accepted_append]
  simp only [List.count_append, List.count_cons] at here before ⊢
  omega

/-- It holds at most one more than MAX_CONNECTIONS. -/
private theorem members_replay {sock_fd : Int} {r : Room} {events : List Event}
    (ran : replay (Room.step sock_fd) Room.empty events = some r) : r.members.length ≤ MAX_CONNECTIONS + 1 := by
  apply replay_invariant (P := fun r _ => r.members.length ≤ MAX_CONNECTIONS + 1) ran (Nat.zero_le _)
  intro r shown e r' room taken
  cases e with
  | accept fd =>
    simp only [Room.step, Option.ite_none_right_eq_some, Option.some.injEq] at taken
    obtain ⟨-, rfl⟩ := taken
    split
    · rw [List.length_append, List.length_singleton]
      omega
    · exact room
  | write fd text ret =>
    rw [Room.step] at taken
    cases due : r.due with
    | nil => simp [due] at taken
    | cons next rest =>
      simp only [due, Option.ite_none_right_eq_some, Option.some.injEq] at taken
      obtain ⟨-, rfl⟩ := taken
      split
      · exact (List.length_erase_le).trans room
      · exact room
  | close fd =>
    rw [Room.step] at taken
    split_ifs at taken
    · cases taken
      exact room
    · cases taken
      exact room
    · cases taken
      exact (List.length_erase_le).trans room
  | select nfds readfds answer =>
    simp only [Room.step, Option.ite_none_right_eq_some, Option.some.injEq] at taken
    rwa [← taken.2]
  | message fd username msg =>
    simp only [Room.step, Option.ite_none_right_eq_some, Option.some.injEq] at taken
    rwa [← taken.2]
  | printf text =>
    cases taken
    exact room
  | perror s =>
    cases taken
    exact room

/-- No descriptor is held twice. -/
private theorem nodup_replay {sock_fd : Int} {r : Room} {events : List Event}
    (ran : replay (Room.step sock_fd) Room.empty events = some r) : (r.opens sock_fd).Nodup := by
  apply replay_invariant (P := fun r _ => (r.opens sock_fd).Nodup) ran (by simp [Room.opens, Room.empty])
  intro r shown e r' nodup taken
  have account := opens_step taken
  have fewer : (r.opens sock_fd ++ accepted [e]).Nodup → (r'.opens sock_fd).Nodup := fun apart =>
    (List.nodup_append.mp (account.nodup_iff.mpr apart)).1
  cases e with
  | accept fd =>
    simp only [Room.step, Option.ite_none_right_eq_some] at taken
    obtain ⟨⟨⟨listens, -, none⟩, fresh⟩, -⟩ := taken
    apply fewer
    refine List.nodup_append.mpr ⟨nodup, by simp [accepted], ?_⟩
    intro fd' held _ new
    rw [List.mem_singleton.mp new]
    rintro rfl
    simp [Room.opens, listens, none] at held
    simp [held] at fresh
  | _ =>
    apply fewer
    rwa [accepted, List.filterMap_cons_none rfl, List.filterMap_nil, List.append_nil]

/-- What has been written, and to whom. -/
def written (events : List Event) : List (Int × List Byte) :=
  events.filterMap fun
    | .write fd text _ => some (fd, text)
    | _ => none

theorem written_append (events more : List Event) : written (events ++ more) = written events ++ written more :=
  List.filterMap_append

/-- The message goes to who is first to get it, until another is taken. -/
private theorem due_step {sock_fd : Int} {r r' : Room} {e : Event} (taken : r.step sock_fd e = some r')
    (same : e.speaks = false) : r.due.map (·, r.text) = written [e] ++ r'.due.map (·, r'.text) := by
  cases e with
  | message fd username msg => cases same
  | write fd text ret =>
    rw [Room.step] at taken
    cases due : r.due with
    | nil => simp [due] at taken
    | cons next rest =>
      simp only [due, Option.ite_none_right_eq_some, Option.some.injEq] at taken
      obtain ⟨⟨-, rfl, -, rfl⟩, rfl⟩ := taken
      split <;> rfl
  | close fd =>
    rw [Room.step] at taken
    split_ifs at taken
    all_goals
      cases taken
      rfl
  | select nfds readfds answer =>
    simp only [Room.step, Option.ite_none_right_eq_some, Option.some.injEq] at taken
    rw [taken.2]
    rfl
  | accept fd =>
    simp only [Room.step, Option.ite_none_right_eq_some, Option.some.injEq] at taken
    obtain ⟨-, rfl⟩ := taken
    split <;> rfl
  | printf text =>
    cases taken
    rfl
  | perror s =>
    cases taken
    rfl

/-- Nobody waits for a message when the server does, or takes another. -/
private theorem due_nil {sock_fd : Int} {r r' : Room} {e : Event} (taken : r.step sock_fd e = some r')
    (stops : e.speaks = true ∨ e.waits = true) : r.due = [] := by
  cases e with
  | message fd username msg =>
    simp only [Room.step, Option.ite_none_right_eq_some] at taken
    exact taken.1.1.2.1
  | select nfds readfds answer =>
    simp only [Room.step, Option.ite_none_right_eq_some] at taken
    exact taken.1.1.2.1
  | _ => rcases stops with stops | stops <;> cases stops

/-- Who has still to get the message gets it, and nobody else does. -/
private theorem due_replay {sock_fd : Int} {r r' : Room} {events : List Event} {p : Event → Bool}
    (ran : replay (Room.step sock_fd) r events = some r') (done : r'.due = [])
    (within : ∀ e, p e = true → e.speaks = false) (behind : ∀ e, p e = false → e.speaks = true ∨ e.waits = true) :
    written (events.takeWhile p) = r.due.map (·, r.text) := by
  induction events generalizing r with
  | nil =>
    cases ran
    rw [done]
    rfl
  | cons e events ih =>
    rw [replay_cons, Option.bind_eq_some_iff] at ran
    obtain ⟨r'', taken, ran⟩ := ran
    cases goes : p e with
    | false =>
      rw [due_nil taken (behind e goes), List.takeWhile_cons_of_neg (by simp [goes])]
      rfl
    | true =>
      rw [due_step taken (within e goes), ← ih ran, List.takeWhile_cons_of_pos goes, ← written_append]
      rfl

/-! ### The server in the room -/

/-- The descriptors of some clients. -/
def fdsOf (clients : List ClientSock) : List Int := clients.map (·.sock_fd)

@[simp] theorem fdsOf_append (clients more : List ClientSock) : fdsOf (clients ++ more) = fdsOf clients ++ fdsOf more :=
  List.map_append

@[simp] theorem fdsOf_cons (curr : ClientSock) (rest : List ClientSock) :
    fdsOf (curr :: rest) = curr.sock_fd :: fdsOf rest := rfl

@[simp] theorem fdsOf_nil : fdsOf [] = [] := rfl

/-- What `main` knows of its descriptors. -/
private structure Tracks (sock_fd max_fd : Int) (fds all_fds : List Int) : Prop where
  nodup : (sock_fd :: fds).Nodup
  watched : all_fds.Perm (sock_fd :: fds)
  bound : ∀ fd ∈ sock_fd :: fds, fd ≤ max_fd

section
variable {sock_fd max_fd : Int} {all_fds : List Int}

private theorem others_eq_erase {fds : List Int} (nodup : fds.Nodup) (fd : Int) : fds.filter (· ≠ fd) = fds.erase fd := by
  rw [nodup.erase_eq_filter]
  apply List.filter_congr
  intro fd' _
  by_cases same : fd' = fd <;> simp [same]

private theorem Tracks.clear {before behind : List Int} {fd : Int}
    (tracks : Tracks sock_fd max_fd (before ++ fd :: behind) all_fds) :
    Tracks sock_fd max_fd (before ++ behind) (FD_CLR fd all_fds) ∧ (before ++ fd :: behind).erase fd = before ++ behind := by
  obtain ⟨nodup, watched, bound⟩ := tracks
  have parts := nodup
  rw [List.nodup_cons, List.nodup_append] at parts
  obtain ⟨unshared, -, -, apart⟩ := parts
  have notFront : fd ∉ before := fun member => apart fd member fd (by simp) rfl
  have erased : (before ++ fd :: behind).erase fd = before ++ behind := by
    rw [List.erase_append_right _ notFront, List.erase_cons_head]
  have notServer : ¬ (sock_fd == fd) = true := by
    rw [beq_iff_eq]
    rintro rfl
    exact unshared (by simp)
  have smaller : (sock_fd :: (before ++ behind)).Sublist (sock_fd :: (before ++ fd :: behind)) :=
    ((List.sublist_cons_self fd behind).append_left before).cons_cons sock_fd
  refine ⟨⟨nodup.sublist smaller, ?_, fun fd' member => bound fd' (smaller.subset member)⟩, erased⟩
  rw [FD_CLR, others_eq_erase (watched.nodup_iff.mpr nodup), ← erased, ← List.erase_cons_tail notServer]
  exact watched.erase fd

private theorem Tracks.set {fds : List Int} {fd : Int} (tracks : Tracks sock_fd max_fd fds all_fds)
    (fresh : fd ∉ sock_fd :: fds) :
    Tracks sock_fd (if max_fd < fd then fd else max_fd) (fds ++ [fd]) (FD_SET fd all_fds) := by
  obtain ⟨nodup, watched, bound⟩ := tracks
  have moved : (fd :: sock_fd :: fds).Perm (sock_fd :: (fds ++ [fd])) := (List.perm_append_singleton fd (sock_fd :: fds)).symm
  refine ⟨moved.nodup_iff.mp (List.nodup_cons.mpr ⟨fresh, nodup⟩), ?_, ?_⟩
  · rw [FD_SET, List.insert_of_not_mem (fun member => fresh (watched.subset member))]
    exact (watched.cons fd).trans moved
  · intro fd' member
    rcases List.mem_cons.mp (moved.symm.subset member) with rfl | earlier
    · split <;> omega
    · have := bound fd' earlier
      split <;> omega

end

/-- Where the server has exited, everything is closed. -/
private def Shut : Halt → Room → Prop
  | .exit _, r => r.listening = false ∧ r.members = [] ∧ r.due = [] ∧ r.leaving = none
  | _, _ => True

/-- A room in which nothing is under way, as `main` knows it. -/
private structure Settled (sock_fd max_fd : Int) (clients : List ClientSock) (all_fds : List Int) (room : Room) : Prop where
  quiet : room.Quiet
  members : room.members = fdsOf clients
  tracks : Tracks sock_fd max_fd (fdsOf clients) all_fds

private theorem Settled.room_eq {sock_fd max_fd : Int} {clients : List ClientSock} {all_fds : List Int} {room : Room}
    (settled : Settled sock_fd max_fd clients all_fds room) : room = ⟨true, fdsOf clients, room.text, [], none⟩ := by
  obtain ⟨listens, noneDue, noneLeaving⟩ := settled.quiet
  rw [← settled.members, ← listens, ← noneDue, ← noneLeaving]

private theorem Settled.same_fds {sock_fd max_fd : Int} {clients clients' : List ClientSock} {all_fds : List Int} {room : Room}
    (settled : Settled sock_fd max_fd clients all_fds room) (same : fdsOf clients' = fdsOf clients) :
    Settled sock_fd max_fd clients' all_fds room :=
  ⟨settled.quiet, by rw [same, settled.members], by rw [same]; exact settled.tracks⟩

/-- A client leaves the room when its descriptor is closed. -/
private theorem Settled.leave {sock_fd max_fd : Int} {passed rest : List ClientSock} {curr : ClientSock} {all_fds : List Int}
    {room : Room} (settled : Settled sock_fd max_fd (passed ++ curr :: rest) all_fds room) :
    ∃ room', room.step sock_fd (.close curr.sock_fd) = some room' ∧
      Settled sock_fd max_fd (passed ++ rest) (FD_CLR curr.sock_fd all_fds) room' := by
  obtain ⟨quiet, members, tracks⟩ := settled
  rw [fdsOf_append, fdsOf_cons] at members tracks
  obtain ⟨clear, erased⟩ := tracks.clear
  have notServer : curr.sock_fd ≠ sock_fd := by
    intro same
    exact (List.nodup_cons.mp tracks.nodup).1 (by simp [same])
  refine ⟨{ room with members := room.members.erase curr.sock_fd }, ?_, quiet, ?_, by rwa [fdsOf_append]⟩
  · simp [Room.step, quiet, quiet.2.2, notServer, members]
  · rw [fdsOf_append, members, erased]

section
variable {sock_fd max_fd : Int} (H : Helpers W)

/-- The message goes to those it is due to, who stay in the room unless they do not answer. -/
private theorem send_watched (curr : ClientSock) (text : List Byte) (front behind : List ClientSock) (due : List Int)
    (watch : Watch W) (kept rest : List ClientSock)
    (tracks : Tracks sock_fd max_fd (fdsOf (front ++ kept ++ rest ++ behind)) watch.all_fds) :
    Watched (Room.step sock_fd) ⟨true, fdsOf (front ++ kept ++ rest ++ behind), text, fdsOf rest ++ due, none⟩
      (send H curr text front behind watch kept rest)
      (fun (watch, kept) room => room = ⟨true, fdsOf (front ++ kept ++ behind), text, due, none⟩ ∧
        Tracks sock_fd max_fd (fdsOf (front ++ kept ++ behind)) watch.all_fds) Shut := by
  induction rest generalizing watch kept with
  | nil =>
    rw [List.append_nil] at tracks ⊢
    exact watched_pure ⟨rfl, tracks⟩
  | cons dest_c rest ih =>
    rw [send]
    obtain ⟨ret, world⟩ := H.write_buf_to_client watch.world dest_c text
    have member : dest_c.sock_fd ∈ fdsOf (front ++ kept ++ dest_c :: rest ++ behind) := by simp
    have next : Watched (Room.step sock_fd)
        ⟨true, fdsOf (front ++ kept ++ dest_c :: rest ++ behind), text, fdsOf rest ++ due, none⟩
        (send H curr text front behind ⟨watch.all_fds, world⟩ (kept ++ [dest_c]) rest)
        (fun (watch, kept) room => room = ⟨true, fdsOf (front ++ kept ++ behind), text, due, none⟩ ∧
          Tracks sock_fd max_fd (fdsOf (front ++ kept ++ behind)) watch.all_fds) Shut := by
      have shifted : front ++ kept ++ dest_c :: rest ++ behind = front ++ (kept ++ [dest_c]) ++ rest ++ behind := by simp
      rw [shifted] at tracks ⊢
      exact ih ⟨watch.all_fds, world⟩ (kept ++ [dest_c]) tracks
    dsimp only
    by_cases sent : ret = 0
    · rw [if_pos sent]
      exact watched_emit (by simp [replay_cons, Room.step, sent]) next
    rw [if_neg sent]
    by_cases dropped : ret = 2
    · rw [if_pos dropped]
      have split : fdsOf (front ++ kept ++ dest_c :: rest ++ behind) =
          fdsOf (front ++ kept) ++ dest_c.sock_fd :: fdsOf (rest ++ behind) := by simp
      rw [split] at tracks ⊢
      obtain ⟨clear, erased⟩ := tracks.clear
      have shown : replay (Room.step sock_fd)
          ⟨true, fdsOf (front ++ kept) ++ dest_c.sock_fd :: fdsOf (rest ++ behind), text, fdsOf (dest_c :: rest) ++ due, none⟩
          [.write dest_c.sock_fd text ret, .printf (lit "Failed to send message to user " ++ who dest_c ++ lit ".\n"),
            .printf (lit "User " ++ who dest_c ++ lit " disconnected.\n"), .close dest_c.sock_fd] =
          some ⟨true, fdsOf (front ++ kept ++ rest ++ behind), text, fdsOf rest ++ due, none⟩ := by
        simp only [replay_cons, Room.step, fdsOf_cons, List.cons_append, dropped, true_and, erased, reduceIte, Option.bind_some,
          List.mem_append, List.mem_cons, true_or, or_true]
        simp
      apply watched_emit shown
      rw [← fdsOf_append, ← List.append_assoc] at clear
      split
      · exact ih _ kept clear
      · exact watched_halt trivial
    · rw [if_neg dropped]
      exact watched_emit (by simp [replay_cons, Room.step, dropped]) next

private theorem echo_messages_watched (fuel : Nat) (watch : Watch W) (place : Place) {room : Room}
    (settled : Settled sock_fd max_fd place.clients watch.all_fds room) :
    Watched (Room.step sock_fd) room (echo_messages H fuel watch place)
      (fun (watch, place) room => Settled sock_fd max_fd place.clients watch.all_fds room) Shut := by
  induction fuel generalizing watch place room with
  | zero => exact watched_halt trivial
  | succ fuel ih =>
    obtain ⟨passed, curr, rest⟩ := place
    have sameFd := H.get_message_fd watch.world curr
    rw [echo_messages]
    rcases got : H.get_message watch.world curr with ⟨ret, msg, curr', world⟩
    rw [got] at sameFd
    dsimp only at sameFd ⊢
    have settled' : Settled sock_fd max_fd (Place.clients ⟨passed, curr', rest⟩) watch.all_fds room :=
      settled.same_fds (by simp [Place.clients, sameFd])
    by_cases found : ret ≠ 0
    · rw [if_pos found]
      exact watched_pure settled'
    rw [if_neg found]
    cases curr'.username with
    | none => exact watched_halt trivial
    | some username =>
      have tracks := settled'.tracks
      have everyone : Place.clients ⟨passed, curr', rest⟩ = [] ++ [] ++ passed ++ curr' :: rest := rfl
      have noticed : replay (Room.step sock_fd) room [.message curr'.sock_fd username msg,
          .printf (lit "Echoing message from " ++ shown (some username) ++ lit ".\n")] =
          some ⟨true, fdsOf ([] ++ [] ++ passed ++ curr' :: rest), said username msg, fdsOf passed ++ fdsOf rest, none⟩ := by
        rw [settled'.room_eq, everyone]
        rw [everyone] at tracks
        have split : fdsOf ([] ++ [] ++ passed ++ curr' :: rest) = fdsOf passed ++ curr'.sock_fd :: fdsOf rest := by simp
        rw [split] at tracks ⊢
        have others := others_eq_erase (List.nodup_cons.mp tracks.nodup).2 curr'.sock_fd
        rw [tracks.clear.2] at others
        simpa [replay_cons, Room.step, Room.Quiet, said_fits] using others
      rw [everyone] at tracks
      dsimp only
      apply watched_emit noticed
      have toFront := send_watched H curr' (said username msg) [] (curr' :: rest) (fdsOf rest) ⟨watch.all_fds, world⟩
        [] passed tracks
      apply toFront.bind
      rintro ⟨watch, passed⟩ room ⟨rfl, tracks⟩
      have behind : [] ++ passed ++ curr' :: rest = passed ++ [curr'] ++ [] ++ rest ++ [] := by simp
      rw [behind] at tracks ⊢
      have toRest := send_watched H curr' (said username msg) (passed ++ [curr']) [] [] watch [] rest tracks
      rw [List.append_nil (fdsOf rest)] at toRest
      apply toRest.bind
      rintro ⟨watch, rest⟩ room ⟨rfl, tracks⟩
      apply ih
      have everyone : Place.clients ⟨passed, curr', rest⟩ = passed ++ [curr'] ++ rest ++ [] := by simp [Place.clients]
      rw [everyone]
      exact ⟨⟨rfl, rfl, rfl⟩, rfl, tracks⟩

private theorem introduce_watched (client_closed : Int) (world : W) (curr : ClientSock) (room : Room) :
    Watched (Room.step sock_fd) room (introduce H client_closed world curr)
      (fun (_, curr', _) room' => curr'.sock_fd = curr.sock_fd ∧ room' = room) Shut := by
  unfold introduce
  split
  · cases answered : H.set_username world curr with
    | none => exact watched_halt trivial
    | some r =>
      have sameFd := H.set_username_fd world curr r answered
      obtain ⟨ret, curr', world⟩ := r
      dsimp only
      split
      · exact watched_emit rfl (watched_pure ⟨sameFd, rfl⟩)
      · exact watched_emit rfl (watched_pure ⟨sameFd, rfl⟩)
  · exact watched_pure ⟨rfl, rfl⟩

private theorem hear_watched (fuel : Nat) (watch : Watch W) (place : Place) {room : Room}
    (settled : Settled sock_fd max_fd place.clients watch.all_fds room) :
    Watched (Room.step sock_fd) room (hear H fuel watch place)
      (fun (_, watch, place) room => Settled sock_fd max_fd place.clients watch.all_fds room) Shut := by
  obtain ⟨passed, curr, rest⟩ := place
  have sameFd := H.read_from_client_fd watch.world curr
  unfold hear
  rcases read : H.read_from_client watch.world curr with ⟨ret, curr', world⟩
  rw [read] at sameFd
  dsimp only at sameFd ⊢
  apply (introduce_watched H _ world curr' room).bind
  rintro ⟨client_closed, curr'', world⟩ room' ⟨still, rfl⟩
  have settled' : Settled sock_fd max_fd (Place.clients ⟨passed, curr'', rest⟩) watch.all_fds room' :=
    settled.same_fds (by simp [Place.clients, still, sameFd])
  have echoed : Watched (Room.step sock_fd) room'
      (if client_closed = 0 then echo_messages H fuel ⟨watch.all_fds, world⟩ ⟨passed, curr'', rest⟩
        else pure (⟨watch.all_fds, world⟩, ⟨passed, curr'', rest⟩))
      (fun (watch, place) room => Settled sock_fd max_fd place.clients watch.all_fds room) Shut := by
    split
    · exact echo_messages_watched H fuel _ _ settled'
    · exact watched_pure settled'
  exact echoed.bind fun _ _ settled => watched_pure settled

private theorem serve_watched (fuel : Nat) (listen_fds : List Int) (n : Nat) (watch : Watch W) (passed rest : List ClientSock)
    {room : Room} (settled : Settled sock_fd max_fd (passed ++ rest) watch.all_fds room) :
    Watched (Room.step sock_fd) room (serve H fuel listen_fds n watch passed rest)
      (fun (watch, clients) room => Settled sock_fd max_fd clients watch.all_fds room) Shut := by
  induction n generalizing watch passed rest room with
  | zero =>
    cases rest with
    | nil => exact watched_pure (by simpa using settled)
    | cons curr rest => exact watched_halt trivial
  | succ n ih =>
    cases rest with
    | nil => exact watched_pure (by simpa using settled)
    | cons curr rest =>
      rw [serve]
      have next : ∀ (watch : Watch W) (passed : List ClientSock) (curr : ClientSock) (rest : List ClientSock) (room : Room),
          Settled sock_fd max_fd (Place.clients ⟨passed, curr, rest⟩) watch.all_fds room →
          Watched (Room.step sock_fd) room (serve H fuel listen_fds n watch (passed ++ [curr]) rest)
            (fun (watch, clients) room => Settled sock_fd max_fd clients watch.all_fds room) Shut := by
        intro watch passed curr rest room settled
        exact ih watch (passed ++ [curr]) rest (by simpa [Place.clients] using settled)
      by_cases unready : curr.sock_fd ∉ listen_fds
      · rw [if_pos unready]
        exact next watch passed curr rest room settled
      rw [if_neg unready]
      apply (hear_watched H fuel watch ⟨passed, curr, rest⟩ settled).bind
      rintro ⟨client_closed, watch, ⟨passed, curr, rest⟩⟩ room settled
      dsimp only at settled ⊢
      by_cases stays : client_closed = 1
      · rw [if_pos stays]
        obtain ⟨room', left, settled⟩ := settled.leave
        apply watched_emit (t := room') (by rw [replay_cons, left]; rfl)
        split
        · exact ih _ passed rest settled
        · exact watched_halt trivial
      · rw [if_neg stays]
        exact next watch passed curr rest room settled

end

/-- `clean_exit` closes the descriptors of the clients, and its own. -/
private theorem clean_exit_watched {sock_fd max_fd : Int} {clients : List ClientSock} {all_fds : List Int} {room : Room}
    (settled : Settled sock_fd max_fd clients all_fds room) {α : Type*} (status : Int) {value : α → Room → Prop} :
    Watched (Room.step sock_fd) room (clean_exit sock_fd clients status) value Shut := by
  induction clients generalizing all_fds room with
  | nil =>
    obtain ⟨quiet, members, tracks⟩ := settled
    refine ⟨{ room with listening := false }, ?_, rfl, members, quiet.2⟩
    simp [clean_exit, replay_cons, Room.step, quiet, quiet.2.2]
  | cons curr rest ih =>
    obtain ⟨room', left, settled⟩ := @Settled.leave _ _ [] rest curr _ _ settled
    obtain ⟨t, shown, ends⟩ := ih settled
    refine ⟨t, ?_, ends⟩
    rw [clean_exit, List.map_cons, List.cons_append, replay_cons, left]
    exact shown

section
variable (net : Sockets W) (H : Helpers W) (fuel : Nat) (sock_fd : Int)

/-- What is true of `main` and the room whenever `select` is about to be called. -/
private def Ready (s : State W) (room : Room) : Prop := Settled sock_fd s.max_fd s.clients s.all_fds room

private theorem continue_loop_watched {s : State W} {room : Room} (ready : Ready sock_fd s room) :
    Watched (Room.step sock_fd) room (continue_loop net sock_fd s) (Ready sock_fd) Shut := by
  unfold continue_loop
  dsimp only
  split
  · exact clean_exit_watched ready 0
  · exact watched_pure ready

private theorem serve_clients_watched (listen_fds : List Int) {s : State W} {room : Room} (ready : Ready sock_fd s room) :
    Watched (Room.step sock_fd) room (serve_clients net H fuel sock_fd listen_fds s) (Ready sock_fd) Shut := by
  rw [serve_clients]
  rcases net.sigint_received s.world with ⟨sigint_received, world⟩
  dsimp only
  split
  · exact clean_exit_watched ready 0
  · apply (serve_watched H fuel listen_fds s.clients.length ⟨s.all_fds, world⟩ [] s.clients ready).bind
    exact fun _ _ settled => continue_loop_watched net sock_fd settled

private theorem accept_and_serve_watched (listen_fds : List Int) {s : State W} {room : Room} (ready : Ready sock_fd s room) :
    Watched (Room.step sock_fd) room (accept_and_serve net H fuel sock_fd listen_fds s) (Ready sock_fd) Shut := by
  rw [accept_and_serve]
  by_cases idle : sock_fd ∉ listen_fds
  · rw [if_pos idle]
    exact serve_clients_watched net H fuel sock_fd listen_fds ready
  rw [if_neg idle]
  have unused := net.unused s.world (sock_fd :: s.clients.map (·.sock_fd))
  rcases called : net.accept s.world (sock_fd :: s.clients.map (·.sock_fd)) with ⟨client_fd, world⟩
  rw [called] at unused ⊢
  dsimp only at unused ⊢
  obtain ⟨quiet, members, tracks⟩ := ready
  by_cases failed : client_fd < 0
  · rw [accept_connection_exits failed]
    exact watched_emit (t := { room with listening := false })
      (by simp [replay_cons, Room.step, quiet, quiet.2.2]) (watched_halt trivial)
  have valid : 0 ≤ client_fd := by omega
  have fresh : client_fd ∉ sock_fd :: room.members := by
    rw [members]
    exact unused valid
  have count : room.members.length = s.clients.length := by rw [members, fdsOf, List.length_map]
  by_cases place : s.clients.length ≤ MAX_CONNECTIONS
  · have grows : fdsOf (s.clients ++ [newclient client_fd]) = fdsOf s.clients ++ [client_fd] := by simp [newclient]
    rw [accept_connection_appends valid place]
    apply watched_emit (t := { room with members := fdsOf (s.clients ++ [newclient client_fd]) })
    · rw [List.map_nil, replay_cons, Room.step, if_pos ⟨quiet, fresh⟩, if_pos (by omega), members, grows]
      rfl
    rw [if_neg failed]
    rw [members] at fresh
    refine watched_emit rfl (serve_clients_watched net H fuel sock_fd listen_fds ⟨quiet, rfl, ?_⟩)
    rw [grows]
    exact tracks.set fresh
  · rw [accept_connection_refuses valid (by omega)]
    apply watched_emit (t := room)
    · rw [List.map_cons, List.map_nil, replay_cons, Room.step, if_pos ⟨quiet, fresh⟩, if_neg (by omega), Option.bind_some,
        replay_cons, Room.step, if_pos rfl, Option.bind_some, replay_nil, ← quiet.2.2]
    rw [if_pos (by decide)]
    exact watched_emit rfl (continue_loop_watched net sock_fd ⟨quiet, members, tracks⟩)

private theorem main_round_watched (s : State W) (room : Room) (ready : Ready sock_fd s room) :
    Watched (Room.step sock_fd) room (main_round net H fuel sock_fd s) (Ready sock_fd) Shut := by
  unfold main_round
  have watching : replay (Room.step sock_fd) room
      [.select (s.max_fd + 1) s.all_fds (net.select s.world (s.max_fd + 1) s.all_fds).1] = some room := by
    obtain ⟨quiet, members, tracks⟩ := ready
    have bound : ∀ fd ∈ s.all_fds, fd < s.max_fd + 1 := by
      intro fd member
      have := tracks.bound fd (tracks.watched.subset member)
      omega
    rw [← members] at tracks
    rw [replay_cons, Room.step, if_pos ⟨quiet, tracks.watched, bound⟩]
    rfl
  dsimp only
  apply watched_emit watching
  split
  · exact clean_exit_watched ready 0
  split
  · exact continue_loop_watched net sock_fd ready
  · exact watched_emit rfl (clean_exit_watched ready 1)
  · exact accept_and_serve_watched net H fuel sock_fd _ ready

private theorem main_watched (rounds : Nat) (w : W) :
    Watched (Room.step sock_fd) Room.empty (main net H fuel sock_fd rounds w) (Ready sock_fd) Shut := by
  apply Watched.iterate (main_round_watched net H fuel sock_fd)
  refine ⟨⟨rfl, rfl, rfl⟩, rfl, by simp, List.Perm.refl _, ?_⟩
  intro fd member
  simp only [fdsOf_nil, List.mem_singleton] at member
  exact Int.le_of_eq member

/-- Whatever the helper functions and the network do, the server is a chat room: what it does is allowed there one
    after the other, and it has the clients that are in the room. When it exits, nobody is. -/
theorem main_room (rounds : Nat) (w : W) :
    ∃ room, replay (Room.step sock_fd) Room.empty (main net H fuel sock_fd rounds w).events = some room ∧
      room.members.length ≤ MAX_CONNECTIONS + 1 ∧
      match (main net H fuel sock_fd rounds w).result with
      | .ok s => room.Quiet ∧ room.members = s.clients.map (·.sock_fd)
      | .error (.exit _) => room.listening = false ∧ room.members = []
      | .error _ => True := by
  obtain ⟨room, shown, ends⟩ := main_watched net H fuel sock_fd rounds w
  refine ⟨room, shown, members_replay shown, ?_⟩
  cases result : (main net H fuel sock_fd rounds w).result with
  | ok s =>
    rw [result] at ends
    exact ⟨ends.quiet, ends.members⟩
  | error h =>
    rw [result] at ends
    cases h with
    | exit status => exact ⟨ends.1, ends.2.1⟩
    | _ => trivial

/-- No descriptor is closed more often than it has been opened, the listening one among them. What has not been
    closed while the server runs is the connection of a client, and when it exits everything has been closed. -/
theorem descriptors_closed (rounds : Nat) (w : W) :
    let run := main net H fuel sock_fd rounds w
    (∀ fd, (closed run.events).count fd ≤ (sock_fd :: accepted run.events).count fd) ∧
      match run.result with
      | .ok s => (s.clients.map (·.sock_fd) ++ closed run.events).Perm (accepted run.events)
      | .error (.exit _) => (closed run.events).Perm (sock_fd :: accepted run.events)
      | .error _ => True := by
  intro run
  have watched : Watched (Room.step sock_fd) Room.empty run (Ready sock_fd) Shut := main_watched net H fuel sock_fd rounds w
  obtain ⟨room, shown, ends⟩ := watched
  have ledger : (room.opens sock_fd ++ closed run.events).Perm (sock_fd :: accepted run.events) := opens_replay shown
  constructor
  · intro fd
    rw [← ledger.count_eq, List.count_append]
    exact Nat.le_add_left _ _
  cases result : run.result with
  | ok s =>
    rw [result] at ends
    obtain ⟨⟨listens, -, none⟩, members, -⟩ := ends
    simpa [Room.opens, listens, none, members, fdsOf] using ledger
  | error h =>
    rw [result] at ends
    cases h with
    | exit status =>
      obtain ⟨deaf, empty, -, none⟩ := ends
      simpa [Room.opens, deaf, empty, none] using ledger
    | _ => trivial

/-- Every `select` waits for the listening socket and for the connections that have been accepted and not closed, and
    for no other. -/
theorem select_watches (rounds : Nat) (w : W) {before behind : List Event} {nfds : Int} {readfds : List Int} {answer : Answer}
    (selects : (main net H fuel sock_fd rounds w).events = before ++ .select nfds readfds answer :: behind) :
    (readfds ++ closed before).Perm (sock_fd :: accepted before) ∧ ∀ fd ∈ readfds, fd < nfds := by
  obtain ⟨room, shown, -⟩ := main_watched net H fuel sock_fd rounds w
  rw [selects, replay_append, Option.bind_eq_some_iff] at shown
  obtain ⟨there, shown, allowed⟩ := shown
  have ledger : (there.opens sock_fd ++ closed before).Perm (sock_fd :: accepted before) := opens_replay shown
  rw [replay_cons, Option.bind_eq_some_iff] at allowed
  obtain ⟨_, taken, -⟩ := allowed
  simp only [Room.step, Option.ite_none_right_eq_some] at taken
  obtain ⟨⟨⟨listens, -, none⟩, watched, bound⟩, -⟩ := taken
  refine ⟨(watched.append_right _).trans ?_, bound⟩
  simpa [Room.opens, listens, none] using ledger

/-- The run has come to the end of a round, or of `main`. -/
def Complete : Except Halt (State W) → Prop
  | .ok _ => True
  | .error (.exit _) => True
  | .error _ => False

/-- A message is written to every client but the one it comes from, once and to nobody else, before the server takes
    the next message and before it waits again. -/
theorem message_reaches (rounds : Nat) (w : W) (complete : Complete (main net H fuel sock_fd rounds w).result)
    {before behind : List Event} {fd : Int} {username msg : List Byte}
    (speaks : (main net H fuel sock_fd rounds w).events = before ++ .message fd username msg :: behind) :
    ∃ members, members.Nodup ∧ (members ++ closed before).Perm (accepted before) ∧ fd ∈ members ∧
      let others := (members.filter (· ≠ fd)).map (·, said username msg)
      written (behind.takeWhile fun e => !e.speaks) = others ∧
        written (behind.takeWhile fun e => !(e.speaks || e.waits)) = others := by
  obtain ⟨room, shown, ends⟩ := main_watched net H fuel sock_fd rounds w
  have done : room.due = [] := by
    cases result : (main net H fuel sock_fd rounds w).result with
    | ok s =>
      rw [result] at ends
      exact ends.quiet.2.1
    | error h =>
      rw [result] at ends complete
      cases h with
      | exit status => exact ends.2.2.1
      | _ => exact complete.elim
  rw [speaks, replay_append, Option.bind_eq_some_iff] at shown
  obtain ⟨there, shown, allowed⟩ := shown
  have ledger : (there.opens sock_fd ++ closed before).Perm (sock_fd :: accepted before) := opens_replay shown
  have nodup : (there.opens sock_fd).Nodup := nodup_replay shown
  rw [replay_cons, Option.bind_eq_some_iff] at allowed
  obtain ⟨spoken, taken, ran⟩ := allowed
  simp only [Room.step, Option.ite_none_right_eq_some, Option.some.injEq] at taken
  obtain ⟨⟨⟨listens, -, none⟩, member, -⟩, rfl⟩ := taken
  simp only [Room.opens, listens, none, reduceIte, Option.toList_none, List.append_nil, List.singleton_append] at ledger nodup
  refine ⟨there.members, (List.nodup_cons.mp nodup).2, ?_, member, ?_, ?_⟩
  · rwa [List.cons_append, List.perm_cons] at ledger
  · exact due_replay ran done (by simp) (by simp +contextual)
  · exact due_replay ran done (by simp +contextual) fun e stops => by rwa [Bool.not_eq_false', Bool.or_eq_true] at stops

end

/-- A network on which two clients connect, of which the first then writes. -/
def twoCallers : Sockets Nat where
  select w _ _ := (.ready [if w < 2 then 3 else 4], w + 1)
  accept w fds := (if 4 ∈ fds then if 5 ∈ fds then -1 else 5 else 4, w)
  sigint_received w := (false, w)
  unused _ fds valid := by
    by_cases first : 4 ∈ fds
    · by_cases second : 5 ∈ fds
      · simp [first, second] at valid
      · simp [first, second]
    · simp [first]

/-- Helper functions that find one message on it. -/
def oneMessage : Helpers Nat where
  read_from_client w curr := (0, curr, w)
  set_username w curr := some (0, { curr with username := some (lit "ann") }, w)
  get_message w curr := if w = 3 then (0, lit "hi", curr, 4) else (1, [], curr, w)
  write_buf_to_client w _ _ := (0, w)
  remove_client w _ _ := (0, w)
  read_from_client_fd _ _ := rfl
  set_username_fd w curr r found := by
    cases found
    rfl
  get_message_fd w curr := by split <;> rfl

/-- What comes in front of the message. -/
def calling : List Event :=
  [.select 4 [3] (.ready [3]), .accept 4, .printf (lit "Accepted connection\n"), .select 5 [4, 3] (.ready [3]), .accept 5,
    .printf (lit "Accepted connection\n")]

def naming : Event := .printf (lit "Client " ++ number 4 ++ lit " user name is " ++ lit "ann" ++ lit ".\n")

/-- What comes behind it. -/
def talking : List Event :=
  [.printf (lit "Echoing message from " ++ lit "ann" ++ lit ".\n"), .write 5 (lit "ann hi") 0,
    .printf (lit "Sent message from " ++ (lit "ann" ++ lit " (" ++ number 4 ++ lit ")") ++ lit " to " ++
      (lit "(null)" ++ lit " (" ++ number 5 ++ lit ")") ++ lit ".\n")]

theorem select_watches_callers :
    ([5, 4, 3] ++ closed calling).Perm (3 :: accepted calling) ∧ ∀ fd ∈ ([5, 4, 3] : List Int), fd < 6 :=
  @select_watches Nat twoCallers oneMessage 2 3 3 0 calling (naming :: .message 4 (lit "ann") (lit "hi") :: talking) 6 [5, 4, 3]
    (.ready [4]) rfl

theorem message_reaches_callers : ∃ members : List Int,
    members.Nodup ∧ (members ++ closed calling).Perm (accepted calling) ∧ 4 ∈ members ∧
      let others := (members.filter (· ≠ 4)).map (·, said (lit "ann") (lit "hi"))
      written (talking.takeWhile fun e => !e.speaks) = others ∧
        written (talking.takeWhile fun e => !(e.speaks || e.waits)) = others :=
  @message_reaches Nat twoCallers oneMessage 2 3 3 0 trivial (calling ++ [.select 6 [5, 4, 3] (.ready [4]), naming]) talking 4
    (lit "ann") (lit "hi") rfl

end BashInC.ChatRoom
