import BashInC.Chat
import BashInC.Clib.Traces
import BashInC.Validate

/-!
The main loop of the chat server. The functions of its helper files, which are only
begun, are a parameter (`Helpers`), with those that are there as an instance
(`begun`). The server with these passes no message on, and ends with the first
client that is ready (`begun_main`).
-/
namespace BashInC.Server
open Clib.Strings Clib.Traces BashInC.Validate BashInC.Chat
variable {W : Type*}

/-! ### The code -/

def MAX_NAME : Nat := 10

def MAX_USER_MSG : Nat := 128

/-- What `select` answers: the descriptors that are ready, or that it was interrupted or has failed. -/
inductive Answer
  | ready (listen_fds : List Int)
  | interrupted
  | failed
  deriving DecidableEq

/-- What can be seen of the server. -/
inductive Event
  | select (nfds : Int) (readfds : List Int) (answer : Answer)
  | accept (client_fd : Int)
  | message (sock_fd : Int) (username msg : List Byte)
  | write (sock_fd : Int) (text : List Byte) (ret : Int)
  | close (fd : Int)
  | printf (text : List Byte)
  | perror (s : List Byte)
  deriving DecidableEq

/-- Why the server ends: at the end of `main`, in `accept_connection`, in an assertion, where its behaviour is not
    defined; or it goes on for longer than was waited. -/
inductive Halt
  | exit (status : Int)
  | accept
  | assertion
  | undefined
  | waiting
  deriving DecidableEq

/-- The system calls. A descriptor that `accept` returns is not one that is open already. -/
structure Sockets (W : Type*) where
  select : W → Int → List Int → Answer × W
  accept : W → List Int → Int × W
  sigint_received : W → Bool × W
  unused : ∀ w fds, 0 ≤ (accept w fds).1 → (accept w fds).1 ∉ fds

/-- The functions of the helper files, which leave the descriptor of a client as it is. A call of `remove_client`
    that returns 0 has taken the client out of the list; `set_username` may end without a result. -/
structure Helpers (W : Type*) where
  read_from_client : W → ClientSock → Int × ClientSock × W
  set_username : W → ClientSock → Option (Int × ClientSock × W)
  get_message : W → ClientSock → Int × List Byte × ClientSock × W
  write_buf_to_client : W → ClientSock → List Byte → Int × W
  remove_client : W → ClientSock → List ClientSock → Int × W
  read_from_client_fd : ∀ w curr, (read_from_client w curr).2.1.sock_fd = curr.sock_fd
  set_username_fd : ∀ w curr, ∀ r ∈ set_username w curr, r.2.1.sock_fd = curr.sock_fd
  get_message_fd : ∀ w curr, (get_message w curr).2.2.1.sock_fd = curr.sock_fd

/-- The functions that are there. -/
def begun : Helpers W where
  read_from_client w curr := (-1, curr, w)
  set_username _ _ := none
  get_message w curr := (1, [], curr, w)
  write_buf_to_client w _ _ := (1, w)
  remove_client w _ _ := (1, w)
  read_from_client_fd _ _ := rfl
  set_username_fd _ _ _ absent := by simp at absent
  get_message_fd _ _ := rfl

def FD_SET (fd : Int) (set : List Int) : List Int := set.insert fd

def FD_CLR (fd : Int) (set : List Int) : List Int := set.filter (· ≠ fd)

/-- `%d` -/
def number (n : Int) : List Byte := lit (toString n)

/-- `%s` of a user name, which may be NULL. -/
def shown : Option (List Byte) → List Byte
  | none => lit "(null)"
  | some username => (CStr.of username).1

/-- `%s (%d)` of a client. -/
def who (client : ClientSock) : List Byte := shown client.username ++ lit " (" ++ number client.sock_fd ++ lit ")"

/-- The watched descriptors, as the loop over the clients changes them. -/
structure Watch (W : Type*) where
  all_fds : List Int
  world : W

section
variable (H : Helpers W)

/-- The loop over `dest_c`, on some of the clients, none of which is `curr`, between those in front of them and those
    behind; with the ones that are kept. -/
def send (curr : ClientSock) (write_buf : List Byte) (front behind : List ClientSock) :
    Watch W → List ClientSock → List ClientSock → Run Event Halt (Watch W × List ClientSock)
  | watch, kept, [] => pure (watch, kept)
  | watch, kept, dest_c :: rest =>
    let (ret, world) := H.write_buf_to_client watch.world dest_c write_buf
    if ret = 0 then do
      emit [.write dest_c.sock_fd write_buf ret,
        .printf (lit "Sent message from " ++ who curr ++ lit " to " ++ who dest_c ++ lit ".\n")]
      send curr write_buf front behind ⟨watch.all_fds, world⟩ (kept ++ [dest_c]) rest
    else if ret = 2 then
      let (removed, world) := H.remove_client world dest_c (front ++ kept ++ dest_c :: rest ++ behind)
      do
        emit [.write dest_c.sock_fd write_buf ret,
          .printf (lit "Failed to send message to user " ++ who dest_c ++ lit ".\n"),
          .printf (lit "User " ++ who dest_c ++ lit " disconnected.\n"), .close dest_c.sock_fd]
        if removed = 0 then send curr write_buf front behind ⟨FD_CLR dest_c.sock_fd watch.all_fds, world⟩ kept rest
        else halt .assertion
    else do
      emit [.write dest_c.sock_fd write_buf ret,
        .printf (lit "Failed to send message to user " ++ who dest_c ++ lit ".\n")]
      send curr write_buf front behind ⟨watch.all_fds, world⟩ (kept ++ [dest_c]) rest

/-- What is sent for a message. -/
def said (username msg : List Byte) : List Byte :=
  strncat (strncat (strncat [] (CStr.of username).1 MAX_NAME) (lit " ") MAX_NAME) (CStr.of msg).1 MAX_USER_MSG

/-- `write_buf` has room for it, and for CRLF and the terminator behind it. -/
theorem said_fits (username msg : List Byte) : (said username msg).length + 2 < BUF_SIZE := by
  have name := List.length_take_le MAX_NAME (CStr.of username).1
  have text := List.length_take_le MAX_USER_MSG (CStr.of msg).1
  have blank : ((lit " ").take MAX_NAME).length = 1 := by decide
  simp only [said, strncat, List.nil_append, List.length_append, blank]
  unfold MAX_NAME at name
  unfold MAX_USER_MSG at text
  unfold BUF_SIZE MAX_NAME MAX_USER_MSG
  omega

/-- The clients, around the one whose messages are read. -/
structure Place where
  passed : List ClientSock
  curr : ClientSock
  rest : List ClientSock

def Place.clients (place : Place) : List ClientSock := place.passed ++ place.curr :: place.rest

/-- `while (client_closed == 0 && !get_message(...)) { ... }`, when `client_closed` is 0. -/
def echo_messages : Nat → Watch W → Place → Run Event Halt (Watch W × Place)
  | 0, _, _ => halt .waiting
  | fuel + 1, watch, ⟨passed, curr, rest⟩ =>
    let (ret, msg, curr, world) := H.get_message watch.world curr
    if ret ≠ 0 then pure (⟨watch.all_fds, world⟩, ⟨passed, curr, rest⟩)
    else
      match curr.username with
      -- `strncat` from NULL
      | none => halt .undefined
      | some username => do
        emit [.message curr.sock_fd username msg, .printf (lit "Echoing message from " ++ shown curr.username ++ lit ".\n")]
        let (watch, passed) ← send H curr (said username msg) [] (curr :: rest) ⟨watch.all_fds, world⟩ [] passed
        let (watch, rest) ← send H curr (said username msg) (passed ++ [curr]) [] watch [] rest
        echo_messages fuel watch ⟨passed, curr, rest⟩

/-- The user name of a client that has sent its first message, with the `client_closed` behind it. -/
def introduce (client_closed : Int) (world : W) (curr : ClientSock) : Run Event Halt (Int × ClientSock × W) :=
  if client_closed = 0 ∧ curr.username = none then
    match H.set_username world curr with
    | none => halt .undefined
    | some (ret, curr, world) =>
      if ret ≠ 0 then do
        emit [.printf (lit "Error processing user name from client " ++ number curr.sock_fd ++ lit ".\n")]
        pure (1, curr, world)
      else do
        emit [.printf (lit "Client " ++ number curr.sock_fd ++ lit " user name is " ++ shown curr.username ++ lit ".\n")]
        pure (client_closed, curr, world)
  else pure (client_closed, curr, world)

/-- What is done for a client that is ready, up to the last check of `client_closed`. -/
def hear (fuel : Nat) (watch : Watch W) (place : Place) : Run Event Halt (Int × Watch W × Place) :=
  let (ret, curr, world) := H.read_from_client watch.world place.curr
  do
    let (client_closed, curr, world) ← introduce H (if ret = -1 then 1 else ret) world curr
    let watch := ⟨watch.all_fds, world⟩
    let place := ⟨place.passed, curr, place.rest⟩
    let (watch, place) ← (if client_closed = 0 then echo_messages H fuel watch place else pure (watch, place))
    pure (client_closed, watch, place)

/-- The loop over `curr`, which comes to at most `n` clients more. -/
def serve (fuel : Nat) (listen_fds : List Int) :
    Nat → Watch W → List ClientSock → List ClientSock → Run Event Halt (Watch W × List ClientSock)
  | _, watch, passed, [] => pure (watch, passed)
  | 0, _, _, _ :: _ => halt .waiting
  | n + 1, watch, passed, curr :: rest =>
    if curr.sock_fd ∉ listen_fds then serve fuel listen_fds n watch (passed ++ [curr]) rest
    else do
      let (client_closed, watch, ⟨passed, curr, rest⟩) ← hear H fuel watch ⟨passed, curr, rest⟩
      if client_closed = 1 then
        let (removed, world) := H.remove_client watch.world curr (passed ++ curr :: rest)
        do
          emit [.close curr.sock_fd, .printf (lit "Client " ++ number curr.sock_fd ++ lit " disconnected\n")]
          if removed = 0 then serve fuel listen_fds n ⟨FD_CLR curr.sock_fd watch.all_fds, world⟩ passed rest
          else halt .assertion
      else serve fuel listen_fds n watch (passed ++ [curr]) rest

end

/-- The state of `main`, when it is about to call `select`. -/
structure State (W : Type*) extends Watch W where
  clients : List ClientSock
  max_fd : Int

/-- `clean_exit`, on the descriptor of the listening socket. -/
def clean_exit {α : Type*} (sock_fd : Int) (clients : List ClientSock) (exit_status : Int) : Run Event Halt α :=
  ⟨clients.map (.close ·.sock_fd) ++ [.close sock_fd], .error (.exit exit_status)⟩

section
variable (net : Sockets W) (H : Helpers W) (fuel : Nat) (sock_fd : Int)

/-- The condition of the loop. -/
def continue_loop (s : State W) : Run Event Halt (State W) :=
  let (sigint_received, world) := net.sigint_received s.world
  if sigint_received then clean_exit sock_fd s.clients 0 else pure { s with world }

/-- A round from the check behind `accept_connection` on. -/
def serve_clients (listen_fds : List Int) (s : State W) : Run Event Halt (State W) :=
  let (sigint_received, world) := net.sigint_received s.world
  if sigint_received then clean_exit sock_fd s.clients 0
  else do
    let (watch, clients) ← serve H fuel listen_fds s.clients.length ⟨s.all_fds, world⟩ [] s.clients
    continue_loop net sock_fd ⟨watch, clients, s.max_fd⟩

/-- A round in which `select` has found some descriptors. -/
def accept_and_serve (listen_fds : List Int) (s : State W) : Run Event Halt (State W) :=
  if sock_fd ∉ listen_fds then serve_clients net H fuel sock_fd listen_fds s
  else
    let (client_fd, world) := net.accept s.world (sock_fd :: s.clients.map (·.sock_fd))
    match accept_connection client_fd s.clients with
    | none => do
      emit [.perror (lit "server: accept"), .close sock_fd]
      halt .accept
    | some ⟨ret, clients, closed⟩ => do
      emit (.accept client_fd :: closed.map .close)
      if ret < 0 then do
        emit [.printf (lit "Failed to accept incoming connection.\n")]
        continue_loop net sock_fd ⟨⟨s.all_fds, world⟩, clients, s.max_fd⟩
      else do
        emit [.printf (lit "Accepted connection\n")]
        let max_fd := if s.max_fd < ret then ret else s.max_fd
        serve_clients net H fuel sock_fd listen_fds ⟨⟨FD_SET ret s.all_fds, world⟩, clients, max_fd⟩

/-- A round of the loop. -/
def main_round (s : State W) : Run Event Halt (State W) :=
  let (answer, world) := net.select s.world (s.max_fd + 1) s.all_fds
  let (sigint_received, world) := net.sigint_received world
  do
    emit [.select (s.max_fd + 1) s.all_fds answer]
    if sigint_received then clean_exit sock_fd s.clients 0
    else
      match answer with
      | .interrupted => continue_loop net sock_fd { s with world }
      | .failed => do
        emit [.perror (lit "server: select")]
        clean_exit sock_fd s.clients 1
      | .ready listen_fds => accept_and_serve net H fuel sock_fd listen_fds { s with world }

/-- What `main` does once its socket is set up, up to a number of rounds. -/
def main (rounds : Nat) (w : W) : Run Event Halt (State W) :=
  iterate (main_round net H fuel sock_fd) rounds ⟨⟨[sock_fd], w⟩, [], sock_fd⟩

end

/-! ### The loop over the clients -/

section
variable (H : Helpers W)

/-- A message takes nobody in. -/
private theorem send_length (curr : ClientSock) (text : List Byte) (front behind : List ClientSock) {watch : Watch W}
    {kept rest : List ClientSock} {a : Watch W × List ClientSock}
    (sent : (send H curr text front behind watch kept rest).result = .ok a) : a.2.length ≤ kept.length + rest.length := by
  induction rest generalizing watch kept with
  | nil =>
    cases sent
    simp
  | cons dest_c rest ih =>
    have count : (kept ++ [dest_c]).length + rest.length = kept.length + (dest_c :: rest).length := by
      simp only [List.length_append, List.length_cons, List.length_nil]
      omega
    rw [send] at sent
    rcases written : H.write_buf_to_client watch.world dest_c text with ⟨ret, world⟩
    rw [written] at sent
    dsimp only at sent
    by_cases answered : ret = 0
    · rw [if_pos answered, emit_bind_result] at sent
      rw [← count]
      exact ih sent
    rw [if_neg answered] at sent
    by_cases dropped : ret = 2
    · rw [if_pos dropped, emit_bind_result] at sent
      split at sent
      · have := ih sent
        rw [List.length_cons]
        omega
      · cases sent
    · rw [if_neg dropped, emit_bind_result] at sent
      rw [← count]
      exact ih sent

private theorem echo_messages_length {fuel : Nat} {watch : Watch W} {place : Place} {a : Watch W × Place}
    (echoed : (echo_messages H fuel watch place).result = .ok a) : a.2.rest.length ≤ place.rest.length := by
  induction fuel generalizing watch place with
  | zero => cases echoed
  | succ fuel ih =>
    obtain ⟨passed, curr, rest⟩ := place
    rw [echo_messages] at echoed
    rcases got : H.get_message watch.world curr with ⟨ret, msg, curr', world⟩
    rw [got] at echoed
    dsimp only at echoed
    by_cases found : ret ≠ 0
    · rw [if_pos found] at echoed
      cases echoed
      exact Nat.le_refl _
    rw [if_neg found] at echoed
    cases named : curr'.username with
    | none =>
      rw [named] at echoed
      cases echoed
    | some username =>
      rw [named] at echoed
      dsimp only at echoed
      rw [emit_bind_result, bind_result_ok] at echoed
      obtain ⟨front, -, echoed⟩ := echoed
      rw [bind_result_ok] at echoed
      obtain ⟨behind, sent, echoed⟩ := echoed
      have := send_length H curr' _ _ _ sent
      have := ih echoed
      simp only [List.length_nil, Nat.zero_add] at *
      omega

private theorem hear_length {fuel : Nat} {watch : Watch W} {place : Place} {a : Int × Watch W × Place}
    (heard : (hear H fuel watch place).result = .ok a) : a.2.2.rest.length ≤ place.rest.length := by
  rw [hear] at heard
  dsimp only at heard
  rw [bind_result_ok] at heard
  obtain ⟨introduced, -, heard⟩ := heard
  rw [bind_result_ok] at heard
  obtain ⟨echoed, ends, heard⟩ := heard
  cases heard
  split at ends
  · have fewer := echo_messages_length H ends
    exact fewer
  · cases ends
    exact Nat.le_refl _

/-- As many rounds as there are clients are enough. -/
theorem serve_enough (fuel : Nat) (listen_fds : List Int) {n m : Nat} (watch : Watch W) (passed : List ClientSock)
    {rest : List ClientSock} (enough : rest.length ≤ n) (enough' : rest.length ≤ m) :
    serve H fuel listen_fds n watch passed rest = serve H fuel listen_fds m watch passed rest := by
  induction n generalizing m watch passed rest with
  | zero =>
    obtain rfl : rest = [] := List.length_eq_zero_iff.mp (Nat.le_zero.mp enough)
    rw [serve, serve]
  | succ n ih =>
    cases rest with
    | nil => rw [serve, serve]
    | cons curr rest =>
      cases m with
      | zero => simp at enough'
      | succ m =>
        rw [List.length_cons] at enough enough'
        rw [serve, serve]
        by_cases unready : curr.sock_fd ∉ listen_fds
        · rw [if_pos unready, if_pos unready]
          exact ih watch (passed ++ [curr]) (by omega) (by omega)
        rw [if_neg unready, if_neg unready]
        apply Run.bind_congr
        rintro ⟨client_closed, watch, ⟨passed, curr, rest'⟩⟩ heard
        have fewer := hear_length H heard
        dsimp only at fewer ⊢
        split
        · apply Run.bind_congr
          rintro - -
          split
          · exact ih _ passed (by omega) (by omega)
          · rfl
        · exact ih watch (passed ++ [curr]) (by omega) (by omega)

end

/-! ### Events -/

def Event.speaks : Event → Bool
  | .message .. => true
  | _ => false

def Event.waits : Event → Bool
  | .select .. => true
  | _ => false

def accepted (events : List Event) : List Int :=
  events.filterMap fun
    | .accept fd => some fd
    | _ => none

def closed (events : List Event) : List Int :=
  events.filterMap fun
    | .close fd => some fd
    | _ => none

theorem accepted_append (events more : List Event) : accepted (events ++ more) = accepted events ++ accepted more :=
  List.filterMap_append

theorem closed_append (events more : List Event) : closed (events ++ more) = closed events ++ closed more :=
  List.filterMap_append

theorem accept_connection_exits {client_fd : Int} (failed : client_fd < 0) (clients : List ClientSock) :
    accept_connection client_fd clients = none := by
  simp [accept_connection, failed]

/-! ### The server with the functions that are there -/

/-- What has been accepted and closed so far; no message comes, and none is written. -/
private def tally (s : List Int × List Int) : Event → Option (List Int × List Int)
  | .accept fd => some (s.1 ++ [fd], s.2)
  | .close fd => some (s.1, s.2 ++ [fd])
  | .message .. => none
  | .write .. => none
  | _ => some s

/-- An event that passes no message on. -/
def Event.Silent : Event → Prop
  | .message .. => False
  | .write .. => False
  | _ => True

private theorem tally_replay {events : List Event} {t : List Int × List Int} (ran : replay tally ([], []) events = some t) :
    t = (accepted events, closed events) ∧ ∀ e ∈ events, e.Silent := by
  apply replay_invariant (P := fun t shown => t = (accepted shown, closed shown) ∧ ∀ e ∈ shown, e.Silent) ran
    ⟨rfl, List.forall_mem_nil _⟩
  rintro _ shown e t ⟨rfl, silent⟩ taken
  rw [accepted_append, closed_append, List.forall_mem_append]
  cases e with
  | message fd username msg => simp [tally] at taken
  | write fd text ret => simp [tally] at taken
  | _ =>
    cases taken
    exact ⟨by simp [accepted, closed], silent, by simp [Event.Silent]⟩

section
variable (net : Sockets W) (fuel : Nat) (sock_fd : Int)

private theorem hear_begun (watch : Watch W) (place : Place) (t : List Int × List Int)
    (halted : Halt → List Int × List Int → Prop) :
    Watched tally t (hear begun fuel watch place) (fun r t' => r = (1, watch, place) ∧ t' = t) halted :=
  ⟨t, rfl, rfl, rfl⟩

/-- The clients are the first that have been accepted, as they came, and the others have been closed. -/
private def Kept (s : State W) (t : List Int × List Int) : Prop :=
  s.clients = (t.1.take (MAX_CONNECTIONS + 1)).map newclient ∧ t.2 = t.1.drop (MAX_CONNECTIONS + 1)

/-- What has been accepted and closed where the server ends. -/
private def Ended : Halt → List Int × List Int → Prop
  | .exit _, t => t.2 = t.1.drop (MAX_CONNECTIONS + 1) ++ t.1.take (MAX_CONNECTIONS + 1) ++ [sock_fd]
  | .accept, t => t.2 = t.1.drop (MAX_CONNECTIONS + 1) ++ [sock_fd]
  | .assertion, t => ∃ fd ∈ t.1.take (MAX_CONNECTIONS + 1), t.2 = t.1.drop (MAX_CONNECTIONS + 1) ++ [fd]
  | _, _ => False

/-- The first client that is ready is closed, and not found in the list. -/
private theorem serve_begun (listen_fds : List Int) {n : Nat} (watch : Watch W) (passed : List ClientSock)
    {rest : List ClientSock} (enough : rest.length ≤ n) {t : List Int × List Int}
    (missing : ∀ curr ∈ passed ++ rest, Ended sock_fd .assertion (t.1, t.2 ++ [curr.sock_fd])) :
    Watched tally t (serve begun fuel listen_fds n watch passed rest)
      (fun (watch', clients) t' => watch'.all_fds = watch.all_fds ∧ clients = passed ++ rest ∧ t' = t)
      (Ended sock_fd) := by
  induction rest generalizing n passed with
  | nil =>
    rw [serve, List.append_nil]
    exact watched_pure ⟨rfl, rfl, rfl⟩
  | cons curr rest ih =>
    cases n with
    | zero => simp at enough
    | succ n =>
      rw [serve]
      by_cases unready : curr.sock_fd ∉ listen_fds
      · rw [if_pos unready]
        rw [List.append_cons passed curr rest] at missing ⊢
        exact ih (passed ++ [curr]) (Nat.le_of_succ_le_succ enough) missing
      · rw [if_neg unready]
        have told : replay tally t [.close curr.sock_fd,
            .printf (lit "Client " ++ number curr.sock_fd ++ lit " disconnected\n")] = some (t.1, t.2 ++ [curr.sock_fd]) := rfl
        apply (hear_begun fuel watch ⟨passed, curr, rest⟩ t _).bind
        rintro _ _ ⟨rfl, rfl⟩
        exact watched_emit told (watched_halt (missing curr (by simp)))

private theorem tally_close (fds : List Int) (t : List Int × List Int) :
    replay tally t (fds.map .close) = some (t.1, t.2 ++ fds) := by
  induction fds generalizing t with
  | nil => simp
  | cons fd fds ih =>
    rw [List.map_cons, replay_cons, tally, Option.bind_some, ih, List.append_assoc]
    rfl

private theorem clean_exit_begun {s : State W} {t : List Int × List Int} (kept : Kept s t) (status : Int) {α : Type*}
    {value : α → List Int × List Int → Prop} :
    Watched tally t (clean_exit sock_fd s.clients status) value (Ended sock_fd) := by
  obtain ⟨clients, closed⟩ := kept
  have fds : s.clients.map (·.sock_fd) = t.1.take (MAX_CONNECTIONS + 1) := by
    rw [clients, List.map_map]
    exact List.map_id _
  have shut : replay tally t (s.clients.map (.close ·.sock_fd) ++ [.close sock_fd]) =
      some (t.1, t.2 ++ (s.clients.map (·.sock_fd) ++ [sock_fd])) := by
    have told := tally_close (s.clients.map (·.sock_fd) ++ [sock_fd]) t
    rwa [List.map_append, List.map_map] at told
  refine ⟨_, shut, ?_⟩
  rw [fds, closed, ← List.append_assoc]
  rfl

private theorem continue_loop_begun {s : State W} {t : List Int × List Int} (kept : Kept s t) :
    Watched tally t (continue_loop net sock_fd s) Kept (Ended sock_fd) := by
  unfold continue_loop
  dsimp only
  split
  · exact clean_exit_begun sock_fd kept 0
  · exact watched_pure kept

private theorem serve_clients_begun (listen_fds : List Int) {s : State W} {t : List Int × List Int} (kept : Kept s t) :
    Watched tally t (serve_clients net begun fuel sock_fd listen_fds s) Kept (Ended sock_fd) := by
  rw [serve_clients]
  dsimp only
  split
  · exact clean_exit_begun sock_fd kept 0
  have missing : ∀ curr ∈ s.clients, Ended sock_fd .assertion (t.1, t.2 ++ [curr.sock_fd]) := by
    obtain ⟨clients, closed⟩ := kept
    rw [clients]
    intro curr member
    obtain ⟨fd, first, rfl⟩ := List.mem_map.mp member
    exact ⟨fd, first, by rw [closed]; rfl⟩
  apply (serve_begun fuel sock_fd listen_fds ⟨s.all_fds, _⟩ [] (Nat.le_refl _) missing).bind
  rintro ⟨watch, clients⟩ _ ⟨-, rfl, rfl⟩
  exact continue_loop_begun net sock_fd kept

private theorem accept_and_serve_begun (listen_fds : List Int) {s : State W} {t : List Int × List Int} (kept : Kept s t) :
    Watched tally t (accept_and_serve net begun fuel sock_fd listen_fds s) Kept (Ended sock_fd) := by
  rw [accept_and_serve]
  by_cases idle : sock_fd ∉ listen_fds
  · rw [if_pos idle]
    exact serve_clients_begun net fuel sock_fd listen_fds kept
  rw [if_neg idle]
  rcases called : net.accept s.world (sock_fd :: s.clients.map (·.sock_fd)) with ⟨client_fd, world⟩
  rw [called]
  obtain ⟨clients, closed⟩ := kept
  have count : s.clients.length = min (MAX_CONNECTIONS + 1) t.1.length := by
    rw [clients, List.length_map, List.length_take]
  dsimp only
  by_cases failed : client_fd < 0
  · rw [accept_connection_exits failed]
    exact watched_emit rfl (watched_halt (by simp [Ended, closed]))
  have valid : 0 ≤ client_fd := by omega
  by_cases place : s.clients.length ≤ MAX_CONNECTIONS
  · rw [accept_connection_appends valid place]
    apply watched_emit (t := (t.1 ++ [client_fd], t.2)) rfl
    rw [if_neg failed]
    refine watched_emit rfl (serve_clients_begun net fuel sock_fd listen_fds ⟨?_, ?_⟩)
    · rw [List.take_of_length_le (by rw [List.length_append, List.length_singleton]; omega), List.map_append, clients,
        List.take_of_length_le (by omega)]
      rfl
    · rw [List.drop_of_length_le (by rw [List.length_append, List.length_singleton]; omega), closed,
        List.drop_of_length_le (by omega)]
  · rw [accept_connection_refuses valid (by omega)]
    apply watched_emit (t := (t.1 ++ [client_fd], t.2 ++ [client_fd])) rfl
    rw [if_pos (by decide)]
    refine watched_emit rfl (continue_loop_begun net sock_fd ⟨?_, ?_⟩)
    · rw [List.take_append_of_le_length (by omega)]
      exact clients
    · rw [List.drop_append_of_le_length (by omega), closed]

private theorem main_round_begun (s : State W) (t : List Int × List Int) (kept : Kept s t) :
    Watched tally t (main_round net begun fuel sock_fd s) Kept (Ended sock_fd) := by
  unfold main_round
  dsimp only
  apply watched_emit (t := t) rfl
  split
  · exact clean_exit_begun sock_fd kept 0
  split
  · exact continue_loop_begun net sock_fd kept
  · exact watched_emit rfl (clean_exit_begun sock_fd kept 1)
  · exact accept_and_serve_begun net fuel sock_fd _ kept

/-- As the server is, it passes no message on. The clients it has are the first it could accept, the others are closed
    at once. It never takes one out of its list: it exits with all of them, or is ended by the assertion behind the
    first that is ready. -/
theorem begun_main (rounds : Nat) (w : W) :
    let run := main net begun fuel sock_fd rounds w
    let kept := (accepted run.events).take (MAX_CONNECTIONS + 1)
    let refused := (accepted run.events).drop (MAX_CONNECTIONS + 1)
    (∀ e ∈ run.events, e.Silent) ∧
      match run.result with
      | .ok s => s.clients = kept.map newclient ∧ closed run.events = refused
      | .error (.exit _) => closed run.events = refused ++ kept ++ [sock_fd]
      | .error .accept => closed run.events = refused ++ [sock_fd]
      | .error .assertion => ∃ fd ∈ kept, closed run.events = refused ++ [fd]
      | .error _ => False := by
  intro run kept refused
  have fresh : Kept (⟨⟨[sock_fd], w⟩, [], sock_fd⟩ : State W) ([], []) := ⟨rfl, rfl⟩
  have watched : Watched tally ([], []) run Kept (Ended sock_fd) := Watched.iterate (main_round_begun net fuel sock_fd) rounds fresh
  obtain ⟨t, shown, ends⟩ := watched
  obtain ⟨rfl, silent⟩ := tally_replay shown
  refine ⟨silent, ?_⟩
  cases result : run.result with
  | ok s =>
    rw [result] at ends
    exact ends
  | error h =>
    rw [result] at ends
    cases h with
    | _ => exact ends

end

end BashInC.Server
