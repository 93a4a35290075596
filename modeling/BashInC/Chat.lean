import BashInC.Clib.Strings

/-!
The chat server's list of clients. `accept_connection` counts the links of the
list on its way to the tail, one fewer than the clients, so that it refuses a
client only when there are already `MAX_CONNECTIONS + 1`. `capacity_kept_iff`
says how long a server that accepts clients keeps to its capacity.
-/
namespace BashInC.Chat
open Clib.Strings

def MAX_CONNECTIONS : Nat := 12

def BUF_SIZE : Nat := 142

/-- A node of the linked list of clients, without its `next`: the list holds the nodes in order. -/
structure ClientSock where
  sock_fd : Int
  state : Int
  username : Option (List Byte)
  buf : List Byte
  inbuf : Int
  deriving DecidableEq

/-- The client that `accept_connection` makes for a connection. -/
def newclient (client_fd : Int) : ClientSock where
  sock_fd := client_fd
  state := 0
  username := none
  buf := List.replicate BUF_SIZE 0
  inbuf := 0

/-- The locals of the loop: the links followed so far, the clients in front of `curr`, and those from `curr` on,
    none of them when `curr` is NULL. -/
structure Walk where
  num_clients : Nat
  passed : List ClientSock
  curr : List ClientSock

/-- `while (curr != NULL && num_clients < MAX_CONNECTIONS && curr->next != NULL) { ... }` -/
def walk (num_clients : Nat) (passed : List ClientSock) : List ClientSock → Walk
  | curr :: next :: rest =>
    if num_clients < MAX_CONNECTIONS then walk (num_clients + 1) (passed ++ [curr]) (next :: rest)
    else ⟨num_clients, passed, curr :: next :: rest⟩
  | curr => ⟨num_clients, passed, curr⟩

/-- What a call of `accept_connection` leaves: its result, the list, and the descriptors it has closed. -/
structure Accepted where
  ret : Int
  clients : List ClientSock
  closed : List Int

/-- `accept_connection(fd, clients)` when `accept` returns `client_fd`; `none` when the server exits. -/
def accept_connection (client_fd : Int) (clients : List ClientSock) : Option Accepted :=
  let ⟨num_clients, passed, curr⟩ := walk 0 [] clients
  if client_fd < 0 then none
  else if num_clients = MAX_CONNECTIONS then some ⟨-1, clients, [client_fd]⟩
  else
    match clients with
    | [] => some ⟨client_fd, [newclient client_fd], []⟩
    -- The assignment to `curr->next` leaves nothing else behind `curr`.
    | _ => some ⟨client_fd, passed ++ curr.take 1 ++ [newclient client_fd], []⟩

/-! ### Calls -/

/-- The walk reaches the tail of a list that is not too long. -/
private theorem walk_tail (curr : ClientSock) (rest : List ClientSock) {num_clients : Nat} (passed : List ClientSock)
    (short : num_clients + rest.length ≤ MAX_CONNECTIONS) :
    ∃ front tail, walk num_clients passed (curr :: rest) = ⟨num_clients + rest.length, passed ++ front, [tail]⟩ ∧
      front ++ [tail] = curr :: rest := by
  induction rest generalizing curr num_clients passed with
  | nil => exact ⟨[], curr, by simp [walk], rfl⟩
  | cons next rest ih =>
    rw [List.length_cons] at short
    obtain ⟨front, tail, walked, split⟩ := @ih next (num_clients + 1) (passed ++ [curr]) (by omega)
    refine ⟨curr :: front, tail, ?_, by rw [List.cons_append, split]⟩
    rw [walk, if_pos (by omega), walked]
    simp only [List.length_cons, List.append_assoc, List.singleton_append, Walk.mk.injEq, and_true]
    omega

/-- In a longer list it stops after `MAX_CONNECTIONS` links. -/
private theorem walk_full (curr : ClientSock) (rest : List ClientSock) {num_clients : Nat} (passed : List ClientSock)
    (room : num_clients ≤ MAX_CONNECTIONS) (long : MAX_CONNECTIONS ≤ num_clients + rest.length) :
    (walk num_clients passed (curr :: rest)).num_clients = MAX_CONNECTIONS := by
  induction rest generalizing curr num_clients passed with
  | nil =>
    rw [List.length_nil] at long
    simp only [walk]
    omega
  | cons next rest ih =>
    rw [List.length_cons] at long
    by_cases more : num_clients < MAX_CONNECTIONS
    · rw [walk, if_pos more]
      exact ih next _ (by omega) (by omega)
    · rw [walk, if_neg more]
      dsimp only
      omega

/-- A call on at most `MAX_CONNECTIONS` clients appends the new one. -/
theorem accept_connection_appends {client_fd : Int} (accepted : 0 ≤ client_fd) {clients : List ClientSock}
    (short : clients.length ≤ MAX_CONNECTIONS) :
    accept_connection client_fd clients = some ⟨client_fd, clients ++ [newclient client_fd], []⟩ := by
  have valid : ¬ client_fd < 0 := by omega
  cases clients with
  | nil => simp [accept_connection, walk, valid, MAX_CONNECTIONS]
  | cons curr rest =>
    rw [List.length_cons] at short
    obtain ⟨front, tail, walked, split⟩ := @walk_tail curr rest 0 [] (by omega)
    have room : 0 + rest.length ≠ MAX_CONNECTIONS := by omega
    simp only [accept_connection, walked, valid, room, ↓reduceIte, List.nil_append, List.take_succ_cons, List.take_zero, split]

/-- A call on more than `MAX_CONNECTIONS` clients refuses the new one. -/
theorem accept_connection_refuses {client_fd : Int} (accepted : 0 ≤ client_fd) {clients : List ClientSock}
    (full : MAX_CONNECTIONS < clients.length) : accept_connection client_fd clients = some ⟨-1, clients, [client_fd]⟩ := by
  have valid : ¬ client_fd < 0 := by omega
  cases clients with
  | nil => simp at full
  | cons curr rest =>
    rw [List.length_cons] at full
    have counted := @walk_full curr rest 0 [] (Nat.zero_le _) (by omega)
    simp only [accept_connection, valid, counted, ↓reduceIte]

/-! ### Runs -/

/-- A call on a list of clients. -/
structure Call where
  client_fd : Int
  clients : List ClientSock
  result : Accepted

/-- The calls for some connections, one behind the other, until the server exits. -/
def calls : List ClientSock → List Int → List Call
  | _, [] => []
  | clients, client_fd :: rest =>
    match accept_connection client_fd clients with
    | none => []
    | some result => ⟨client_fd, clients, result⟩ :: calls result.clients rest

/-- The call keeps to the capacity: it refuses a client exactly when there are `MAX_CONNECTIONS` already, and
    otherwise appends the new client at the tail. -/
def Call.KeepsCapacity (call : Call) : Prop :=
  call.clients.length ≤ MAX_CONNECTIONS ∧ call.result.clients.length ≤ MAX_CONNECTIONS ∧
    (call.result.ret = -1 ∧ call.result.clients = call.clients ↔ call.clients.length = MAX_CONNECTIONS) ∧
    (call.clients.length ≠ MAX_CONNECTIONS → call.result.clients = call.clients ++ [newclient call.client_fd])

private theorem appended_keepsCapacity_iff {client_fd : Int} (accepted : 0 ≤ client_fd) (clients : List ClientSock) :
    (Call.mk client_fd clients ⟨client_fd, clients ++ [newclient client_fd], []⟩).KeepsCapacity ↔
      clients.length < MAX_CONNECTIONS := by
  have notError : client_fd ≠ -1 := by omega
  simp only [Call.KeepsCapacity, notError, false_and, false_iff, List.length_append, List.length_singleton]
  constructor
  · rintro ⟨-, grown, -⟩
    omega
  · intro room
    exact ⟨by omega, by omega, by omega, fun _ => trivial⟩

/-- A run of calls keeps to the capacity as long as there is room for all of its clients. -/
private theorem calls_keepCapacity_iff {clients : List ClientSock} (short : clients.length ≤ MAX_CONNECTIONS) {fds : List Int}
    (accepted : ∀ client_fd ∈ fds, 0 ≤ client_fd) :
    (∀ call ∈ calls clients fds, call.KeepsCapacity) ↔ clients.length + fds.length ≤ MAX_CONNECTIONS := by
  induction fds generalizing clients with
  | nil => simpa [calls] using short
  | cons client_fd fds ih =>
    rw [List.forall_mem_cons] at accepted
    rw [calls, accept_connection_appends accepted.1 short, List.forall_mem_cons, appended_keepsCapacity_iff accepted.1,
      List.length_cons]
    by_cases room : clients.length < MAX_CONNECTIONS
    · have grown : (clients ++ [newclient client_fd]).length = clients.length + 1 := List.length_append
      have later := @ih (clients ++ [newclient client_fd]) (by omega) accepted.2
      rw [and_iff_right room, later, grown]
      omega
    · constructor
      · rintro ⟨room', -⟩
        exact absurd room' room
      · intro all
        omega

/-- From the empty list, and when every connection is accepted, the calls keep to the capacity of the server
    exactly when there are at most `MAX_CONNECTIONS` of them. -/
theorem capacity_kept_iff {fds : List Int} (accepted : ∀ client_fd ∈ fds, 0 ≤ client_fd) :
    (∀ call ∈ calls [] fds, call.KeepsCapacity) ↔ fds.length ≤ MAX_CONNECTIONS := by
  have kept := @calls_keepCapacity_iff [] (by simp) fds accepted
  rwa [List.length_nil, Nat.zero_add] at kept

theorem capacity_kept_two : [4, 5].length ≤ MAX_CONNECTIONS ∧ ∀ call ∈ calls [] [4, 5], call.KeepsCapacity := by
  have room : [4, 5].length ≤ MAX_CONNECTIONS := by decide
  exact ⟨room, (capacity_kept_iff (by decide)).mpr room⟩

/-- The client behind the last one that there is room for is not refused. -/
theorem capacity_exceeded : ¬ ∀ fds : List Int, (∀ client_fd ∈ fds, 0 ≤ client_fd) → fds.Nodup →
    ∀ call ∈ calls [] fds, call.KeepsCapacity := by
  intro kept
  have valid : ∀ client_fd ∈ ([4, 5, 6, 7, 8, 9, 10, 11, 12, 13, 14, 15, 16] : List Int), 0 ≤ client_fd := by decide
  have room := (calls_keepCapacity_iff (Nat.zero_le _) valid).mp (kept _ valid (by decide))
  exact absurd room (by decide)

/-- The list never holds more than one client beyond the capacity. -/
theorem length_calls_le {clients : List ClientSock} (short : clients.length ≤ MAX_CONNECTIONS + 1) {fds : List Int}
    (accepted : ∀ client_fd ∈ fds, 0 ≤ client_fd) :
    ∀ call ∈ calls clients fds, call.result.clients.length ≤ MAX_CONNECTIONS + 1 := by
  induction fds generalizing clients with
  | nil => simp [calls]
  | cons client_fd fds ih =>
    rw [List.forall_mem_cons] at accepted
    by_cases room : clients.length ≤ MAX_CONNECTIONS
    · have grown : (clients ++ [newclient client_fd]).length = clients.length + 1 := List.length_append
      rw [calls, accept_connection_appends accepted.1 room, List.forall_mem_cons]
      dsimp only
      exact ⟨by omega, ih (by omega) accepted.2⟩
    · rw [calls, accept_connection_refuses accepted.1 (by omega), List.forall_mem_cons]
      exact ⟨short, ih short accepted.2⟩

end BashInC.Chat
