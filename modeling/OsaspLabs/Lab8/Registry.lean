import Mathlib.Data.List.Basic

/-! # The client registry of the LAB_8 server

`main` enters each accepted socket into `client_sockets` and looks at the number of clients
only then. A write behind the array is where C gives the program no meaning, so a run ends
there. -/

namespace OsaspLabs.Lab8

/-- `MAX_CLIENTS` -/
def maxClients : ℕ := 10

structure Registry where
  clientSockets : Vector ℕ maxClients
  numClients : ℕ

/-- What happens to the server over its life. -/
inductive ServerEvent where
  /-- What `accept` returns; nothing for an error. -/
  | accept (socket : Option ℕ)
  /-- A client goes; `handle_server_msg` closes its socket. -/
  | disconnect (socket : ℕ)
  deriving DecidableEq, Repr

/-- What `main` does about an accepted connection. -/
structure Connection where
  socket : ℕ
  /-- The entry of `client_sockets` that is written: so many are registered already. -/
  index : ℕ
  /-- The write lies inside the array. -/
  registered : Bool
  /-- The socket is closed again. -/
  closed : Bool
  deriving DecidableEq, Repr

/-- `client_sockets[num_clients++] = client_socket` -/
def Registry.register (r : Registry) (socket : ℕ) : Option Registry :=
  if h : r.numClients < maxClients then
    some ⟨r.clientSockets.set r.numClients socket, r.numClients + 1⟩
  else none

/-- The connections that the loop of `main` accepts. -/
def Registry.serve : Registry → List ServerEvent → List Connection
  | _, [] => []
  | r, .accept none :: events => r.serve events
  | r, .accept (some socket) :: events =>
      match r.register socket with
      | none => [⟨socket, r.numClients, false, false⟩]
      | some r' => ⟨socket, r.numClients, true, r'.numClients = maxClients⟩ :: r'.serve events
  | r, .disconnect _ :: events => r.serve events

/-- The registry when the server starts. -/
def Registry.empty : Registry := ⟨Vector.replicate maxClients 0, 0⟩

def ServerEvent.isAccepted : ServerEvent → Bool
  | .accept (some _) => true
  | _ => false

/-- The number of connections that are accepted without an error. -/
def accepted (events : List ServerEvent) : ℕ := events.countP ServerEvent.isAccepted

/-- Every write lies inside the registry, and whoever comes when it is full is turned away. -/
def StaysWithinBound (connections : List Connection) : Prop :=
  (∀ c ∈ connections, c.index < maxClients) ∧
    ∀ c ∈ connections, maxClients ≤ c.index → c.closed = true ∧ c.registered = false

theorem Registry.register_room {r : Registry} (h : r.numClients < maxClients) (socket : ℕ) :
    ∃ r', r.register socket = some r' ∧ r'.numClients = r.numClients + 1 :=
  ⟨_, dif_pos h, rfl⟩

/-- As long as all of them fit, the connections get the free entries in turn. -/
theorem Registry.serve_index {r : Registry} {events : List ServerEvent}
    (h : r.numClients + accepted events ≤ maxClients) :
    ∀ c ∈ r.serve events, c.index < maxClients := by
  induction events generalizing r with
  | nil => nofun
  | cons e events ih =>
      cases e with
      | disconnect socket =>
          rw [accepted, List.countP_cons_of_neg (by simp [ServerEvent.isAccepted])] at h
          exact ih h
      | accept socket =>
          cases socket with
          | none =>
              rw [accepted, List.countP_cons_of_neg (by simp [ServerEvent.isAccepted])] at h
              exact ih h
          | some socket =>
              rw [accepted, List.countP_cons_of_pos (by rfl), ← accepted] at h
              have hroom : r.numClients < maxClients := by omega
              obtain ⟨r', hr', hnum⟩ := r.register_room hroom socket
              simp only [Registry.serve, hr', List.forall_mem_cons]
              exact ⟨hroom, ih (by omega)⟩

/-- One connection more than fits is written behind the array. -/
theorem Registry.serve_outside {r : Registry} {events : List ServerEvent}
    (hle : r.numClients ≤ maxClients) (h : maxClients < r.numClients + accepted events) :
    ∃ c ∈ r.serve events, c.index = maxClients := by
  induction events generalizing r with
  | nil =>
      simp only [accepted, List.countP_nil] at h
      omega
  | cons e events ih =>
      cases e with
      | disconnect socket =>
          rw [accepted, List.countP_cons_of_neg (by simp [ServerEvent.isAccepted])] at h
          exact ih hle h
      | accept socket =>
          cases socket with
          | none =>
              rw [accepted, List.countP_cons_of_neg (by simp [ServerEvent.isAccepted])] at h
              exact ih hle h
          | some socket =>
              rw [accepted, List.countP_cons_of_pos (by rfl), ← accepted] at h
              by_cases hroom : r.numClients < maxClients
              · obtain ⟨r', hr', hnum⟩ := r.register_room hroom socket
                obtain ⟨c, hc, hindex⟩ := ih (r := r') (by omega) (by omega)
                simp only [Registry.serve, hr']
                exact ⟨c, List.mem_cons_of_mem _ hc, hindex⟩
              · have hfull : r.register socket = none := dif_neg hroom
                simp only [Registry.serve, hfull]
                exact ⟨_, List.mem_singleton_self _, by dsimp only; omega⟩

/-- The registry keeps its bound if and only if no more than `MAX_CLIENTS` connections are
accepted over the whole life of the server, however many of them have gone. -/
theorem registry_bound_iff (events : List ServerEvent) :
    StaysWithinBound (Registry.empty.serve events) ↔ accepted events ≤ maxClients := by
  have hempty : Registry.empty.numClients = 0 := rfl
  constructor
  · rintro ⟨hindex, _⟩
    by_contra hmany
    obtain ⟨c, hc, hout⟩ : ∃ c ∈ Registry.empty.serve events, c.index = maxClients :=
      Registry.serve_outside (by omega) (by omega)
    have hin := hindex c hc
    omega
  · intro hfew
    have hindex : ∀ c ∈ Registry.empty.serve events, c.index < maxClients :=
      Registry.serve_index (by omega)
    refine ⟨hindex, fun c hc hfull => ?_⟩
    have hin := hindex c hc
    omega

/-- Eleven clients come, each after the one before has gone. -/
theorem eleventh_client_outside :
    ¬ StaysWithinBound (Registry.empty.serve
      ((List.range 11).flatMap fun _ => [.accept (some 4), .disconnect 4])) := by
  intro h
  have hindex := h.1 ⟨4, 10, false, false⟩ (by decide)
  exact absurd hindex (by decide)

end OsaspLabs.Lab8
