import OsaspLabs.Lab8.Commands
import OsaspLabs.Library.Runs

/-! # A client of LAB_8 and its server

The main loop of the client sends a line and waits on a barrier for the thread that receives
the packets of the server. The two streams in between keep no boundaries. -/

namespace OsaspLabs.Lab8

open Memory CString

/-- What `recv` returns. -/
inductive Recv where
  | bytes (count : ℕ)
  /-- It returns 0. -/
  | closed
  /-- It returns -1. -/
  | error

/-- What `fgets` reads into `BUFFER_SIZE` bytes. -/
structure Input where
  text : List UInt8
  nonempty : text ≠ []
  short : text.length < bufferSize
  oneLine : 10 ∉ text.dropLast

inductive MainPc where
  | reading
  | sending
  /-- Before its barrier wait. -/
  | arriving
  | waiting
  /-- After its barrier wait. -/
  | passed
  | exited
  deriving DecidableEq, Repr

inductive ReceiverPc where
  | receiving
  /-- A packet is in the buffer. -/
  | received
  | waiting
  /-- After `break`. -/
  | ended
  deriving DecidableEq, Repr

structure Client where
  main : MainPc
  /-- The string in the buffer of `main`. -/
  line : List UInt8
  /-- `bytes_sent` is not -1. -/
  bytesSent : Bool
  receiver : ReceiverPc
  /-- The buffer of the receiver thread. -/
  buffer : Vector UInt8 packetBufferSize
  currentDir : Vector UInt8 pathMax

inductive ServerPc where
  | receiving
  | handling
  | closed
  deriving DecidableEq, Repr

structure Server where
  pc : ServerPc
  args : Args

structure State where
  client : Client
  server : Server
  toServer : List UInt8
  toClient : List UInt8
  /-- The calls of `send` in the client so far. -/
  lines : ℕ
  /-- The packets that the server has sent so far. -/
  responses : ℕ

inductive Action where
  /-- Without input `fgets` leaves the buffer alone. -/
  | fgets (input : Option Input)
  | send (ok : Bool)
  | arrive
  | release
  | proceed
  | clientRecv (result : Recv)
  /-- `packet` is what the memory for the packet holds. -/
  | handlePacket (packet : Packet)
  | serverRecv (result : Recv)
  | handleRequest (host : Host)

/-! ## The client -/

/-- What the receiver does about a packet once it has looked at it. -/
inductive Reaction where
  /-- It waits on the barrier. -/
  | wait
  | exit
  | again
  deriving DecidableEq, Repr

def reaction (packet : Packet) : Reaction :=
  if packet.type = packetInfo then
    if ofArray packet.data = bye then .exit else .wait
  else if packet.type = packetDirectory ∨ packet.type = packetAck then .wait
  else .again

/-- A directory packet is copied to `current_dir`. -/
def updateDir (currentDir : Vector UInt8 pathMax) (packet : Packet) :
    Option (Vector UInt8 pathMax) :=
  if packet.type = packetDirectory then do
    let path ← stringAt packet.data 0
    strcpy currentDir path
  else some currentDir

/-- The string in the buffer after `fgets`. -/
def Client.read (c : Client) : Option Input → List UInt8
  | none => c.line
  | some input => input.text.takeWhile (· != 0)

def Client.fgets (c : Client) (input : Option Input) : Client :=
  if c.read input = [] then { c with line := [] }
  else { c with line := (c.read input).dropLast, main := .sending }

def Client.proceed (c : Client) : Client :=
  if c.line = ascii ['Q', 'U', 'I', 'T'] ∨ c.bytesSent = false then { c with main := .exited }
  else { c with line := [], main := .reading }

def Client.handlePacket (order : ByteOrder) (packet : Packet) (c : Client) : Option Client := do
  let packet ← deserializePacket order packet c.buffer
  let currentDir ← updateDir c.currentDir packet
  let c := { c with currentDir := currentDir }
  match reaction packet with
  | .wait => some { c with receiver := .waiting }
  | .exit => some { c with main := .exited }
  | .again => some { c with receiver := .receiving }

/-! ## The steps -/

/-- A first part of a stream, not longer than the buffer that takes it. -/
def chunk (stream : List UInt8) (size count : ℕ) : Option (List UInt8) :=
  if 0 < count ∧ count ≤ size ∧ count ≤ stream.length then some (stream.take count) else none

def clientRecv (s : State) : Recv → Option State
  | .bytes count => do
      let bytes ← chunk s.toClient packetBufferSize count
      let buffer ← store s.client.buffer 0 bytes
      some { s with
        client := { s.client with buffer := buffer, receiver := .received }
        toClient := s.toClient.drop count }
  | .closed =>
      if s.server.pc = .closed ∧ s.toClient = [] then
        some { s with client := { s.client with receiver := .received } }
      else none
  | .error => some { s with client := { s.client with receiver := .ended } }

/-- The result of `recv` becomes a `size_t`, so an error counts as a request too. -/
def serverRecv (s : State) : Recv → Option State
  | .bytes count => do
      let bytes ← chunk s.toServer bufferSize count
      let buffer ← store s.server.args.buffer 0 bytes
      some { s with
        server := ⟨.handling, { s.server.args with buffer := buffer, readBytes := count }⟩
        toServer := s.toServer.drop count }
  | .closed =>
      if s.client.main = .exited ∧ s.toServer = [] then
        some { s with server := { s.server with pc := .closed } }
      else none
  | .error =>
      some { s with server := ⟨.handling, { s.server.args with readBytes := 2 ^ 64 - 1 }⟩ }

def step (order : ByteOrder) (s : State) : Action → Option State
  | .fgets input =>
      if s.client.main = .reading then some { s with client := s.client.fgets input } else none
  | .send ok =>
      if s.client.main = .sending then
        some { s with
          client := { s.client with main := .arriving, bytesSent := ok }
          toServer := if ok then s.toServer ++ s.client.line else s.toServer
          lines := s.lines + 1 }
      else none
  | .arrive =>
      if s.client.main = .arriving then
        some { s with client := { s.client with main := .waiting } }
      else none
  | .release =>
      if s.client.main = .waiting ∧ s.client.receiver = .waiting then
        some { s with client := { s.client with main := .passed, receiver := .receiving } }
      else none
  | .proceed =>
      if s.client.main = .passed then some { s with client := s.client.proceed } else none
  | .clientRecv result =>
      if s.client.main ≠ .exited ∧ s.client.receiver = .receiving then clientRecv s result
      else none
  | .handlePacket packet =>
      if s.client.main ≠ .exited ∧ s.client.receiver = .received then
        (s.client.handlePacket order packet).map fun c => { s with client := c }
      else none
  | .serverRecv result => if s.server.pc = .receiving then serverRecv s result else none
  | .handleRequest host =>
      if s.server.pc = .handling then
        (handleRequest order host s.server.args).map fun (args, sent) =>
          { s with
            server := ⟨.receiving, args⟩
            toClient := s.toClient ++ (sent.map Vector.toList).getD []
            responses := s.responses + if sent.isSome then 1 else 0 }
      else none

/-- A client that has just connected. Its buffers and the one of the server hold anything. -/
def init (line : List UInt8) (clientBuffer : Vector UInt8 packetBufferSize)
    (serverBuffer : Vector UInt8 bufferSize) : State where
  client := ⟨.reading, line, true, .receiving, clientBuffer, Vector.replicate pathMax 0⟩
  server := ⟨.receiving, ⟨serverBuffer, 0, strncpy pathMax (ascii ['.'])⟩⟩
  toServer := []
  toClient := []
  lines := 0
  responses := 0

/-- What a step does. -/
inductive Effect (order : ByteOrder) (s : State) : Action → State → Prop where
  | fgets (input : Option Input) (pc : s.client.main = .reading) :
      Effect order s (.fgets input) { s with client := s.client.fgets input }
  | send (ok : Bool) (pc : s.client.main = .sending) :
      Effect order s (.send ok)
        { s with
          client := { s.client with main := .arriving, bytesSent := ok }
          toServer := if ok then s.toServer ++ s.client.line else s.toServer
          lines := s.lines + 1 }
  | arrive (pc : s.client.main = .arriving) :
      Effect order s .arrive { s with client := { s.client with main := .waiting } }
  | release (pc : s.client.main = .waiting) (receiver : s.client.receiver = .waiting) :
      Effect order s .release
        { s with client := { s.client with main := .passed, receiver := .receiving } }
  | proceed (pc : s.client.main = .passed) :
      Effect order s .proceed { s with client := s.client.proceed }
  | clientBytes (count : ℕ) (buffer : Vector UInt8 packetBufferSize)
      (receiver : s.client.receiver = .receiving) (available : count ≤ s.toClient.length)
      (stored : store s.client.buffer 0 (s.toClient.take count) = some buffer) :
      Effect order s (.clientRecv (.bytes count))
        { s with
          client := { s.client with buffer := buffer, receiver := .received }
          toClient := s.toClient.drop count }
  | clientClosed (receiver : s.client.receiver = .receiving) :
      Effect order s (.clientRecv .closed)
        { s with client := { s.client with receiver := .received } }
  | clientError (receiver : s.client.receiver = .receiving) :
      Effect order s (.clientRecv .error)
        { s with client := { s.client with receiver := .ended } }
  | handlePacket (fresh packet : Packet) (currentDir : Vector UInt8 pathMax)
      (receiver : s.client.receiver = .received)
      (decoded : deserializePacket order fresh s.client.buffer = some packet) :
      Effect order s (.handlePacket fresh)
        { s with
          client :=
            let c := { s.client with currentDir := currentDir }
            match reaction packet with
            | .wait => { c with receiver := .waiting }
            | .exit => { c with main := .exited }
            | .again => { c with receiver := .receiving } }
  | serverBytes (count : ℕ) (buffer : Vector UInt8 bufferSize) (pc : s.server.pc = .receiving)
      (available : count ≤ s.toServer.length) (positive : 0 < count) :
      Effect order s (.serverRecv (.bytes count))
        { s with
          server := ⟨.handling, { s.server.args with buffer := buffer, readBytes := count }⟩
          toServer := s.toServer.drop count }
  | serverClosed (pc : s.server.pc = .receiving) (client : s.client.main = .exited) :
      Effect order s (.serverRecv .closed) { s with server := { s.server with pc := .closed } }
  | serverError (pc : s.server.pc = .receiving) :
      Effect order s (.serverRecv .error)
        { s with server := ⟨.handling, { s.server.args with readBytes := 2 ^ 64 - 1 }⟩ }
  | handleRequest (host : Host) (args : Args) (sent : Option Wire)
      (pc : s.server.pc = .handling)
      (handled : Lab8.handleRequest order host s.server.args = some (args, sent)) :
      Effect order s (.handleRequest host)
        { s with
          server := ⟨.receiving, args⟩
          toClient := s.toClient ++ (sent.map Vector.toList).getD []
          responses := s.responses + if sent.isSome then 1 else 0 }

theorem chunk_eq_some_iff {stream bytes : List UInt8} {size count : ℕ} :
    chunk stream size count = some bytes ↔
      (0 < count ∧ count ≤ size ∧ count ≤ stream.length) ∧ stream.take count = bytes := by
  simp [chunk]

theorem clientRecv_effect {order : ByteOrder} {s s' : State} {result : Recv}
    (hpc : s.client.receiver = .receiving) (h : clientRecv s result = some s') :
    Effect order s (.clientRecv result) s' := by
  cases result with
  | bytes count =>
      simp only [clientRecv, Option.bind_eq_bind, Option.bind_eq_some_iff] at h
      obtain ⟨bytes, hchunk, buffer, hstore, heq⟩ := h
      cases heq
      obtain ⟨⟨_, _, havail⟩, rfl⟩ := chunk_eq_some_iff.mp hchunk
      exact .clientBytes count buffer hpc havail hstore
  | closed =>
      simp only [clientRecv] at h
      split at h
      · cases h
        exact .clientClosed hpc
      · cases h
  | error =>
      cases h
      exact .clientError hpc

theorem serverRecv_effect {order : ByteOrder} {s s' : State} {result : Recv}
    (hpc : s.server.pc = .receiving) (h : serverRecv s result = some s') :
    Effect order s (.serverRecv result) s' := by
  cases result with
  | bytes count =>
      simp only [serverRecv, Option.bind_eq_bind, Option.bind_eq_some_iff] at h
      obtain ⟨bytes, hchunk, buffer, _, heq⟩ := h
      cases heq
      obtain ⟨⟨hpos, _, havail⟩, rfl⟩ := chunk_eq_some_iff.mp hchunk
      exact .serverBytes count buffer hpc havail hpos
  | closed =>
      simp only [serverRecv] at h
      split at h
      · rename_i hclosed
        cases h
        exact .serverClosed hpc hclosed.1
      · cases h
  | error =>
      cases h
      exact .serverError hpc

theorem handlePacket_effect {order : ByteOrder} {s : State} {c : Client} {fresh : Packet}
    (hpc : s.client.receiver = .received) (h : s.client.handlePacket order fresh = some c) :
    Effect order s (.handlePacket fresh) { s with client := c } := by
  simp only [Client.handlePacket, Option.bind_eq_bind, Option.bind_eq_some_iff] at h
  obtain ⟨packet, hdecoded, currentDir, _, hreact⟩ := h
  have heffect := Effect.handlePacket fresh packet currentDir hpc hdecoded
  cases hr : reaction packet <;> rw [hr] at hreact heffect <;> cases hreact <;> exact heffect

theorem step_effect {order : ByteOrder} {s s' : State} {a : Action}
    (h : step order s a = some s') : Effect order s a s' := by
  cases a <;> simp only [step, Option.ite_none_right_eq_some] at h <;> obtain ⟨hpc, h⟩ := h
  case fgets input =>
    cases h
    exact .fgets input hpc
  case send ok =>
    cases h
    exact .send ok hpc
  case arrive =>
    cases h
    exact .arrive hpc
  case release =>
    cases h
    exact .release hpc.1 hpc.2
  case proceed =>
    cases h
    exact .proceed hpc
  case clientRecv result => exact clientRecv_effect hpc.2 h
  case handlePacket fresh =>
    obtain ⟨c, hc, rfl⟩ := Option.map_eq_some_iff.mp h
    exact handlePacket_effect hpc.2 hc
  case serverRecv result => exact serverRecv_effect hpc h
  case handleRequest host =>
    obtain ⟨⟨args, sent⟩, hhandled, rfl⟩ := Option.map_eq_some_iff.mp h
    exact .handleRequest host args sent hpc hhandled

end OsaspLabs.Lab8
