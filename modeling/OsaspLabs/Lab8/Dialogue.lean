import OsaspLabs.Lab8.Directory
import OsaspLabs.Lab8.Pairing
import OsaspLabs.Library.Traces

/-! # The dialogue of a LAB_8 session

Two threads of the client and one of the server share two streams. What the client sends and
prints is what it would if every line were handled and answered at once. -/

namespace OsaspLabs.Lab8

open Memory CString Runs

/-- What the client sends and prints. -/
inductive Event where
  | sent (line : List UInt8)
  /-- "Server response : " -/
  | response (text : List UInt8)
  /-- "ACK response : " -/
  | ack (text : List UInt8)
  | prompt (dir : List UInt8)
  deriving DecidableEq, Repr

/-- What the receiver prints about a packet. -/
def printed (packet : Packet) (currentDir : Vector UInt8 pathMax) : List Event :=
  if packet.type = packetInfo then
    .response (ofArray packet.data) ::
      if ofArray packet.data = bye then [] else [.prompt (ofArray currentDir)]
  else if packet.type = packetAck then
    [.ack (ofArray packet.data), .prompt (ofArray currentDir)]
  else [.prompt (ofArray currentDir)]

/-- What it prints about the packet in its buffer. -/
def printedFor (order : ByteOrder) (fresh : Packet) (currentDir : Vector UInt8 pathMax)
    (buffer : Wire) : List Event :=
  match deserializePacket order fresh buffer with
  | none => []
  | some packet => ((updateDir currentDir packet).map (printed packet)).getD []

/-- What a step of the session shows. -/
def screen (order : ByteOrder) (s : State) : Action → List Event
  | .send ok => if ok = true ∧ s.client.line ≠ [] then [.sent s.client.line] else []
  | .handlePacket fresh => printedFor order fresh s.client.currentDir s.client.buffer
  | _ => []

/-- The streams keep requests and packets whole, and no `recv` fails. -/
def Whole (honest : Host → Args → Prop) (clear : Packet → Wire → Prop) (s : State) :
    Action → Prop
  | .clientRecv result => result = .bytes packetBufferSize
  | .serverRecv result =>
      result ≠ .error ∧ ∀ count, result = .bytes count → count = s.toServer.length
  | .handleRequest host => honest host s.server.args
  | .handlePacket fresh => clear fresh s.client.buffer
  | _ => True

/-- A CD that fails keeps the path, and no listing is sent as a directory packet. -/
def Honest (host : Host) (args : Args) : Prop :=
  ((stringAt args.buffer 0).bind parseRequest = some .cd → OpensOrSame host args) ∧
    ((stringAt args.buffer 0).bind parseRequest = some .list →
      host.response.type.toNat % 256 ≠ packetDirectory.toNat)

/-- The memory for a directory packet has a NUL right behind its payload. -/
def Clear (order : ByteOrder) (fresh : Packet) (b : Wire) : Prop :=
  ∀ packet, deserializePacket order fresh b = some packet → packet.type = packetDirectory →
    fresh.data[packet.size.toNat]? = some 0

/-- The handler of the command answers. -/
theorem handleRequest_of_handler {order : ByteOrder} {host : Host} {args args' : Args}
    {sent : Option Wire} {request : List UInt8} {c : Cmd}
    (hrequest : stringAt args.buffer 0 = some request) (hparse : parseRequest request = some c)
    (h : c.handler order host args = some (args', sent)) :
    handleRequest order host args =
      some ({ args' with buffer := Vector.replicate bufferSize 0 }, sent) := by
  simp only [handleRequest, hrequest, hparse, invoke_some, h, Option.bind_eq_bind,
    Option.bind_some]

/-! ## Line by line -/

namespace Dialogue

/-- A line, what the system answers while it is handled, and the memory for the packet that
comes back. -/
structure Turn where
  line : List UInt8
  host : Host
  packet : Packet

/-- The server finds the line in its buffer. -/
def Turn.exchange (t : Turn) (d : Directories) : Option Exchange :=
  (store d.server.buffer 0 t.line).map fun buffer => ⟨buffer, t.line.length, t.host, t.packet⟩

def turn (order : ByteOrder) (d : Directories) (t : Turn) : Option Directories :=
  (t.exchange d).bind (Lab8.exchange order d)

/-- What the server sends. -/
def Turn.response (order : ByteOrder) (d : Directories) (t : Turn) : Option Wire :=
  ((t.exchange d).bind fun x => handleRequest order x.host (x.args d)).bind Prod.snd

def shows (order : ByteOrder) (d : Directories) (t : Turn) : List Event :=
  .sent t.line :: ((t.response order d).map (printedFor order t.packet d.client)).getD []

structure Admits (order : ByteOrder) (honest : Host → Args → Prop) (clear : Packet → Wire → Prop)
    (d : Directories) (t : Turn) : Prop where
  line : t.line ≠ []
  host : ∀ x, t.exchange d = some x → honest t.host (x.args d)
  packet : ∀ b, t.response order d = some b → clear t.packet b

/-- A turn from the parts that the session takes one after the other. -/
theorem turn_eq_some {order : ByteOrder} {d : Directories} {t : Turn}
    {buffer : Vector UInt8 bufferSize} {args : Args} {sent : Option Wire}
    {currentDir : Vector UInt8 pathMax} (hstore : store d.server.buffer 0 t.line = some buffer)
    (hhandled : handleRequest order t.host
      { d.server with buffer := buffer, readBytes := t.line.length } = some (args, sent))
    (hdeliver : deliver order t.packet d.client sent = some currentDir) :
    turn order d t = some ⟨args, currentDir⟩ ∧ t.response order d = sent := by
  have hexchange : t.exchange d = some ⟨buffer, t.line.length, t.host, t.packet⟩ := by
    rw [Turn.exchange, hstore, Option.map_some]
  constructor
  · simp only [turn, hexchange, Option.bind_some, Lab8.exchange, Exchange.args, hhandled,
      hdeliver, Option.bind_eq_bind]
  · simp only [Turn.response, hexchange, Option.bind_some, Exchange.args, hhandled]

theorem parts_of_turn {order : ByteOrder} {d d' : Directories} {t : Turn}
    (h : turn order d t = some d') :
    ∃ buffer sent, store d.server.buffer 0 t.line = some buffer ∧
      handleRequest order t.host
        { d.server with buffer := buffer, readBytes := t.line.length } = some (d'.server, sent) ∧
      deliver order t.packet d.client sent = some d'.client ∧ t.response order d = sent := by
  obtain ⟨x, hx, hexchange⟩ := Option.bind_eq_some_iff.mp h
  obtain ⟨buffer, hstore, rfl⟩ := Option.map_eq_some_iff.mp hx
  simp only [Lab8.exchange, Option.bind_eq_bind, Option.bind_eq_some_iff] at hexchange
  obtain ⟨⟨args, sent⟩, hhandled, dir, hdeliver, heq⟩ := hexchange
  cases heq
  exact ⟨buffer, sent, hstore, hhandled, hdeliver,
    (turn_eq_some hstore hhandled hdeliver).2⟩

end Dialogue

/-! ## The session behind the dialogue -/

/-- The last thing on the screen is a prompt with the path of the client, if there is any. -/
def Prompted (es : List Event) (currentDir : Vector UInt8 pathMax) : Prop :=
  es = [] ∧ currentDir = Vector.replicate pathMax 0 ∨
    ∃ fs, es = fs ++ [.prompt (ofArray currentDir)]

/-- Nothing is on its way. -/
structure Quiet (s : State) (d : Directories) (es : List Event) : Prop where
  toServer : s.toServer = []
  toClient : s.toClient = []
  idle : s.server.pc ≠ .handling
  server : s.client.main ≠ .exited → s.server.pc = .receiving
  receiver : s.client.main ≠ .exited → s.client.receiver = .receiving ∨
    s.client.receiver = .waiting ∧ s.client.main.atBarrier = true
  args : s.server.args = d.server
  dir : s.client.currentDir = d.client
  prompted : s.client.main ≠ .exited →
    s.client.receiver = .waiting ∨ s.client.main.atBarrier = false →
      Prompted es s.client.currentDir

/-- The main loop waits for the answer to its line. -/
structure Awaits (s : State) (d : Directories) : Prop where
  main : s.client.main.atBarrier = true
  receiver : s.client.receiver ≠ .waiting
  dir : s.client.currentDir = d.client

/-- The line is in the buffer of the server. -/
def Asked (d : Directories) (line : List UInt8) (args : Args) : Prop :=
  ∃ buffer, store d.server.buffer 0 line = some buffer ∧
    args = { d.server with buffer := buffer, readBytes := line.length }

/-- The server has answered the line with `b`, which the client has not looked at. -/
structure Replied (order : ByteOrder) (honest : Host → Args → Prop) (s : State)
    (d : Directories) (line : List UInt8) (b : Wire) : Prop where
  nonempty : line ≠ []
  toServer : s.toServer = []
  pc : s.server.pc = .receiving
  handled : ∃ host args, honest host args ∧ Asked d line args ∧
    handleRequest order host args = some (s.server.args, some b)

/-- The dialogue that a session has got to, and what is on the screen of the client. -/
inductive Behind (order : ByteOrder) (honest : Host → Args → Prop) (s : State)
    (d : Directories) (fs : List Event) : List Event → Prop
  | quiet (quiet : Quiet s d fs) : Behind order honest s d fs fs
  | sent (awaits : Awaits s d) (line : s.toServer ≠ []) (toClient : s.toClient = [])
      (receiver : s.client.receiver = .receiving) (pc : s.server.pc = .receiving)
      (args : s.server.args = d.server) :
      Behind order honest s d fs (fs ++ [.sent s.toServer])
  | handling (line : List UInt8) (awaits : Awaits s d) (nonempty : line ≠ [])
      (toServer : s.toServer = []) (toClient : s.toClient = [])
      (receiver : s.client.receiver = .receiving) (pc : s.server.pc = .handling)
      (asked : Asked d line s.server.args) :
      Behind order honest s d fs (fs ++ [.sent line])
  | replied (line : List UInt8) (b : Wire) (awaits : Awaits s d)
      (replied : Replied order honest s d line b) (toClient : s.toClient = b.toList)
      (receiver : s.client.receiver = .receiving) :
      Behind order honest s d fs (fs ++ [.sent line])
  | received (line : List UInt8) (awaits : Awaits s d)
      (replied : Replied order honest s d line s.client.buffer) (toClient : s.toClient = [])
      (receiver : s.client.receiver = .received) :
      Behind order honest s d fs (fs ++ [.sent line])

/-- The steps that are left while the main loop waits. -/
inductive AwaitingStep (order : ByteOrder) (s : State) : Action → State → Prop
  | arrive : AwaitingStep order s .arrive { s with client := { s.client with main := .waiting } }
  | clientRecv (result : Recv) (s' : State) (receiver : s.client.receiver = .receiving)
      (taken : Lab8.clientRecv s result = some s') :
      AwaitingStep order s (.clientRecv result) s'
  | handlePacket (fresh : Packet) (c : Client) (receiver : s.client.receiver = .received)
      (handled : s.client.handlePacket order fresh = some c) :
      AwaitingStep order s (.handlePacket fresh) { s with client := c }
  | serverRecv (result : Recv) (s' : State) (pc : s.server.pc = .receiving)
      (taken : Lab8.serverRecv s result = some s') :
      AwaitingStep order s (.serverRecv result) s'
  | handleRequest (host : Host) (args : Args) (sent : Option Wire)
      (pc : s.server.pc = .handling)
      (handled : Lab8.handleRequest order host s.server.args = some (args, sent)) :
      AwaitingStep order s (.handleRequest host)
        { s with
          server := ⟨.receiving, args⟩
          toClient := s.toClient ++ (sent.map Vector.toList).getD []
          responses := s.responses + if sent.isSome then 1 else 0 }

theorem MainPc.ne_of_atBarrier {pc pc' : MainPc} (h : pc.atBarrier = true)
    (h' : pc'.atBarrier = false) : pc ≠ pc' := by
  intro heq
  rw [heq, h'] at h
  cases h

theorem Awaits.step {order : ByteOrder} {s s' : State} {d : Directories} {a : Action}
    (h : Awaits s d) (hstep : step order s a = some s') : AwaitingStep order s a s' := by
  cases a with
  | fgets input =>
      obtain ⟨hpc, -⟩ := Option.ite_none_right_eq_some.mp hstep
      exact absurd hpc (MainPc.ne_of_atBarrier h.main rfl)
  | send ok =>
      obtain ⟨hpc, -⟩ := Option.ite_none_right_eq_some.mp hstep
      exact absurd hpc (MainPc.ne_of_atBarrier h.main rfl)
  | arrive =>
      obtain ⟨-, heq⟩ := Option.ite_none_right_eq_some.mp hstep
      cases heq
      exact .arrive
  | release =>
      obtain ⟨hpc, -⟩ := Option.ite_none_right_eq_some.mp hstep
      exact absurd hpc.2 h.receiver
  | proceed =>
      obtain ⟨hpc, -⟩ := Option.ite_none_right_eq_some.mp hstep
      exact absurd hpc (MainPc.ne_of_atBarrier h.main rfl)
  | clientRecv result =>
      obtain ⟨hpc, htaken⟩ := Option.ite_none_right_eq_some.mp hstep
      exact .clientRecv result s' hpc.2 htaken
  | handlePacket fresh =>
      obtain ⟨hpc, hmap⟩ := Option.ite_none_right_eq_some.mp hstep
      obtain ⟨c, hc, rfl⟩ := Option.map_eq_some_iff.mp hmap
      exact .handlePacket fresh c hpc.2 hc
  | serverRecv result =>
      obtain ⟨hpc, htaken⟩ := Option.ite_none_right_eq_some.mp hstep
      exact .serverRecv result s' hpc htaken
  | handleRequest host =>
      obtain ⟨hpc, hmap⟩ := Option.ite_none_right_eq_some.mp hstep
      obtain ⟨⟨args, sent⟩, hhandled, rfl⟩ := Option.map_eq_some_iff.mp hmap
      exact .handleRequest host args sent hpc hhandled

/-- There is nothing to receive. -/
theorem clientRecv_nil {s s' : State} {count : ℕ} (hnil : s.toClient = [])
    (h : clientRecv s (.bytes count) = some s') : False := by
  obtain ⟨bytes, hchunk, -⟩ := Option.bind_eq_some_iff.mp h
  obtain ⟨⟨hpos, -, havailable⟩, -⟩ := chunk_eq_some_iff.mp hchunk
  rw [hnil, List.length_nil] at havailable
  omega

theorem serverRecv_nil {s s' : State} {count : ℕ} (hnil : s.toServer = [])
    (h : serverRecv s (.bytes count) = some s') : False := by
  obtain ⟨bytes, hchunk, -⟩ := Option.bind_eq_some_iff.mp h
  obtain ⟨⟨hpos, -, havailable⟩, -⟩ := chunk_eq_some_iff.mp hchunk
  rw [hnil, List.length_nil] at havailable
  omega

/-- The end of the connection comes after the end of the client. -/
theorem serverRecv_closed {s s' : State} (h : serverRecv s .closed = some s') :
    s.client.main = .exited ∧ s' = { s with server := { s.server with pc := .closed } } := by
  obtain ⟨hclosed, heq⟩ := Option.ite_none_right_eq_some.mp h
  exact ⟨hclosed.1, (Option.some.inj heq).symm⟩

theorem Client.fgets_eq (c : Client) (input : Option Input) :
    ∃ line main, c.fgets input = { c with line := line, main := main } ∧
      (main = c.main ∨ main = .sending) := by
  unfold Client.fgets
  split
  · exact ⟨[], c.main, rfl, .inl rfl⟩
  · exact ⟨_, .sending, rfl, .inr rfl⟩

theorem Client.proceed_eq (c : Client) :
    ∃ line main, c.proceed = { c with line := line, main := main } ∧
      (main = .exited ∨ main = .reading) := by
  unfold Client.proceed
  split
  · exact ⟨c.line, .exited, rfl, .inl rfl⟩
  · exact ⟨[], .reading, rfl, .inr rfl⟩

/-! ## One step -/

section Steps

variable {order : ByteOrder} {honest : Host → Args → Prop} {clear : Packet → Wire → Prop}
  {s s' : State} {d : Directories} {fs : List Event} {a : Action}

theorem Quiet.step (h : Quiet s d fs) (hwhole : Whole honest clear s a)
    (hstep : step order s a = some s') : Behind order honest s' d fs (fs ++ screen order s a) := by
  obtain ⟨htoServer, htoClient, hidle, hserver, hreceiver, hargs, hdir, hprompted⟩ := h
  cases a with
  | fgets input =>
      obtain ⟨hpc, heq⟩ := Option.ite_none_right_eq_some.mp hstep
      cases heq
      have hlive : s.client.main ≠ .exited := by simp [hpc]
      have hoff : s.client.main.atBarrier = false := by rw [hpc]; rfl
      obtain ⟨line, main, hfgets, hmain⟩ := s.client.fgets_eq input
      simp only [screen, List.append_nil, hfgets]
      refine .quiet ⟨htoServer, htoClient, hidle, fun _ => hserver hlive, fun _ => ?_, hargs, hdir,
        fun _ _ => hprompted hlive (.inr hoff)⟩
      exact (hreceiver hlive).imp_right fun hw => absurd (hw.2.symm.trans hoff) (by decide)
  | send ok =>
      obtain ⟨hpc, heq⟩ := Option.ite_none_right_eq_some.mp hstep
      cases heq
      have hlive : s.client.main ≠ .exited := by simp [hpc]
      have hoff : s.client.main.atBarrier = false := by rw [hpc]; rfl
      have hreceiving : s.client.receiver = .receiving :=
        (hreceiver hlive).resolve_right fun hw => absurd (hw.2.symm.trans hoff) (by decide)
      rw [screen]
      by_cases hsent : ok = true ∧ s.client.line ≠ []
      · rw [if_pos hsent]
        have hline : (if ok then s.toServer ++ s.client.line else s.toServer) = s.client.line := by
          rw [if_pos hsent.1, htoServer, List.nil_append]
        rw [hline]
        exact .sent ⟨rfl, by simp [hreceiving], hdir⟩ hsent.2 htoClient hreceiving (hserver hlive)
          hargs
      · rw [if_neg hsent, List.append_nil]
        refine .quiet ⟨?_, htoClient, hidle, fun _ => hserver hlive, fun _ => .inl hreceiving,
          hargs, hdir, fun _ hw => ?_⟩
        · by_cases hok : ok = true
          · have hnil : s.client.line = [] := by
              by_contra hne
              exact hsent ⟨hok, hne⟩
            simp [hok, htoServer, hnil]
          · simp [hok, htoServer]
        · rcases hw with hw | hw
          · exact absurd (hreceiving.symm.trans hw) (by decide)
          · cases hw
  | arrive =>
      obtain ⟨hpc, heq⟩ := Option.ite_none_right_eq_some.mp hstep
      cases heq
      have hlive : s.client.main ≠ .exited := by simp [hpc]
      simp only [screen, List.append_nil]
      refine .quiet ⟨htoServer, htoClient, hidle, fun _ => hserver hlive,
        fun _ => (hreceiver hlive).imp_right fun hw => ⟨hw.1, rfl⟩, hargs, hdir, fun _ hw => ?_⟩
      rcases hw with hw | hw
      · exact hprompted hlive (.inl hw)
      · cases hw
  | release =>
      obtain ⟨hpc, heq⟩ := Option.ite_none_right_eq_some.mp hstep
      cases heq
      have hlive : s.client.main ≠ .exited := by simp [hpc.1]
      simp only [screen, List.append_nil]
      exact .quiet ⟨htoServer, htoClient, hidle, fun _ => hserver hlive, fun _ => .inl rfl, hargs,
        hdir, fun _ _ => hprompted hlive (.inl hpc.2)⟩
  | proceed =>
      obtain ⟨hpc, heq⟩ := Option.ite_none_right_eq_some.mp hstep
      cases heq
      have hlive : s.client.main ≠ .exited := by simp [hpc]
      have hoff : s.client.main.atBarrier = false := by rw [hpc]; rfl
      obtain ⟨line, main, hproceed, hmain⟩ := s.client.proceed_eq
      simp only [screen, List.append_nil, hproceed]
      refine .quiet ⟨htoServer, htoClient, hidle, fun _ => hserver hlive, fun _ => ?_, hargs, hdir,
        fun _ _ => hprompted hlive (.inr hoff)⟩
      exact (hreceiver hlive).imp_right fun hw => absurd (hw.2.symm.trans hoff) (by decide)
  | clientRecv result =>
      obtain ⟨-, htaken⟩ := Option.ite_none_right_eq_some.mp hstep
      obtain rfl : result = .bytes packetBufferSize := hwhole
      exact (clientRecv_nil htoClient htaken).elim
  | handlePacket fresh =>
      obtain ⟨⟨hlive, hpc⟩, -⟩ := Option.ite_none_right_eq_some.mp hstep
      rcases hreceiver hlive with hw | ⟨hw, -⟩
      · exact absurd (hpc.symm.trans hw) (by decide)
      · exact absurd (hpc.symm.trans hw) (by decide)
  | serverRecv result =>
      obtain ⟨-, htaken⟩ := Option.ite_none_right_eq_some.mp hstep
      cases result with
      | bytes count => exact (serverRecv_nil htoServer htaken).elim
      | closed =>
          obtain ⟨hexited, rfl⟩ := serverRecv_closed htaken
          simp only [screen, List.append_nil]
          exact .quiet ⟨htoServer, htoClient, by simp, fun hlive => absurd hexited hlive,
            fun hlive => absurd hexited hlive, hargs, hdir, fun hlive => absurd hexited hlive⟩
      | error => exact absurd rfl hwhole.1
  | handleRequest host =>
      obtain ⟨hpc, -⟩ := Option.ite_none_right_eq_some.mp hstep
      exact absurd hpc hidle

/-- The session is at `es`, and the dialogue goes on to where the session is then. -/
def Follows (order : ByteOrder) (honest : Host → Args → Prop) (clear : Packet → Wire → Prop)
    (s : State) (d : Directories) (fs es : List Event) : Prop :=
  ∃ d' fs', Reaches (logged (Dialogue.turn order) (Dialogue.shows order))
      (fun u t => Dialogue.Admits order honest clear u.1 t) (d, fs) (d', fs') ∧
    Behind order honest s d' fs' es

theorem Follows.stays {es : List Event} (h : Behind order honest s d fs es) :
    Follows order honest clear s d fs es :=
  ⟨d, fs, .refl, h⟩

/-- A line that has been handled and whose answer has been looked at is a turn. -/
theorem turn_reaches (clear : Packet → Wire → Prop) (fs : List Event) (fresh : Packet)
    {line : List UInt8} {host : Host} {args args' : Args} {sent : Option Wire}
    {currentDir : Vector UInt8 pathMax} (hasked : Asked d line args)
    (hhonest : honest host args) (hline : line ≠ [])
    (hhandled : handleRequest order host args = some (args', sent))
    (hclear : ∀ b, sent = some b → clear fresh b)
    (hdeliver : deliver order fresh d.client sent = some currentDir) :
    Reaches (logged (Dialogue.turn order) (Dialogue.shows order))
      (fun u t => Dialogue.Admits order honest clear u.1 t) (d, fs)
      (⟨args', currentDir⟩,
        fs ++ (.sent line :: (sent.map (printedFor order fresh d.client)).getD [])) := by
  obtain ⟨buffer, hstore, rfl⟩ := hasked
  let t : Dialogue.Turn := ⟨line, host, fresh⟩
  obtain ⟨hturn, hresponse⟩ : Dialogue.turn order d t = some ⟨args', currentDir⟩ ∧
      t.response order d = sent := Dialogue.turn_eq_some hstore hhandled hdeliver
  have hadmits : Dialogue.Admits order honest clear d t := by
    refine ⟨hline, fun x hx => ?_, fun b hb => hclear b (hresponse.symm.trans hb)⟩
    obtain ⟨buffer', hstore', rfl⟩ := Option.map_eq_some_iff.mp hx
    obtain rfl := Option.some.inj (hstore.symm.trans hstore')
    exact hhonest
  have hshows : Dialogue.shows order d t =
      .sent line :: (sent.map (printedFor order fresh d.client)).getD [] := by
    rw [Dialogue.shows, hresponse]
  rw [← hshows]
  exact .single ⟨t, hadmits, logged_of_step _ _ hturn⟩

theorem behind_step_sent (hawaits : Awaits s d) (hline : s.toServer ≠ [])
    (htoClient : s.toClient = []) (hreceiver : s.client.receiver = .receiving)
    (hpc : s.server.pc = .receiving) (hargs : s.server.args = d.server)
    (hwhole : Whole honest clear s a) (hstep : step order s a = some s') :
    Behind order honest s' d fs (fs ++ [.sent s.toServer] ++ screen order s a) := by
  cases hawaits.step hstep with
  | arrive =>
      simp only [screen, List.append_nil]
      exact .sent ⟨rfl, hawaits.receiver, hawaits.dir⟩ hline htoClient hreceiver hpc hargs
  | clientRecv result _ _ htaken =>
      obtain rfl : result = .bytes packetBufferSize := hwhole
      exact (clientRecv_nil htoClient htaken).elim
  | handlePacket fresh c hreceived => exact absurd (hreceiver.symm.trans hreceived) (by decide)
  | serverRecv result _ _ htaken =>
      cases result with
      | bytes count =>
          obtain rfl := hwhole.2 count rfl
          simp only [serverRecv, Option.bind_eq_bind, Option.bind_eq_some_iff] at htaken
          obtain ⟨bytes, hchunk, buffer, hstore, heq⟩ := htaken
          cases heq
          obtain ⟨-, rfl⟩ := chunk_eq_some_iff.mp hchunk
          rw [List.take_length, hargs] at hstore
          simp only [screen, List.append_nil]
          refine .handling s.toServer ⟨hawaits.main, hawaits.receiver, hawaits.dir⟩ hline ?_
            htoClient hreceiver rfl ⟨buffer, hstore, ?_⟩
          · exact List.drop_length
          · rw [hargs]
      | closed =>
          exact absurd (serverRecv_closed htaken).1 (MainPc.ne_of_atBarrier hawaits.main rfl)
      | error => exact absurd rfl hwhole.1
  | handleRequest host args sent hhandling => exact absurd (hpc.symm.trans hhandling) (by decide)

theorem follows_handling {line : List UInt8} (hawaits : Awaits s d) (hline : line ≠ [])
    (htoServer : s.toServer = []) (htoClient : s.toClient = [])
    (hreceiver : s.client.receiver = .receiving) (hpc : s.server.pc = .handling)
    (hasked : Asked d line s.server.args) (hwhole : Whole honest clear s a)
    (hstep : step order s a = some s') :
    Follows order honest clear s' d fs (fs ++ [.sent line] ++ screen order s a) := by
  cases hawaits.step hstep with
  | arrive =>
      simp only [screen, List.append_nil]
      exact .stays (.handling line ⟨rfl, hawaits.receiver, hawaits.dir⟩ hline htoServer htoClient
        hreceiver hpc hasked)
  | clientRecv result _ _ htaken =>
      obtain rfl : result = .bytes packetBufferSize := hwhole
      exact (clientRecv_nil htoClient htaken).elim
  | handlePacket fresh c hreceived => exact absurd (hreceiver.symm.trans hreceived) (by decide)
  | serverRecv result _ hreceiving => exact absurd (hpc.symm.trans hreceiving) (by decide)
  | handleRequest host args sent _ hhandled =>
      simp only [screen, List.append_nil]
      cases sent with
      | none =>
          have hturn := turn_reaches clear fs host.response hasked hwhole hline hhandled
            (by simp) rfl
          refine ⟨_, _, hturn, .quiet ⟨htoServer, by simp [htoClient], by simp, fun _ => rfl,
            fun _ => .inl hreceiver, rfl, hawaits.dir, fun _ hw => ?_⟩⟩
          rcases hw with hw | hw
          · exact absurd (hreceiver.symm.trans hw) (by decide)
          · exact absurd (hawaits.main.symm.trans hw) (by decide)
      | some b =>
          exact .stays (.replied line b ⟨hawaits.main, hawaits.receiver, hawaits.dir⟩
            ⟨hline, htoServer, rfl, host, s.server.args, hwhole, hasked, hhandled⟩
            (by simp [htoClient]) hreceiver)

theorem behind_step_replied {line : List UInt8} {b : Wire} (hawaits : Awaits s d)
    (hreplied : Replied order honest s d line b) (htoClient : s.toClient = b.toList)
    (hreceiver : s.client.receiver = .receiving) (hwhole : Whole honest clear s a)
    (hstep : step order s a = some s') :
    Behind order honest s' d fs (fs ++ [.sent line] ++ screen order s a) := by
  obtain ⟨hline, htoServer, hpc, hhandled⟩ := hreplied
  cases hawaits.step hstep with
  | arrive =>
      simp only [screen, List.append_nil]
      exact .replied line b ⟨rfl, hawaits.receiver, hawaits.dir⟩
        ⟨hline, htoServer, hpc, hhandled⟩ htoClient hreceiver
  | clientRecv result _ _ htaken =>
      obtain rfl : result = .bytes packetBufferSize := hwhole
      simp only [clientRecv, Option.bind_eq_bind, Option.bind_eq_some_iff] at htaken
      obtain ⟨bytes, hchunk, buffer, hstore, heq⟩ := htaken
      cases heq
      obtain ⟨-, rfl⟩ := chunk_eq_some_iff.mp hchunk
      have hlen : s.toClient.length ≤ packetBufferSize := by rw [htoClient, b.length_toList]
      rw [List.take_of_length_le hlen, htoClient, store_eq_of_length] at hstore
      obtain rfl := Option.some.inj hstore
      simp only [screen, List.append_nil]
      refine .received line ⟨hawaits.main, by simp, hawaits.dir⟩
        ⟨hline, htoServer, hpc, hhandled⟩ (List.drop_eq_nil_of_le hlen) rfl
  | handlePacket fresh c hreceived => exact absurd (hreceiver.symm.trans hreceived) (by decide)
  | serverRecv result _ _ htaken =>
      cases result with
      | bytes count => exact (serverRecv_nil htoServer htaken).elim
      | closed =>
          exact absurd (serverRecv_closed htaken).1 (MainPc.ne_of_atBarrier hawaits.main rfl)
      | error => exact absurd rfl hwhole.1
  | handleRequest host args sent hhandling => exact absurd (hpc.symm.trans hhandling) (by decide)

/-- Only the BYE that ends the client is printed without a prompt. -/
theorem printed_prompt {packet : Packet} (currentDir : Vector UInt8 pathMax)
    (h : reaction packet ≠ .exit) :
    ∃ es, printed packet currentDir = es ++ [.prompt (ofArray currentDir)] := by
  unfold printed
  by_cases hinfo : packet.type = packetInfo
  · rw [if_pos hinfo]
    by_cases hbye : ofArray packet.data = bye
    · exact absurd (by rw [reaction, if_pos hinfo, if_pos hbye]) h
    · exact ⟨[.response (ofArray packet.data)], by rw [if_neg hbye]; rfl⟩
  · rw [if_neg hinfo]
    by_cases hack : packet.type = packetAck
    · exact ⟨[.ack (ofArray packet.data)], by rw [if_pos hack]; rfl⟩
    · exact ⟨[], by rw [if_neg hack]; rfl⟩

theorem follows_received {line : List UInt8} (hawaits : Awaits s d)
    (hreplied : Replied order honest s d line s.client.buffer) (htoClient : s.toClient = [])
    (hreceiver : s.client.receiver = .received) (hwhole : Whole honest clear s a)
    (hstep : step order s a = some s') :
    Follows order honest clear s' d fs (fs ++ [.sent line] ++ screen order s a) := by
  obtain ⟨hline, htoServer, hpc, hhandled⟩ := hreplied
  cases hawaits.step hstep with
  | arrive =>
      simp only [screen, List.append_nil]
      exact .stays (.received line ⟨rfl, hawaits.receiver, hawaits.dir⟩
        ⟨hline, htoServer, hpc, hhandled⟩ htoClient hreceiver)
  | clientRecv result _ hreceiving =>
      exact absurd (hreceiver.symm.trans hreceiving) (by decide)
  | handlePacket fresh c _ hpacket =>
      obtain ⟨host, args, hhonest, hasked, hrequest⟩ := hhandled
      simp only [Client.handlePacket, Option.bind_eq_bind, Option.bind_eq_some_iff] at hpacket
      obtain ⟨packet, hdecoded, currentDir, hdir, hreact⟩ := hpacket
      have hdir' : updateDir d.client packet = some currentDir := hawaits.dir ▸ hdir
      have hdeliver : deliver order fresh d.client (some s.client.buffer) = some currentDir := by
        simp only [deliver, hdecoded, hdir', Option.bind_eq_bind, Option.bind_some]
      have hturn := turn_reaches clear fs fresh hasked hhonest hline hrequest
        (by rintro b ⟨⟩; exact hwhole) hdeliver
      have hprinted : printedFor order fresh d.client s.client.buffer =
          printed packet currentDir := by
        simp only [printedFor, hdecoded, hdir', Option.map_some, Option.getD_some]
      have hscreen : fs ++ [.sent line] ++ screen order s (.handlePacket fresh) =
          fs ++ (.sent line :: (some s.client.buffer).elim []
            (printedFor order fresh d.client)) := by
        rw [screen, hawaits.dir, List.append_assoc]
        rfl
      rw [hscreen]
      refine ⟨_, _, hturn, ?_⟩
      cases hr : reaction packet with
      | wait =>
          rw [hr] at hreact
          cases hreact
          obtain ⟨es, hes⟩ := printed_prompt currentDir (by simp [hr] : reaction packet ≠ .exit)
          refine .quiet ⟨htoServer, htoClient, by simp [hpc], fun _ => hpc,
            fun _ => .inr ⟨rfl, hawaits.main⟩, rfl, rfl,
            fun _ _ => .inr ⟨fs ++ .sent line :: es, ?_⟩⟩
          simp [hprinted, hes]
      | exit =>
          rw [hr] at hreact
          cases hreact
          exact .quiet ⟨htoServer, htoClient, by simp [hpc], fun _ => hpc, by simp, rfl, rfl,
            by simp⟩
      | again =>
          rw [hr] at hreact
          cases hreact
          refine .quiet ⟨htoServer, htoClient, by simp [hpc], fun _ => hpc, fun _ => .inl rfl, rfl,
            rfl, fun _ hw => ?_⟩
          rcases hw with hw | hw
          · cases hw
          · exact absurd (hawaits.main.symm.trans hw) (by decide)
  | serverRecv result _ _ htaken =>
      cases result with
      | bytes count => exact (serverRecv_nil htoServer htaken).elim
      | closed =>
          exact absurd (serverRecv_closed htaken).1 (MainPc.ne_of_atBarrier hawaits.main rfl)
      | error => exact absurd rfl hwhole.1
  | handleRequest host args sent hhandling => exact absurd (hpc.symm.trans hhandling) (by decide)

theorem Behind.step {es : List Event} (h : Behind order honest s d fs es)
    (hwhole : Whole honest clear s a) (hstep : Lab8.step order s a = some s') :
    Follows order honest clear s' d fs (es ++ screen order s a) := by
  cases h with
  | quiet hquiet => exact .stays (hquiet.step hwhole hstep)
  | sent hawaits hline htoClient hreceiver hpc hargs =>
      exact .stays (behind_step_sent hawaits hline htoClient hreceiver hpc hargs hwhole hstep)
  | handling line hawaits hline htoServer htoClient hreceiver hpc hasked =>
      exact follows_handling hawaits hline htoServer htoClient hreceiver hpc hasked hwhole hstep
  | replied line b hawaits hreplied htoClient hreceiver =>
      exact .stays (behind_step_replied hawaits hreplied htoClient hreceiver hwhole hstep)
  | received line hawaits hreplied htoClient hreceiver =>
      exact follows_received hawaits hreplied htoClient hreceiver hwhole hstep

end Steps

/-! ## Runs -/

/-- What a client and a server begin with. -/
def beginning (buffer : Vector UInt8 bufferSize) : Directories :=
  ⟨initialArgs buffer, Vector.replicate pathMax 0⟩

/-- What the session has shown, behind what the dialogue has. -/
def Tracks (order : ByteOrder) (honest : Host → Args → Prop) (u : State × List Event)
    (v : Directories × List Event) : Prop :=
  Behind order honest u.1 v.1 v.2 u.2

theorem tracks_init (order : ByteOrder) (honest : Host → Args → Prop) (line : List UInt8)
    (clientBuffer : Vector UInt8 packetBufferSize) (serverBuffer : Vector UInt8 bufferSize) :
    Tracks order honest (init line clientBuffer serverBuffer, []) (beginning serverBuffer, []) :=
  .quiet ⟨rfl, rfl, by simp [init], fun _ => rfl, fun _ => .inl rfl, rfl, rfl,
    fun _ _ => .inl ⟨rfl, rfl⟩⟩

theorem behind_of_reaches {order : ByteOrder} {honest : Host → Args → Prop}
    {clear : Packet → Wire → Prop} {line : List UInt8}
    {clientBuffer : Vector UInt8 packetBufferSize} {serverBuffer : Vector UInt8 bufferSize}
    {s : State} {es : List Event}
    (h : Reaches (logged (step order) (screen order)) (fun u a => Whole honest clear u.1 a)
      (init line clientBuffer serverBuffer, []) (s, es)) :
    Follows order honest clear s (beginning serverBuffer) [] es := by
  obtain ⟨⟨d, fs⟩, hrun, hbehind⟩ := h.simulate
    (tracks_init order honest line clientBuffer serverBuffer) fun u a v u' hu hwhole hstep => by
      obtain ⟨hnext, hlog⟩ := logged_eq_some hstep
      obtain ⟨d', fs', hrun, hbehind⟩ := hu.step hwhole hnext
      rw [← hlog] at hbehind
      exact ⟨(d', fs'), hrun, hbehind⟩
  exact ⟨d, fs, hrun, hbehind⟩

/-- When the client reads its next line, nothing is on its way. -/
theorem Behind.reading {order : ByteOrder} {honest : Host → Args → Prop} {s : State}
    {d : Directories} {fs es : List Event} (h : Behind order honest s d fs es)
    (hreading : s.client.main = .reading) : es = fs ∧ Quiet s d fs := by
  have hoff (hawaits : Awaits s d) : False :=
    have hreadingOff : MainPc.reading.atBarrier = false := rfl
    MainPc.ne_of_atBarrier hawaits.main hreadingOff hreading
  cases h with
  | quiet hquiet => exact ⟨rfl, hquiet⟩
  | sent hawaits => exact (hoff hawaits).elim
  | handling _ hawaits => exact (hoff hawaits).elim
  | replied _ _ hawaits => exact (hoff hawaits).elim
  | received _ hawaits => exact (hoff hawaits).elim

theorem Behind.screen_eq {order : ByteOrder} {honest : Host → Args → Prop} {s : State}
    {d : Directories} {fs es : List Event} (h : Behind order honest s d fs es) :
    es = fs ∨ ∃ line, es = fs ++ [.sent line] := by
  cases h with
  | quiet => exact .inl rfl
  | sent => exact .inr ⟨_, rfl⟩
  | handling line => exact .inr ⟨line, rfl⟩
  | replied line => exact .inr ⟨line, rfl⟩
  | received line => exact .inr ⟨line, rfl⟩

end OsaspLabs.Lab8
