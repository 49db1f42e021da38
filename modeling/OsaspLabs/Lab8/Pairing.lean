import OsaspLabs.Lab8.Session

/-! # Lines and responses of LAB_8

The main loop of the client waits on its barrier after every line, whatever it has sent, and
only the response of the server can bring the receiver there. -/

namespace OsaspLabs.Lab8

open Memory CString Runs

/-- Whatever the memory for the packet holds, the receiver reacts well to these bytes. -/
def Ends (good : Reaction → Prop) (order : ByteOrder) (b : Wire) : Prop :=
  ∀ fresh : Packet, ∃ packet, deserializePacket order fresh b = some packet ∧
    good (reaction packet)

/-- A good packet comes next, or the receiver has it in its buffer. -/
def OnItsWay (good : Reaction → Prop) (order : ByteOrder) (s : State) : Prop :=
  (∃ b : Wire, s.toClient.take packetBufferSize = b.toList ∧ Ends good order b) ∨
    s.client.receiver = .received ∧ Ends good order s.client.buffer

/-- While the main loop waits there is a request left, or a packet that ends the wait, or the
receiver waits too. -/
def Paired (good : Reaction → Prop) (order : ByteOrder) (s : State) : Prop :=
  s.client.main = .waiting →
    s.toServer ≠ [] ∨ s.server.pc = .handling ∨ OnItsWay good order s ∨
      s.client.receiver = .waiting

/-- Each line has one response, and has it before the next line is read. -/
def OneResponse (s : State) : Prop :=
  s.responses ≤ s.lines ∧ s.lines ≤ s.responses + 1 ∧
    (s.client.main = .reading →
      s.responses = s.lines ∧ s.toClient = [] ∧ s.client.receiver = .receiving)

/-- The request names a command, the directory that it needs can be opened, and LIST finds
the type of a response in its packet. -/
def Answered (host : Host) (args : Args) : Prop :=
  ∃ request c, stringAt args.buffer 0 = some request ∧ parseRequest request = some c ∧
    Opens host args c ∧ (c = .list → host.response.type.toNat % 256 ≤ 2)

/-- The response is no BYE either. -/
def Released (host : Host) (args : Args) : Prop :=
  ∃ request c, stringAt args.buffer 0 = some request ∧ parseRequest request = some c ∧
    Opens host args c ∧ c ≠ .quit ∧
    (c = .echo → ∀ text, stringAt args.buffer 5 = some text → ¬ text <+: bye) ∧
    (c = .list → host.response.type.toNat % 256 = 1 ∨ host.response.type.toNat % 256 = 2)

/-- The user enters no empty line, the network works and keeps the packets whole, and the
server answers. -/
def Fits (answered : Host → Args → Prop) (s : State) : Action → Prop
  | .fgets input => (s.client.read input).length ≠ 1
  | .send ok => ok = true
  | .clientRecv result => result = .bytes packetBufferSize
  | .serverRecv result => result ≠ .error
  | .handleRequest host => answered host s.server.args
  | _ => True

/-- Each request arrives in one piece. -/
def WholeLines (s : State) (a : Action) : Prop :=
  ∀ count, a = .serverRecv (.bytes count) → count = s.toServer.length

theorem Released.answered {host : Host} {args : Args} (h : Released host args) :
    Answered host args := by
  obtain ⟨request, c, hrequest, hparse, hopens, _, _, hlist⟩ := h
  refine ⟨request, c, hrequest, hparse, hopens, fun hc => ?_⟩
  have htype := hlist hc
  omega

theorem Fits.mono {answered answered' : Host → Args → Prop} {s : State} {a : Action}
    (h : Fits answered s a) (himp : ∀ host args, answered host args → answered' host args) :
    Fits answered' s a := by
  cases a with
  | handleRequest host => exact himp host s.server.args h
  | _ => exact h

/-! ## Responses -/

theorem reaction_ne_again_iff {packet : Packet} :
    reaction packet ≠ .again ↔ packet.type.toNat ≤ 2 := by
  unfold reaction
  have hinfo : packet.type = packetInfo ↔ packet.type.toNat = 0 := UInt32.toNat_inj.symm
  have hdirectory : packet.type = packetDirectory ↔ packet.type.toNat = 1 :=
    UInt32.toNat_inj.symm
  have hack : packet.type = packetAck ↔ packet.type.toNat = 2 := UInt32.toNat_inj.symm
  simp only [hinfo, hdirectory, hack]
  split
  · split <;> simp <;> omega
  · split <;> simp <;> omega

/-- Only a packet that says BYE ends the client. -/
theorem reaction_eq_wait {packet : Packet} (htype : packet.type.toNat ≤ 2)
    (hbye : packet.type.toNat = 0 → ofArray packet.data ≠ bye) : reaction packet = .wait := by
  have hagain := reaction_ne_again_iff.mpr htype
  unfold reaction at hagain ⊢
  split
  · rename_i hinfo
    exact if_neg (hbye (congrArg UInt32.toNat hinfo))
  · rename_i hinfo
    rw [if_neg hinfo] at hagain
    split
    · rfl
    · rename_i hother
      rw [if_neg hother] at hagain
      exact absurd rfl hagain

theorem ends_iff {order : ByteOrder} {memory : Vector UInt8 packetBufferSize} {p : Packet}
    {b : Wire} (h : serializePacket order memory p = some b) :
    Ends (· ≠ .again) order b ↔ p.type.toNat % 256 ≤ 2 := by
  constructor
  · intro hends
    obtain ⟨packet, hdes, hgood⟩ := hends p
    obtain ⟨packet', hdes', htype, _⟩ := deserializePacket_of_serializePacket h p
    obtain rfl := Option.some.inj (hdes.symm.trans hdes')
    rw [← htype]
    exact reaction_ne_again_iff.mp hgood
  · intro htype fresh
    obtain ⟨packet, hdes, htype', _⟩ := deserializePacket_of_serializePacket h fresh
    exact ⟨packet, hdes, reaction_ne_again_iff.mpr (htype' ▸ htype)⟩

theorem ends_wait {order : ByteOrder} {memory : Vector UInt8 packetBufferSize} {p : Packet}
    {b : Wire} (h : serializePacket order memory p = some b) (htype : p.type.toNat % 256 ≤ 2)
    (hbye : p.type.toNat % 256 = 0 → ∃ s, Carries p s ∧ ¬ s <+: bye) :
    Ends (· = .wait) order b := by
  intro fresh
  obtain ⟨packet, hdes, htype', _, hload⟩ := deserializePacket_of_serializePacket h fresh
  refine ⟨packet, hdes, reaction_eq_wait (htype' ▸ htype) fun hinfo hread => ?_⟩
  obtain ⟨s, hcarries, hnot⟩ := hbye (htype' ▸ hinfo)
  rw [hcarries.size, hcarries.data] at hload
  exact hnot (hread ▸ prefix_ofArray hcarries.noNul hload)

theorem responseType_le (host : Host) {c : Cmd} (h : c ≠ .list) :
    (responseType host c).toNat % 256 ≤ 2 := by
  cases c with
  | list => exact absurd rfl h
  | _ => simp [responseType, packetInfo, packetDirectory, packetAck]

theorem Sends.ends_iff {order : ByteOrder} {host : Host} {args : Args} {c : Cmd}
    {sent : Option Wire} (h : Sends order host args c sent) :
    (∃ b, sent = some b ∧ Ends (· ≠ .again) order b) ↔
      Opens host args c ∧ (c = .list → host.response.type.toNat % 256 ≤ 2) := by
  cases h with
  | none closed => simp [closed]
  | list p b list opens type serialized =>
      subst list
      simp [Lab8.ends_iff serialized, type, opens]
  | text p b s notList opens type carries echo notBye serialized =>
      simp [Lab8.ends_iff serialized, type, opens, notList, responseType_le host notList]

/-- The server answers a request with a packet that ends the wait of the client exactly if the
request can be answered. -/
theorem handleRequest_ends_iff {order : ByteOrder} {host : Host} {args args' : Args}
    {sent : Option Wire} (h : handleRequest order host args = some (args', sent)) :
    (∃ b, sent = some b ∧ Ends (· ≠ .again) order b) ↔ Answered host args := by
  obtain ⟨request, hrequest, ⟨hparse, hsent⟩ | ⟨c, hparse, hsends⟩⟩ := handleRequest_sends h
  · simp [hsent, Answered, hrequest, hparse]
  · rw [hsends.ends_iff]
    simp [Answered, hrequest, hparse]

theorem Sends.ends_wait {order : ByteOrder} {host : Host} {args : Args} {c : Cmd}
    {sent : Option Wire} (h : Sends order host args c sent) (hopens : Opens host args c)
    (hquit : c ≠ .quit)
    (hecho : c = .echo → ∀ text, stringAt args.buffer 5 = some text → ¬ text <+: bye)
    (hlist : c = .list →
      host.response.type.toNat % 256 = 1 ∨ host.response.type.toNat % 256 = 2) :
    ∃ b, sent = some b ∧ Ends (· = .wait) order b := by
  cases h with
  | none closed => exact absurd hopens closed
  | list p b list opens type serialized =>
      have htype := hlist list
      rw [← type] at htype
      exact ⟨b, rfl, Lab8.ends_wait serialized (by omega) (by omega)⟩
  | text p b s notList opens type carries echo notBye serialized =>
      refine ⟨b, rfl, Lab8.ends_wait serialized ?_ fun hinfo => ⟨s, carries, ?_⟩⟩
      · rw [type]
        exact responseType_le host notList
      · rw [type] at hinfo
        cases c with
        | list => exact absurd rfl notList
        | quit => exact absurd rfl hquit
        | echo => exact hecho rfl s (echo rfl)
        | info => exact notBye (.inl rfl)
        | help => exact notBye (.inr rfl)
        | cd => simp [responseType, packetDirectory] at hinfo
        | ack => simp [responseType, packetAck] at hinfo

theorem handleRequest_ends_wait {order : ByteOrder} {host : Host} {args args' : Args}
    {sent : Option Wire} (h : handleRequest order host args = some (args', sent))
    (hreleased : Released host args) : ∃ b, sent = some b ∧ Ends (· = .wait) order b := by
  obtain ⟨request, c, hrequest, hparse, hopens, hquit, hecho, hlist⟩ := hreleased
  obtain ⟨request', hrequest', hcases⟩ := handleRequest_sends h
  obtain rfl := Option.some.inj (hrequest.symm.trans hrequest')
  obtain ⟨hnone, _⟩ | ⟨c', hparse', hsends⟩ := hcases
  · exact absurd (hparse.symm.trans hnone) nofun
  · obtain rfl := Option.some.inj (hparse.symm.trans hparse')
    exact hsends.ends_wait hopens hquit hecho hlist

/-! ## What is on its way

A request and its response are one token that goes around: it is in the stream to the server,
with its handler, in the stream back, and with the receiver until the barrier opens. -/

/-- The stream to the client is a row of good packets. -/
structure Flow (good : Reaction → Prop) (order : ByteOrder) (s : State) (packets : List Wire) :
    Prop where
  stream : s.toClient = packets.flatMap Vector.toList
  ends : ∀ b ∈ packets, Ends good order b
  received : s.client.receiver = .received → Ends good order s.client.buffer
  listening : s.client.receiver ≠ .ended
  line : s.client.main = .sending → s.client.line ≠ []

/-- The requests that the server has not answered. -/
def requests (s : State) : ℕ :=
  (if s.toServer = [] then 0 else 1) + if s.server.pc = .handling then 1 else 0

def tokens (s : State) (packets : List Wire) : ℕ :=
  requests s + packets.length + if s.client.receiver = .receiving then 0 else 1

/-- After its `send` and before it has passed the barrier. -/
def MainPc.atBarrier : MainPc → Bool
  | .arriving | .waiting => true
  | _ => false

/-- How a step changes the number of tokens. -/
inductive Moves (s : State) (a : Action) (s' : State) (n n' : ℕ) : Prop where
  | same (tokens : n' = n)
      (main : s'.client.main.atBarrier = s.client.main.atBarrier)
      (exited : s'.client.main = .exited ↔ s.client.main = .exited)
  | sent (before : s.client.main = .sending) (main : s'.client.main = .arriving)
      (some : 0 < n') (one : n = 0 → n' = 1)
  | taken (count : ℕ) (action : a = .serverRecv (.bytes count))
      (main : s'.client.main = s.client.main) (some : 0 < n')
      (whole : count = s.toServer.length → n' = n)
  | released (before : s.client.main = .waiting) (main : s'.client.main = .passed)
      (tokens : n = n' + 1)
  | exited (main : s'.client.main = .exited)

/-- Every answered request is answered by a good packet. -/
def Answering (good : Reaction → Prop) (order : ByteOrder) (answered : Host → Args → Prop) :
    Prop :=
  ∀ (host : Host) (args args' : Args) (sent : Option Wire), answered host args →
    handleRequest order host args = some (args', sent) →
    ∃ b, sent = some b ∧ Ends good order b

theorem Answering.of_answered (order : ByteOrder) : Answering (· ≠ .again) order Answered :=
  fun _ _ _ _ hanswered hhandled => (handleRequest_ends_iff hhandled).mpr hanswered

theorem Answering.of_released (order : ByteOrder) : Answering (· = .wait) order Released :=
  fun _ _ _ _ hreleased hhandled => handleRequest_ends_wait hhandled hreleased

theorem Effect.flow {order : ByteOrder} {s s' : State} {a : Action} {good : Reaction → Prop}
    {answered : Host → Args → Prop} (hagain : ¬ good .again)
    (hanswering : Answering good order answered) (he : Effect order s a s')
    (hfits : Fits answered s a) {packets : List Wire} (h : Flow good order s packets) :
    ∃ packets', Flow good order s' packets' ∧
      Moves s a s' (tokens s packets) (tokens s' packets') := by
  obtain ⟨hstream, hends, hreceived, hlistening, hline⟩ := h
  cases he with
  | fgets input pc =>
      refine ⟨packets, ?_⟩
      unfold Client.fgets
      split
      · exact ⟨⟨hstream, hends, hreceived, hlistening, fun hpc => absurd (pc.symm.trans hpc) nofun⟩,
          .same rfl rfl Iff.rfl⟩
      · rename_i hne
        refine ⟨⟨hstream, hends, hreceived, hlistening, fun _ hdrop => ?_⟩,
          .same rfl (by rw [pc]; rfl) (by simp [pc])⟩
        have hlen := congrArg List.length hdrop
        rw [List.length_dropLast, List.length_nil] at hlen
        have hpos := List.length_pos_of_ne_nil hne
        have hone : (s.client.read input).length ≠ 1 := hfits
        omega
  | send ok pc =>
      obtain rfl : ok = true := hfits
      have hsent : s.toServer ++ s.client.line ≠ [] := by
        simp [hline pc]
      refine ⟨packets, ⟨hstream, hends, hreceived, hlistening, nofun⟩, ?_⟩
      refine .sent pc rfl ?_ fun hnone => ?_
      · simp only [tokens, requests, if_true, if_neg hsent]
        omega
      · simp only [tokens, requests, if_true, if_neg hsent] at hnone ⊢
        omega
  | arrive pc =>
      exact ⟨packets, ⟨hstream, hends, hreceived, hlistening, nofun⟩,
        .same rfl (by rw [pc]; rfl) (by simp [pc])⟩
  | release pc receiver =>
      refine ⟨packets, ⟨hstream, hends, nofun, nofun, nofun⟩, .released pc rfl ?_⟩
      simp [tokens, requests, receiver]
  | proceed pc =>
      refine ⟨packets, ?_⟩
      unfold Client.proceed
      split
      · exact ⟨⟨hstream, hends, hreceived, hlistening, nofun⟩, .exited rfl⟩
      · exact ⟨⟨hstream, hends, hreceived, hlistening, nofun⟩,
          .same rfl (by rw [pc]; rfl) (by simp [pc])⟩
  | clientBytes count buffer receiver available stored =>
      obtain rfl : count = packetBufferSize := by
        injection hfits
      cases packets with
      | nil =>
          rw [hstream] at available
          exact absurd available (by decide)
      | cons b packets =>
          have hsplit : s.toClient = b.toList ++ packets.flatMap Vector.toList := hstream
          have hlen : b.toList.length = packetBufferSize := b.length_toList
          rw [hsplit, List.take_left' hlen, store_eq_of_length] at stored
          obtain rfl := Option.some.inj stored
          refine ⟨packets, ⟨?_, fun c hc => hends c (List.mem_cons_of_mem b hc),
            fun _ => hends b List.mem_cons_self, nofun, hline⟩, .same ?_ rfl Iff.rfl⟩
          · simp only [hsplit, List.drop_left' hlen]
          · simp only [tokens, requests, receiver, List.length_cons, if_true]
            simp
            omega
  | clientClosed receiver => exact absurd hfits nofun
  | clientError receiver => exact absurd hfits nofun
  | handlePacket fresh packet currentDir receiver decoded =>
      obtain ⟨packet', hdecoded, hgood⟩ := hreceived receiver fresh
      obtain rfl := Option.some.inj (decoded.symm.trans hdecoded)
      refine ⟨packets, ?_⟩
      cases hreact : reaction packet with
      | wait =>
          refine ⟨⟨hstream, hends, nofun, nofun, hline⟩, .same ?_ rfl Iff.rfl⟩
          simp [tokens, requests, receiver]
      | exit => exact ⟨⟨hstream, hends, hreceived, hlistening, nofun⟩, .exited rfl⟩
      | again => exact absurd (hreact ▸ hgood) hagain
  | serverBytes count buffer pc available positive =>
      have hsome : s.toServer ≠ [] := List.ne_nil_of_length_pos (by omega)
      refine ⟨packets, ⟨hstream, hends, hreceived, hlistening, hline⟩,
        .taken count rfl rfl ?_ fun hwhole => ?_⟩
      · simp only [tokens, requests, if_true]
        omega
      · have hrest : s.toServer.drop count = [] := by
          rw [hwhole, List.drop_length]
        simp [tokens, requests, hrest, hsome, pc]
  | serverClosed pc client =>
      refine ⟨packets, ⟨hstream, hends, hreceived, hlistening, hline⟩, .same ?_ rfl Iff.rfl⟩
      simp [tokens, requests, pc]
  | serverError pc => exact absurd rfl hfits
  | handleRequest host args sent pc handled =>
      obtain ⟨b, rfl, hb⟩ := hanswering host s.server.args args sent hfits handled
      refine ⟨packets ++ [b], ⟨?_, ?_, hreceived, hlistening, hline⟩, .same ?_ rfl Iff.rfl⟩
      · simp [hstream]
      · intro c hc
        rcases List.mem_append.mp hc with hc | hc
        · exact hends c hc
        · exact List.mem_singleton.mp hc ▸ hb
      · simp [tokens, requests, pc]
        omega

/-! ## Runs -/

theorem Moves.some_at_barrier {s s' : State} {a : Action} {n n' : ℕ} (h : Moves s a s' n n')
    (hsome : s.client.main.atBarrier = true → 0 < n)
    (hbarrier : s'.client.main.atBarrier = true) : 0 < n' := by
  cases h with
  | same tokens main exited => exact tokens ▸ hsome (main ▸ hbarrier)
  | sent before main some one => exact some
  | taken count action main some whole => exact some
  | released before main tokens =>
      rw [main] at hbarrier
      cases hbarrier
  | exited main =>
      rw [main] at hbarrier
      cases hbarrier

theorem flow_of_reaches {order : ByteOrder} {good : Reaction → Prop}
    {answered : Host → Args → Prop} (hagain : ¬ good .again)
    (hanswering : Answering good order answered) {line : List UInt8}
    {clientBuffer : Vector UInt8 packetBufferSize} {serverBuffer : Vector UInt8 bufferSize}
    {s : State}
    (h : Reaches (step order) (Fits answered) (init line clientBuffer serverBuffer) s) :
    ∃ packets, Flow good order s packets ∧
      (s.client.main.atBarrier = true → 0 < tokens s packets) := by
  refine h.invariant (I := fun u => ∃ packets, Flow good order u packets ∧
    (u.client.main.atBarrier = true → 0 < tokens u packets)) ?_ ?_
  · exact ⟨[], ⟨rfl, nofun, nofun, nofun, nofun⟩, nofun⟩
  · rintro u a v ⟨packets, hflow, hsome⟩ hfits hstep
    obtain ⟨packets', hflow', hmoves⟩ := (step_effect hstep).flow hagain hanswering hfits hflow
    exact ⟨packets', hflow', hmoves.some_at_barrier hsome⟩

theorem Flow.paired {order : ByteOrder} {good : Reaction → Prop} {s : State}
    {packets : List Wire} (h : Flow good order s packets)
    (hsome : s.client.main.atBarrier = true → 0 < tokens s packets) : Paired good order s := by
  intro hwaiting
  have hpos := hsome (by rw [hwaiting]; rfl)
  by_cases hrequest : s.toServer = []
  · by_cases hhandling : s.server.pc = .handling
    · exact .inr (.inl hhandling)
    · right; right
      cases packets with
      | cons b packets =>
          refine .inl (.inl ⟨b, ?_, h.ends b List.mem_cons_self⟩)
          rw [h.stream, List.flatMap_cons, List.take_left' b.length_toList]
      | nil =>
          cases hreceiver : s.client.receiver with
          | receiving => simp [tokens, requests, hrequest, hhandling, hreceiver] at hpos
          | received => exact .inl (.inr ⟨hreceiver, h.received hreceiver⟩)
          | waiting => exact .inr rfl
          | ended => exact absurd hreceiver h.listening
  · exact .inl hrequest

/-- There is one token while the main loop is at the barrier, and none else. -/
structure Single (order : ByteOrder) (s : State) (packets : List Wire) : Prop where
  flow : Flow (· ≠ .again) order s packets
  tokens : s.client.main ≠ .exited →
    Lab8.tokens s packets = if s.client.main.atBarrier then 1 else 0
  counted : s.responses + requests s = s.lines
  one : requests s ≤ 1

theorem Moves.single {s s' : State} {a : Action} {n n' : ℕ} (h : Moves s a s' n n')
    (hwhole : WholeLines s a)
    (hone : s.client.main ≠ .exited → n = if s.client.main.atBarrier then 1 else 0)
    (hmain : s'.client.main ≠ .exited) : n' = if s'.client.main.atBarrier then 1 else 0 := by
  cases h with
  | same tokens main exited => rw [tokens, main, hone fun h => hmain (exited.mpr h)]
  | sent before main some one =>
      have hnone := hone (by rw [before]; decide)
      rw [before] at hnone
      rw [one hnone, main]
      rfl
  | taken count action main some whole =>
      rw [whole (hwhole count action), main, hone (main ▸ hmain)]
  | released before main tokens =>
      have hbefore := hone (by rw [before]; decide)
      rw [before, tokens] at hbefore
      rw [main]
      simpa [MainPc.atBarrier] using hbefore
  | exited main => exact absurd main hmain

/-- A call of `send` is one more request, and a packet of the server one less. -/
theorem Effect.counted {order : ByteOrder} {s s' : State} {a : Action}
    {packets : List Wire} (he : Effect order s a s') (hfits : Fits Answered s a)
    (hwhole : WholeLines s a) (h : Single order s packets) :
    s'.responses + requests s' = s'.lines ∧ requests s' ≤ 1 := by
  obtain ⟨hflow, htokens, hcounted, hone⟩ := h
  cases he with
  | send ok pc =>
      obtain rfl : ok = true := hfits
      have hnone := htokens (by rw [pc]; decide)
      rw [pc] at hnone
      simp only [tokens, MainPc.atBarrier] at hnone
      have hrequests : requests s = 0 := by
        simp at hnone
        omega
      have hsent : s.toServer ++ s.client.line ≠ [] := by
        simp [hflow.line pc]
      have hidle : s.server.pc ≠ .handling := by
        intro hpc
        simp [requests, hpc] at hrequests
      simp only [requests, if_true, if_neg hsent, if_neg hidle]
      omega
  | serverBytes count buffer pc available positive =>
      have hsome : s.toServer ≠ [] := List.ne_nil_of_length_pos (by omega)
      have hrest : s.toServer.drop count = [] := by
        rw [hwhole count rfl, List.drop_length]
      simp [requests, hsome, hrest, pc] at hcounted ⊢
      omega
  | serverClosed pc client =>
      simp only [requests, pc] at hcounted hone ⊢
      exact ⟨hcounted, hone⟩
  | serverError pc => exact absurd rfl hfits
  | handleRequest host args sent pc handled =>
      obtain ⟨b, rfl, _⟩ := (handleRequest_ends_iff handled).mpr hfits
      simp only [requests, pc, if_true] at hcounted hone ⊢
      simp
      omega
  | _ => exact ⟨hcounted, hone⟩

theorem single_of_reaches {order : ByteOrder} {line : List UInt8}
    {clientBuffer : Vector UInt8 packetBufferSize} {serverBuffer : Vector UInt8 bufferSize}
    {s : State}
    (h : Reaches (step order) (fun s a => Fits Answered s a ∧ WholeLines s a)
      (init line clientBuffer serverBuffer) s) : ∃ packets, Single order s packets := by
  refine h.invariant (I := fun u => ∃ packets, Single order u packets) ?_ ?_
  · exact ⟨[], ⟨rfl, nofun, nofun, nofun, nofun⟩, fun _ => rfl, rfl, Nat.zero_le 1⟩
  · rintro u a v ⟨packets, hsingle⟩ ⟨hfits, hwhole⟩ hstep
    obtain ⟨packets', hflow', hmoves⟩ := (step_effect hstep).flow (fun hagain => hagain rfl)
      (.of_answered order) hfits hsingle.flow
    obtain ⟨hcounted, hone⟩ := (step_effect hstep).counted hfits hwhole hsingle
    exact ⟨packets', hflow', hmoves.single hwhole hsingle.tokens, hcounted, hone⟩

theorem Single.oneResponse {order : ByteOrder} {s : State} {packets : List Wire}
    (h : Single order s packets) : OneResponse s := by
  obtain ⟨hflow, htokens, hcounted, hone⟩ := h
  refine ⟨by omega, by omega, fun hreading => ?_⟩
  have hnone := htokens (by rw [hreading]; decide)
  rw [hreading] at hnone
  simp [Lab8.tokens, MainPc.atBarrier] at hnone
  obtain ⟨⟨hrequests, hpackets⟩, hreceiver⟩ := hnone
  refine ⟨by omega, ?_, hreceiver⟩
  rw [hflow.stream, hpackets, List.flatMap_nil]

/-- The server answers exactly the requests that can be answered. If it can answer them all, no
line is empty and the packets stay whole, then the client never waits for nothing; it is never
ended by a BYE if there is none; and it gets one response for each line that arrives whole. -/
theorem response_pairing_iff (order : ByteOrder) (line : List UInt8)
    (clientBuffer : Vector UInt8 packetBufferSize) (serverBuffer : Vector UInt8 bufferSize)
    (s : State) :
    (∀ (host : Host) (args args' : Args) (sent : Option Wire),
      handleRequest order host args = some (args', sent) →
      ((∃ b, sent = some b ∧ Ends (· ≠ .again) order b) ↔ Answered host args)) ∧
    (Reaches (step order) (Fits Answered) (init line clientBuffer serverBuffer) s →
      Paired (· ≠ .again) order s) ∧
    (Reaches (step order) (Fits Released) (init line clientBuffer serverBuffer) s →
      Paired (· = .wait) order s) ∧
    (Reaches (step order) (fun s a => Fits Answered s a ∧ WholeLines s a)
        (init line clientBuffer serverBuffer) s →
      OneResponse s) := by
  refine ⟨fun _ _ _ _ => handleRequest_ends_iff, fun h => ?_, fun h => ?_, fun h => ?_⟩
  · obtain ⟨packets, hflow, hsome⟩ :=
      flow_of_reaches (fun hagain => hagain rfl) (.of_answered order) h
    exact hflow.paired hsome
  · obtain ⟨packets, hflow, hsome⟩ := flow_of_reaches nofun (.of_released order) h
    exact hflow.paired hsome
  · obtain ⟨packets, hsingle⟩ := single_of_reaches h
    exact hsingle.oneResponse

/-! ## A line that is answered, and one that is not -/

/-- The user enters an empty line. -/
def emptyLine : Input := ⟨[10], by decide, by decide, by decide⟩

/-- The user enters ACK. -/
def ackLine : Input := ⟨ascii ['A', 'C', 'K'] ++ [10], by decide, by decide, by decide⟩

theorem handleRequest_ack (order : ByteOrder) (host : Host) {args : Args}
    (h : stringAt args.buffer 0 = some (ascii ['A', 'C', 'K'])) :
    ∃ b, handleRequest order host args =
      some ({ args with buffer := Vector.replicate bufferSize 0 }, some b) := by
  have hparse : parseRequest (ascii ['A', 'C', 'K']) = some .ack := by decide
  obtain ⟨data, hdata⟩ := store_isSome host.response.data (k := 0)
    (v := ascii ['R', 'e', 'c', 'i', 'e', 'v', 'e', 'd'] ++ [0]) (by decide)
  obtain ⟨b, _, hb, _⟩ := serializePacket_eq_some order host.memory
    ⟨packetAck, data, UInt16.ofNat (ascii ['R', 'e', 'c', 'i', 'e', 'v', 'e', 'd']).length⟩
    (show (8 : UInt16).toNat ≤ bufferSize by decide)
  refine ⟨b, ?_⟩
  simp [handleRequest, h, hparse, invoke_some, Cmd.handler, cmdAck, setPayloadString, strcpy,
    hdata, sendResponse, hb]

theorem response_pairing_iff_ack :
    ∃ (s : State) (args args' : Args) (sent : Option Wire),
      handleRequest .little plainHost args = some (args', sent) ∧
      ((∃ b, sent = some b ∧ Ends (· ≠ .again) .little b) ↔ Answered plainHost args) ∧
      s.client.main = .waiting ∧ s.toServer = [] ∧ s.server.pc = .receiving ∧
      Paired (· ≠ .again) .little s ∧ Paired (· = .wait) .little s ∧ OneResponse s := by
  have hrun : ∃ u₁ u₂ u₃, step .little (init [] (Vector.replicate packetBufferSize 0)
        (Vector.replicate bufferSize 0)) (.fgets (some ackLine)) = some u₁ ∧
      step .little u₁ (.send true) = some u₂ ∧ step .little u₂ .arrive = some u₃ ∧
      u₃.client.main = .waiting ∧ u₃.toServer = ascii ['A', 'C', 'K'] ∧
      u₃.server.pc = .receiving ∧ u₃.server.args.buffer = Vector.replicate bufferSize 0 :=
    ⟨_, _, _, rfl, rfl, rfl, rfl, rfl, rfl, rfl⟩
  obtain ⟨u₁, u₂, u₃, h₁, h₂, h₃, hmain, hstream, hserver, hbuffer⟩ := hrun
  obtain ⟨buffer, hstore⟩ := store_isSome u₃.server.args.buffer (k := 0)
    (v := ascii ['A', 'C', 'K']) (by decide)
  let args : Args := { u₃.server.args with buffer := buffer, readBytes := 3 }
  let u₄ : State := { u₃ with server := ⟨.handling, args⟩, toServer := [] }
  have h₄ : step .little u₃ (.serverRecv (.bytes 3)) = some u₄ := by
    have hchunk : chunk u₃.toServer bufferSize 3 = some (ascii ['A', 'C', 'K']) := by
      rw [hstream]
      rfl
    have hrest : u₃.toServer.drop 3 = [] := by
      rw [hstream]
      rfl
    simp [step, serverRecv, hserver, hchunk, hstore, hrest, u₄, args]
  have hrequest : stringAt args.buffer 0 = some (ascii ['A', 'C', 'K']) := by
    refine stringAt_eq_some_iff.mpr ⟨by decide, List.replicate (bufferSize - 4) 0, ?_⟩
    rw [drop_store hstore, hbuffer, Vector.toList_replicate, List.drop_replicate]
    rfl
  obtain ⟨b, hb⟩ := handleRequest_ack .little plainHost hrequest
  let u₅ : State :=
    { u₄ with
      server := ⟨.receiving, { args with buffer := Vector.replicate bufferSize 0 }⟩
      toClient := u₄.toClient ++ b.toList
      responses := u₄.responses + 1 }
  have h₅ : step .little u₄ (.handleRequest plainHost) = some u₅ := by
    simp [step, u₄, hb, u₅]
  have hreleased : Released plainHost args :=
    ⟨_, .ack, hrequest, by decide, trivial, by decide, by simp, by simp⟩
  have hwhole : WholeLines u₃ (.serverRecv (.bytes 3)) := by
    intro count hcount
    injection hcount with hcount
    injection hcount with hcount
    rw [hstream, ← hcount]
    rfl
  have hreach : Reaches (step .little) (fun s a => Fits Released s a ∧ WholeLines s a)
      (init [] (Vector.replicate packetBufferSize 0) (Vector.replicate bufferSize 0)) u₅ :=
    .head ⟨.fgets (some ackLine), ⟨show (4 : ℕ) ≠ 1 by decide, by simp [WholeLines]⟩, h₁⟩ <|
    .head ⟨.send true, ⟨rfl, by simp [WholeLines]⟩, h₂⟩ <|
    .head ⟨.arrive, ⟨trivial, by simp [WholeLines]⟩, h₃⟩ <|
    .head ⟨.serverRecv (.bytes 3), ⟨by simp [Fits], hwhole⟩, h₄⟩ <|
    .single ⟨.handleRequest plainHost, ⟨hreleased, by simp [WholeLines]⟩, h₅⟩
  obtain ⟨hanswer, hpaired, hwait, hone⟩ := response_pairing_iff .little []
    (Vector.replicate packetBufferSize 0) (Vector.replicate bufferSize 0) u₅
  exact ⟨u₅, args, _, some b, hb, hanswer plainHost args _ (some b) hb, hmain, rfl, rfl,
    hpaired (hreach.mono fun _ _ h => h.1.mono fun _ _ => Released.answered),
    hwait (hreach.mono fun _ _ h => h.1),
    hone (hreach.mono fun _ _ h => ⟨h.1.mono fun _ _ => Released.answered, h.2⟩)⟩

theorem response_missing :
    ¬ ∀ (order : ByteOrder) (line : List UInt8) (clientBuffer : Vector UInt8 packetBufferSize)
      (serverBuffer : Vector UInt8 bufferSize) (s : State),
      Reaches (step order) anything (init line clientBuffer serverBuffer) s →
      Paired (· = .wait) order s := by
  intro hall
  have hrun : ∃ s, exec (step .little)
      (init [] (Vector.replicate packetBufferSize 0) (Vector.replicate bufferSize 0))
      [.fgets (some emptyLine), .send true, .arrive] = some s ∧
      s.client.main = .waiting ∧ s.client.receiver = .receiving ∧ s.server.pc = .receiving ∧
      s.toServer = [] ∧ s.toClient = [] :=
    ⟨_, rfl, rfl, rfl, rfl, rfl, rfl⟩
  obtain ⟨s, hexec, hmain, hreceiver, hserver, hrequest, hstream⟩ := hrun
  rcases hall .little _ _ _ s (reaches_anything_of_exec hexec) hmain with h | h | h | h
  · exact h hrequest
  · exact absurd (hserver.symm.trans h) (by decide)
  · rcases h with ⟨b, hb, _⟩ | ⟨h, _⟩
    · have hlen := congrArg List.length hb
      rw [hstream, b.length_toList] at hlen
      exact absurd hlen (by decide)
    · exact absurd (hreceiver.symm.trans h) (by decide)
  · exact absurd (hreceiver.symm.trans h) (by decide)

end OsaspLabs.Lab8
