import OsaspLabs.Lab8.Session
import OsaspLabs.Library.Slices

/-! # The packets of LAB_8 in a stream of bytes

The receiver thread of the client takes whatever one `recv` returns for one packet. -/

namespace OsaspLabs.Lab8

open Memory CString

/-- What one `recv` returns, and what the memory for the packet holds then. -/
structure Segment where
  bytes : List UInt8
  memory : Packet

/-- The stream arrives in these pieces. -/
structure Splits (stream : List UInt8) (segments : List Segment) : Prop where
  flatten : (segments.map Segment.bytes).flatten = stream
  nonempty : ∀ g ∈ segments, g.bytes ≠ []
  fits : ∀ g ∈ segments, g.bytes.length ≤ packetBufferSize

/-- What the server sends for these packets. -/
def SentAs (order : ByteOrder) : List Packet → List Wire → Prop :=
  List.Forall₂ fun p b => ∃ memory, serializePacket order memory p = some b

/-- Type, size and payload. -/
def Packet.contents (p : Packet) : UInt32 × UInt16 × List UInt8 :=
  (p.type, p.size, p.data.toList.take p.size.toNat)

/-- The packets that `deserialize_packet` makes of one `recv` after the other. -/
def receivePackets (order : ByteOrder) :
    Vector UInt8 packetBufferSize → List Segment → Option (List Packet)
  | _, [] => some []
  | buffer, g :: segments => do
      let buffer ← store buffer 0 g.bytes
      let packet ← deserializePacket order g.memory buffer
      let packets ← receivePackets order buffer segments
      some (packet :: packets)

/-- The loop of `handle_server_msg`, with the packets that it has got. It ends with the
client; where it waits on the barrier, the main loop lets it go on. -/
def Client.handleServerMsg (order : ByteOrder) :
    Client → List Segment → Option (List Packet × Client)
  | c, [] => some ([], c)
  | c, g :: segments => do
      let buffer ← store c.buffer 0 g.bytes
      let packet ← deserializePacket order g.memory buffer
      let c ← { c with buffer := buffer, receiver := .received }.handlePacket order g.memory
      if c.main = .exited then some ([packet], c)
      else do
        let (packets, c) ←
          { c with receiver := .receiving }.handleServerMsg order segments
        some (packet :: packets, c)

/-! ## The packets of a stream -/

theorem length_receivePackets {order : ByteOrder} {buffer : Vector UInt8 packetBufferSize}
    {segments : List Segment} {packets : List Packet}
    (h : receivePackets order buffer segments = some packets) :
    packets.length = segments.length := by
  induction segments generalizing buffer packets with
  | nil =>
      cases h
      rfl
  | cons g segments ih =>
      simp only [receivePackets, Option.bind_eq_bind, Option.bind_eq_some_iff] at h
      obtain ⟨_, _, _, _, _, hrest, heq⟩ := h
      cases heq
      rw [List.length_cons, List.length_cons, ih hrest]

/-- A type is decoded from one byte. -/
theorem type_lt_of_deserializePacket {n : ℕ} {order : ByteOrder} {memory p : Packet}
    {b : Vector UInt8 n} (h : deserializePacket order memory b = some p) : p.type.toNat < 256 := by
  simp only [deserializePacket, Option.bind_eq_bind, Option.bind_eq_some_iff] at h
  obtain ⟨type, htype, _, _, _, _, _, _, heq⟩ := h
  cases heq
  have hlt := order.value_lt (length_load htype)
  exact (UInt32.toNat_ofNat_of_lt' (by
    rw [show UInt32.size = 4294967296 from rfl]
    omega)).trans_lt hlt

theorem type_lt_of_receivePackets {order : ByteOrder} {buffer : Vector UInt8 packetBufferSize}
    {segments : List Segment} {packets : List Packet}
    (h : receivePackets order buffer segments = some packets) :
    ∀ p ∈ packets, p.type.toNat < 256 := by
  induction segments generalizing buffer packets with
  | nil =>
      cases h
      simp
  | cons g segments ih =>
      simp only [receivePackets, Option.bind_eq_bind, Option.bind_eq_some_iff] at h
      obtain ⟨_, _, packet, hdes, _, hrest, heq⟩ := h
      cases heq
      intro p hp
      rcases List.mem_cons.mp hp with rfl | hp
      · exact type_lt_of_deserializePacket hdes
      · exact ih hrest p hp

/-- A packet is received as it was sent if its type fits into a byte. -/
theorem contents_of_deserializePacket {order : ByteOrder}
    {memory b : Vector UInt8 packetBufferSize} {p : Packet}
    (h : serializePacket order memory p = some b) (htype : p.type.toNat < 256) (fresh : Packet) :
    ∃ p', deserializePacket order fresh b = some p' ∧ p'.contents = p.contents := by
  have hsize := size_le_of_serializePacket h
  obtain ⟨p', hdes, htp, hsp, hload⟩ := deserializePacket_of_serializePacket h fresh
  rw [Nat.mod_eq_of_lt htype] at htp
  rw [load, load, if_pos (by omega), if_pos (by omega), List.drop_zero, List.drop_zero,
    Option.some.injEq] at hload
  refine ⟨p', hdes, ?_⟩
  rw [Packet.contents, Packet.contents, UInt32.toNat_inj.mp htp, hsp, hload]

/-- Each `recv` that returns one whole packet gives this packet. -/
theorem receivePackets_of_whole {order : ByteOrder} {packets : List Packet} {wires : List Wire}
    (hsent : SentAs order packets wires) (htypes : ∀ p ∈ packets, p.type.toNat < 256)
    {segments : List Segment} (hsame : segments.map Segment.bytes = wires.map Vector.toList)
    (buffer : Vector UInt8 packetBufferSize) :
    ∃ got, receivePackets order buffer segments = some got ∧
      got.map Packet.contents = packets.map Packet.contents := by
  induction hsent generalizing segments buffer with
  | nil =>
      rw [List.map_nil, List.map_eq_nil_iff] at hsame
      subst hsame
      exact ⟨[], rfl, rfl⟩
  | @cons p b packets wires hp _ ih =>
      obtain ⟨memory, hser⟩ := hp
      cases segments with
      | nil => cases hsame
      | cons g segments =>
          obtain ⟨hbytes, hrest⟩ := List.cons.inj hsame
          obtain ⟨p', hdes, hcontents⟩ := contents_of_deserializePacket hser
            (htypes p List.mem_cons_self) g.memory
          obtain ⟨got, hgot, hsames⟩ :=
            ih (fun q hq => htypes q (List.mem_cons_of_mem p hq)) hrest b
          refine ⟨p' :: got, ?_, by rw [List.map_cons, List.map_cons, hcontents, hsames]⟩
          simp only [receivePackets, hbytes, store_eq_of_length, hdes, hgot,
            Option.bind_eq_bind, Option.bind_some]

theorem Client.handlePacket_buffer {order : ByteOrder} {c c' : Client} {memory : Packet}
    (h : c.handlePacket order memory = some c') : c'.buffer = c.buffer := by
  simp only [Client.handlePacket, Option.bind_eq_bind, Option.bind_eq_some_iff] at h
  obtain ⟨packet, _, _, _, hreact⟩ := h
  cases hr : reaction packet <;> rw [hr] at hreact <;> cases hreact <;> rfl

/-- The loop of the client gets the packets of what it receives, until it ends. -/
theorem Client.handleServerMsg_packets {order : ByteOrder} {c c' : Client}
    {segments : List Segment} {got : List Packet}
    (h : c.handleServerMsg order segments = some (got, c')) :
    receivePackets order c.buffer (segments.take got.length) = some got ∧
      (got.length = segments.length ∨ c'.main = .exited) := by
  induction segments generalizing c got with
  | nil =>
      cases h
      exact ⟨rfl, .inl rfl⟩
  | cons g segments ih =>
      simp only [Client.handleServerMsg, Option.bind_eq_bind, Option.bind_eq_some_iff] at h
      obtain ⟨buffer, hstore, packet, hdes, c₁, hhandle, h⟩ := h
      have hbuffer := Client.handlePacket_buffer hhandle
      split at h
      · rename_i hexit
        cases h
        refine ⟨?_, .inr hexit⟩
        simp [receivePackets, hstore, hdes]
      · obtain ⟨⟨packets, c₂⟩, hrest, heq⟩ := Option.bind_eq_some_iff.mp h
        cases heq
        obtain ⟨hpackets, hend⟩ := ih hrest
        dsimp only at hbuffer hpackets
        rw [hbuffer] at hpackets
        refine ⟨?_, hend.imp_left fun hlen => by rw [List.length_cons, List.length_cons, hlen]⟩
        simp only [List.length_cons, List.take_succ_cons, receivePackets, hstore, hdes, hpackets,
          Option.bind_eq_bind, Option.bind_some]

/-- The client decodes what was sent if and only if every `recv` returns one whole packet and no
type is cut to its byte; its loop gets the packets decoded so, up to its end. -/
theorem stream_decoded_iff (order : ByteOrder) (packets : List Packet) (wires : List Wire)
    (segments : List Segment) (buffer : Vector UInt8 packetBufferSize)
    (hsent : SentAs order packets wires)
    (hsplits : Splits (wires.flatMap Vector.toList) segments) :
    ((∃ got, receivePackets order buffer segments = some got ∧
        got.map Packet.contents = packets.map Packet.contents) ↔
      (∀ g ∈ segments, g.bytes.length = packetBufferSize) ∧
        ∀ p ∈ packets, p.type.toNat < 256) ∧
    ∀ (c c' : Client) (got : List Packet), c.handleServerMsg order segments = some (got, c') →
      receivePackets order c.buffer (segments.take got.length) = some got ∧
        (got.length = segments.length ∨ c'.main = .exited) := by
  have hwires : ∀ v ∈ wires.map Vector.toList, v.length = packetBufferSize := by
    simp
  refine ⟨⟨?_, ?_⟩, fun c c' got => Client.handleServerMsg_packets⟩
  · rintro ⟨got, hgot, hcontents⟩
    have hcount : segments.length = wires.length := by
      rw [← length_receivePackets hgot, ← hsent.length_eq, ← List.length_map Packet.contents,
        hcontents, List.length_map]
    constructor
    · have hlen : (segments.map Segment.bytes).flatten.length =
          (segments.map Segment.bytes).length * packetBufferSize := by
        rw [hsplits.flatten, List.length_flatMap, List.length_map, hcount]
        simp
      have hfull := length_eq_of_flatten (by simpa using hsplits.fits) hlen
      simpa using hfull
    · intro p hp
      have hmem : p.contents ∈ got.map Packet.contents := by
        rw [hcontents]
        exact List.mem_map_of_mem hp
      obtain ⟨q, hq, hsame⟩ := List.mem_map.mp hmem
      have htype : q.type = p.type := congrArg Prod.fst hsame
      exact htype ▸ type_lt_of_receivePackets hgot q hq
  · rintro ⟨hwhole, htypes⟩
    have hsame : segments.map Segment.bytes = wires.map Vector.toList := by
      refine eq_of_flatten (n := packetBufferSize) (by decide) (by simpa using hwhole) hwires ?_
      rw [hsplits.flatten, List.flatMap_def]
    exact receivePackets_of_whole hsent htypes hsame buffer

/-- The answer to ACK, without its text. -/
def ackPacket : Packet := ⟨packetAck, Vector.replicate bufferSize 0, 0⟩

theorem sentAs_ackPacket : ∃ b, SentAs .little [ackPacket] [b] := by
  obtain ⟨b, _, hser, _⟩ := serializePacket_eq_some .little (Vector.replicate packetBufferSize 0)
    ackPacket (by decide)
  exact ⟨b, .cons ⟨_, hser⟩ .nil⟩

theorem stream_decoded_iff_ack :
    ∃ b : Wire, SentAs .little [ackPacket] [b] ∧
      ((∃ got, receivePackets .little (Vector.replicate packetBufferSize 0)
          [⟨b.toList, ackPacket⟩] = some got ∧ got.map Packet.contents = [ackPacket.contents]) ↔
        (∀ g ∈ [Segment.mk b.toList ackPacket], g.bytes.length = packetBufferSize) ∧
          ∀ p ∈ [ackPacket], p.type.toNat < 256) := by
  obtain ⟨b, hsent⟩ := sentAs_ackPacket
  have hlen : b.toList.length = 4102 := b.length_toList
  have hsome : b.toList ≠ [] := List.ne_nil_of_length_pos (by omega)
  have hsplits : Splits ([b].flatMap Vector.toList) [⟨b.toList, ackPacket⟩] :=
    ⟨by simp, by simpa using hsome, by simp⟩
  exact ⟨b, hsent, (stream_decoded_iff .little [ackPacket] [b] [⟨b.toList, ackPacket⟩]
    (Vector.replicate packetBufferSize 0) hsent hsplits).1⟩

/-- One packet that arrives in two pieces is taken for two. -/
theorem split_packet_not_decoded :
    ∃ (b : Wire) (segments : List Segment), SentAs .little [ackPacket] [b] ∧
      segments.map Segment.bytes = [b.toList.take 100, b.toList.drop 100] ∧
      Splits b.toList segments ∧
      ∀ got, receivePackets .little (Vector.replicate packetBufferSize 0) segments = some got →
        got.map Packet.contents ≠ [ackPacket.contents] := by
  obtain ⟨b, hsent⟩ := sentAs_ackPacket
  have hlen : b.toList.length = 4102 := b.length_toList
  have hfront : (b.toList.take 100).length = 100 := by
    rw [List.length_take, hlen]
    rfl
  have hback : (b.toList.drop 100).length = 4002 := by
    rw [List.length_drop, hlen]
  refine ⟨b, [⟨b.toList.take 100, ackPacket⟩, ⟨b.toList.drop 100, ackPacket⟩], hsent, rfl,
    ⟨by simp, ?_, ?_⟩, fun got hgot hsame => ?_⟩
  · intro g hg
    refine List.ne_nil_of_length_pos ?_
    rcases List.mem_pair.mp hg with rfl | rfl <;> dsimp only <;> omega
  · intro g hg
    have hmax : packetBufferSize = 4102 := rfl
    rcases List.mem_pair.mp hg with rfl | rfl <;> dsimp only <;> omega
  · have htwo := length_receivePackets hgot
    have hone := congrArg List.length hsame
    rw [List.length_map, htwo, List.length_singleton] at hone
    cases hone

end OsaspLabs.Lab8
