import OsaspLabs.Lab8.Discovery

/-! # Malformed packets in LAB_8

What is received goes to `deserialize_packet` as it came, with a size of two bytes that nobody
compares with anything. -/

namespace OsaspLabs.Lab8

open Memory CString Discovery

/-- Who receives packets. -/
inductive Receiver where
  /-- `handle_server_msg` of the client. -/
  | client
  /-- The two functions `multicast_thread_handler`. -/
  | discoveryClient
  | discoveryServer
  deriving DecidableEq, Repr

def Receiver.bufferSize : Receiver → ℕ
  | .client => packetBufferSize
  | .discoveryClient | .discoveryServer => Lab8.bufferSize

/-- What `deserialize_packet` copies to. -/
inductive Target where
  | packetType
  | size
  | data

def Target.capacity : Target → ℕ
  | .packetType => 1
  | .size => 2
  | .data => bufferSize

/-- One `memcpy` from the buffer. -/
structure Copy where
  target : Target
  offset : ℕ
  count : ℕ

/-- The three copies of `deserialize_packet`. -/
def deserializeCopies {n : ℕ} (order : ByteOrder) (buffer : Vector UInt8 n) : List Copy :=
  [⟨.packetType, 0, 1⟩, ⟨.size, 1, 2⟩, ⟨.data, 3, encodedSize order buffer⟩]

/-- The number of bytes that `strcpy` writes for the string in the payload. -/
def copiedBytes (packet : Packet) : ℕ := (ofArray packet.data).length + 1

/-- The first `received` bytes of the buffer were received. Nothing else is read, and nothing
is written behind the packet or `server_address_char`. -/
structure Contained (order : ByteOrder) (r : Receiver) (received : ℕ) (fresh : Packet)
    (buffer : Vector UInt8 r.bufferSize) : Prop where
  reads : ∀ c ∈ deserializeCopies order buffer, c.offset + c.count ≤ received
  writes : ∀ c ∈ deserializeCopies order buffer, c.count ≤ c.target.capacity
  address : r = .discoveryClient → ∀ packet, deserializePacket order fresh buffer = some packet →
    packet.type = packetDiscoveryResp → copiedBytes packet ≤ inetAddrStrLen

/-- The size fits what was received and the packet, and an address ends in time. -/
structure WellFormed (order : ByteOrder) (r : Receiver) (bytes : List UInt8) (fresh : Packet)
    (buffer : Vector UInt8 r.bufferSize) : Prop where
  received : 3 + encodedSize order buffer ≤ bytes.length
  size : encodedSize order buffer ≤ bufferSize
  address : r = .discoveryClient → bytes.take 1 = order.bytes 1 packetDiscoveryResp.toNat →
    ∃ i < inetAddrStrLen,
      (if i < encodedSize order buffer then bytes[3 + i]? else fresh.data[i]?) = some 0

/-- What `deserialize_packet` makes of the bytes of its buffer. -/
theorem deserializePacket_fields {n : ℕ} {order : ByteOrder} {fresh p : Packet}
    {buffer : Vector UInt8 n} (h : deserializePacket order fresh buffer = some p) :
    p.size.toNat = encodedSize order buffer ∧
      (∃ type, load buffer 0 1 = some type ∧ p.type.toNat = order.value type) ∧
      ∀ i : ℕ, p.data[i]? =
        if i < encodedSize order buffer then buffer[3 + i]? else fresh.data[i]? := by
  obtain ⟨payload, hpayload, hlist⟩ := data_of_deserializePacket h
  simp only [deserializePacket, Option.bind_eq_bind, Option.bind_eq_some_iff] at h
  obtain ⟨type, htype, size, hsize, _, _, _, _, heq⟩ := h
  cases heq
  have hsz : (UInt16.ofNat (order.value size)).toNat = encodedSize order buffer := by
    rw [load_encodedSize hsize]
    refine UInt16.toNat_ofNat_of_lt' ?_
    have hlt := order.value_lt (length_load hsize)
    rw [show UInt16.size = 65536 from rfl]
    omega
  dsimp only at hpayload hlist ⊢
  rw [hsz] at hpayload hlist
  refine ⟨hsz, ⟨type, htype, ?_⟩, fun i => ?_⟩
  · have hlt := order.value_lt (length_load htype)
    refine UInt32.toNat_ofNat_of_lt' ?_
    rw [show UInt32.size = 4294967296 from rfl]
    omega
  · have hlen := length_load hpayload
    rw [← Vector.getElem?_toList, hlist, List.getElem?_append, hlen]
    split
    · rename_i hi
      exact (load_eq_some_iff.mp hpayload).2.2 i hi
    · rw [List.getElem?_drop, Nat.add_sub_cancel' (by omega), Vector.getElem?_toList]

/-- All three copies read what lies before `n` if the last one does. -/
theorem copies_read_iff {n l : ℕ} {order : ByteOrder} {buffer : Vector UInt8 n} :
    (∀ c ∈ deserializeCopies order buffer, c.offset + c.count ≤ l) ↔
      3 + encodedSize order buffer ≤ l := by
  simp only [deserializeCopies, List.forall_mem_cons, List.not_mem_nil, false_implies,
    implies_true, and_true]
  omega

/-- The type and the size have room for what is copied to them. -/
theorem copies_write_iff {n : ℕ} {order : ByteOrder} {buffer : Vector UInt8 n} :
    (∀ c ∈ deserializeCopies order buffer, c.count ≤ c.target.capacity) ↔
      encodedSize order buffer ≤ bufferSize := by
  simp [deserializeCopies, Target.capacity]

/-- `deserialize_packet` stays inside its objects if and only if its copies do. -/
theorem deserializePacket_isSome_iff {n : ℕ} {order : ByteOrder} {fresh : Packet}
    {buffer : Vector UInt8 n} :
    (∃ p, deserializePacket order fresh buffer = some p) ↔
      (∀ c ∈ deserializeCopies order buffer, c.offset + c.count ≤ n) ∧
        ∀ c ∈ deserializeCopies order buffer, c.count ≤ c.target.capacity := by
  rw [copies_read_iff, copies_write_iff]
  constructor
  · rintro ⟨p, h⟩
    obtain ⟨hsize, _⟩ := deserializePacket_fields h
    simp only [deserializePacket, Option.bind_eq_bind, Option.bind_eq_some_iff] at h
    obtain ⟨_, _, _, _, payload, hpayload, data, hdata, heq⟩ := h
    cases heq
    have hfits := store_fits hdata
    rw [length_load hpayload] at hfits
    have hread := (load_eq_some_iff.mp hpayload).1
    dsimp only at hsize
    omega
  · rintro ⟨hread, hwrite⟩
    obtain ⟨type, htype⟩ := load_isSome buffer (k := 0) (m := 1) (by omega)
    obtain ⟨size, hsize⟩ := load_isSome buffer (k := 1) (m := 2) (by omega)
    rw [load_encodedSize hsize] at hread hwrite
    obtain ⟨payload, hpayload⟩ := load_isSome buffer (k := 3) (m := order.value size) hread
    obtain ⟨p, hp, _⟩ := deserializePacket_eq_some order fresh buffer htype hsize hpayload hwrite
    exact ⟨p, hp⟩

/-- The copy of the address ends in time if and only if a NUL does. -/
theorem copiedBytes_le_iff {n : ℕ} {order : ByteOrder} {fresh p : Packet}
    {buffer : Vector UInt8 n} (h : deserializePacket order fresh buffer = some p) :
    copiedBytes p ≤ inetAddrStrLen ↔ ∃ i < inetAddrStrLen,
      (if i < encodedSize order buffer then buffer[3 + i]? else fresh.data[i]?) = some 0 := by
  have hcell := (deserializePacket_fields h).2.2
  rw [copiedBytes, Nat.succ_le_iff, length_ofArray_lt_iff (by decide)]
  refine exists_congr fun i => and_congr_right fun _ => ?_
  rw [hcell]

theorem type_eq_packetDiscoveryResp_iff {order : ByteOrder} {type : List UInt8}
    {p : Packet} (hlen : type.length = 1) (h : p.type.toNat = order.value type) :
    p.type = packetDiscoveryResp ↔ type = order.bytes 1 packetDiscoveryResp.toNat := by
  have hfour : packetDiscoveryResp.toNat < 256 ^ 1 := by decide
  rw [← UInt32.toNat_inj, h]
  constructor
  · intro heq
    rw [← heq, order.bytes_value hlen]
  · intro heq
    rw [heq, order.value_bytes hfour]

/-- What is decoded from bytes that hold the payload that they announce. -/
theorem deserializePacket_received {n : ℕ} {order : ByteOrder} {old buffer : Vector UInt8 n}
    {bytes : List UInt8} {fresh : Packet} (hstore : store old 0 bytes = some buffer)
    (hread : 3 + encodedSize order buffer ≤ bytes.length)
    (hwrite : encodedSize order buffer ≤ bufferSize) :
    ∃ p, deserializePacket order fresh buffer = some p ∧
      (p.type = packetDiscoveryResp ↔ bytes.take 1 = order.bytes 1 packetDiscoveryResp.toNat) ∧
      (copiedBytes p ≤ inetAddrStrLen ↔ ∃ i < inetAddrStrLen,
        (if i < encodedSize order buffer then bytes[3 + i]? else fresh.data[i]?) = some 0) := by
  have hfits := store_fits hstore
  obtain ⟨p, hp⟩ : ∃ p, deserializePacket order fresh buffer = some p := by
    rw [deserializePacket_isSome_iff, copies_read_iff, copies_write_iff]
    omega
  obtain ⟨_, ⟨type, htype, hvalue⟩, _⟩ := deserializePacket_fields hp
  have htake : type = bytes.take 1 := by
    have hfirst := (load_eq_some_iff.mp htype).1
    rw [load, if_pos hfirst, drop_store hstore, List.take_append_of_le_length (by omega),
      Option.some.injEq] at htype
    exact htype.symm
  refine ⟨p, hp, ?_, ?_⟩
  · rw [← htake]
    exact type_eq_packetDiscoveryResp_iff (length_load htype) hvalue
  · rw [copiedBytes_le_iff hp]
    refine exists_congr fun i => and_congr_right fun _ => ?_
    split
    · rw [getElem?_store hstore, if_pos (by omega), Nat.sub_zero]
    · rfl

/-- A packet that arrives in a buffer stays contained if and only if it is well formed. The copies
are those of `deserialize_packet`: it stays inside the buffer and the packet if and only if each of
them does. -/
theorem malformed_contained_iff (order : ByteOrder) (r : Receiver) (bytes : List UInt8)
    (old : Vector UInt8 r.bufferSize) (fresh : Packet) (hfits : bytes.length ≤ r.bufferSize) :
    ∃ buffer, store old 0 bytes = some buffer ∧
      (Contained order r bytes.length fresh buffer ↔ WellFormed order r bytes fresh buffer) ∧
      ((∃ packet, deserializePacket order fresh buffer = some packet) ↔
        (∀ c ∈ deserializeCopies order buffer, c.offset + c.count ≤ r.bufferSize) ∧
          ∀ c ∈ deserializeCopies order buffer, c.count ≤ c.target.capacity) := by
  obtain ⟨buffer, hstore⟩ := store_isSome old (k := 0) (v := bytes) (by omega)
  refine ⟨buffer, hstore, ⟨?_, ?_⟩, deserializePacket_isSome_iff⟩
  · rintro ⟨hreads, hwrites, haddr⟩
    have hread := copies_read_iff.mp hreads
    have hwrite := copies_write_iff.mp hwrites
    obtain ⟨p, hp, htype, hcopied⟩ := deserializePacket_received hstore hread hwrite
    exact ⟨hread, hwrite, fun hr hresp => hcopied.mp (haddr hr p hp (htype.mpr hresp))⟩
  · rintro ⟨hread, hwrite, haddr⟩
    obtain ⟨p, hp, htype, hcopied⟩ := deserializePacket_received hstore hread hwrite
    refine ⟨copies_read_iff.mpr hread, copies_write_iff.mpr hwrite, fun hr q hq hresp => ?_⟩
    obtain rfl := Option.some.inj (hp.symm.trans hq)
    exact hcopied.mpr (haddr hr (htype.mp hresp))

theorem malformed_contained_iff_request :
    ∃ buffer, store (Vector.replicate Receiver.discoveryServer.bufferSize 85) 0 [3, 1, 0, 65] =
        some buffer ∧
      (Contained .little .discoveryServer 4 ⟨0, Vector.replicate bufferSize 0, 0⟩ buffer ↔
        WellFormed .little .discoveryServer [3, 1, 0, 65] ⟨0, Vector.replicate bufferSize 0, 0⟩
          buffer) := by
  obtain ⟨buffer, hstore, hiff, -⟩ := malformed_contained_iff .little .discoveryServer
    [3, 1, 0, 65] (Vector.replicate _ 85) ⟨0, Vector.replicate bufferSize 0, 0⟩ (by decide)
  exact ⟨buffer, hstore, hiff⟩

/-- A datagram of three bytes whose size is 65535. -/
theorem three_bytes_not_contained :
    ∃ buffer, store (Vector.replicate Receiver.discoveryServer.bufferSize 0) 0 [3, 255, 255] =
        some buffer ∧
      ¬ Contained .little .discoveryServer 3 ⟨0, Vector.replicate bufferSize 0, 0⟩ buffer := by
  obtain ⟨buffer, hstore⟩ := store_isSome
    (Vector.replicate Receiver.discoveryServer.bufferSize (0 : UInt8)) (k := 0)
    (v := [3, 255, 255]) (by decide)
  refine ⟨buffer, hstore, fun h => ?_⟩
  have hsize : encodedSize .little buffer = 65535 := by
    rw [encodedSize, ← List.drop_zero (l := buffer.toList), drop_store hstore]
    rfl
  have hread := copies_read_iff.mp h.reads
  omega

end OsaspLabs.Lab8
