import OsaspLabs.Library.CString

/-! # Packets of LAB_8

A packet travels as its type in one byte, the size of its payload in two bytes of the byte
order of the host, and the payload. Memory from `malloc` holds anything. -/

namespace OsaspLabs.Lab8

open Memory CString

def bufferSize : ℕ := 4096

def packetBufferSize : ℕ := bufferSize + 6

/-- `enum PACKET_TYPE`, stored as an `unsigned int`. -/
def packetInfo : UInt32 := 0

def packetDirectory : UInt32 := 1

def packetAck : UInt32 := 2

def packetDiscoveryReq : UInt32 := 3

def packetDiscoveryResp : UInt32 := 4

/-- `packet_t`. -/
structure Packet where
  type : UInt32
  data : Vector UInt8 bufferSize
  size : UInt16
  deriving DecidableEq

def setPayloadString (packet : Packet) (string : List UInt8) : Option Packet := do
  let data ← strcpy packet.data string
  some { packet with data := data, size := UInt16.ofNat string.length }

/-- `buffer` is the memory that `malloc` returns. -/
def serializePacket (order : ByteOrder) (buffer : Vector UInt8 packetBufferSize)
    (packet : Packet) : Option (Vector UInt8 packetBufferSize) := do
  let buffer ← store buffer 0 (order.bytes 1 packet.type.toUInt8.toNat)
  let buffer ← store buffer 1 (order.bytes 2 packet.size.toNat)
  let data ← load packet.data 0 packet.size.toNat
  store buffer 3 data

/-- `packet` is the memory that `malloc` returns, `buffer` what was received. -/
def deserializePacket {n : ℕ} (order : ByteOrder) (packet : Packet) (buffer : Vector UInt8 n) :
    Option Packet := do
  let type ← load buffer 0 1
  let size ← load buffer 1 2
  let size := UInt16.ofNat (order.value size)
  let src ← load buffer 3 size.toNat
  let data ← store packet.data 0 src
  some { type := UInt32.ofNat (order.value type), data := data, size := size }

/-- The payload size that a buffer of at least three bytes encodes. -/
def encodedSize {n : ℕ} (order : ByteOrder) (buffer : Vector UInt8 n) : ℕ :=
  order.value ((buffer.toList.drop 1).take 2)

/-! ## Round trip -/

/-- A serialised packet: its header and its payload, whatever the buffer held. -/
theorem serializePacket_eq_some (order : ByteOrder) (buffer : Vector UInt8 packetBufferSize)
    (p : Packet) (hsize : p.size.toNat ≤ bufferSize) :
    ∃ (b : Vector UInt8 packetBufferSize) (payload : List UInt8),
      serializePacket order buffer p = some b ∧ load p.data 0 p.size.toNat = some payload ∧
      load b 0 1 = some (order.bytes 1 p.type.toUInt8.toNat) ∧
      load b 1 2 = some (order.bytes 2 p.size.toNat) ∧ load b 3 p.size.toNat = some payload := by
  have hmax : packetBufferSize = bufferSize + 6 := rfl
  obtain ⟨b₁, h₁⟩ := store_isSome buffer (k := 0)
    (v := order.bytes 1 p.type.toUInt8.toNat) (by simp; omega)
  obtain ⟨b₂, h₂⟩ := store_isSome b₁ (k := 1)
    (v := order.bytes 2 p.size.toNat) (by simp; omega)
  obtain ⟨payload, hpayload⟩ := load_isSome p.data (k := 0)
    (m := p.size.toNat) (by omega)
  have hlen := length_load hpayload
  obtain ⟨b₃, h₃⟩ := store_isSome b₂ (k := 3) (v := payload) (by omega)
  refine ⟨b₃, payload, ?_, hpayload, ?_, ?_, ?_⟩
  · simp only [serializePacket, Option.bind_eq_bind, h₁, h₂, hpayload, h₃, Option.bind_some]
  · have hself := load_store h₁
    rw [ByteOrder.length_bytes] at hself
    rw [load_store_of_disjoint h₃ (by omega), load_store_of_disjoint h₂ (by omega), hself]
  · have hself := load_store h₂
    rw [ByteOrder.length_bytes] at hself
    rw [load_store_of_disjoint h₃ (by omega), hself]
  · rw [← hlen]
    exact load_store h₃

/-- What a buffer with a payload of an admitted size decodes to, whatever the memory of the
packet held. -/
theorem deserializePacket_eq_some {n : ℕ} (order : ByteOrder) (fresh : Packet)
    (b : Vector UInt8 n) {type size payload : List UInt8} (htype : load b 0 1 = some type)
    (hsize : load b 1 2 = some size) (hpayload : load b 3 (order.value size) = some payload)
    (hfits : order.value size ≤ bufferSize) :
    ∃ p, deserializePacket order fresh b = some p ∧ p.type.toNat = order.value type ∧
      p.size.toNat = order.value size ∧ load p.data 0 (order.value size) = some payload := by
  have hmax : bufferSize = 4096 := rfl
  have hsize' : (UInt16.ofNat (order.value size)).toNat = order.value size :=
    UInt16.toNat_ofNat_of_lt' (by
      rw [show UInt16.size = 65536 from rfl]
      omega)
  have hlen := length_load hpayload
  obtain ⟨data, hdata⟩ := store_isSome fresh.data (k := 0) (v := payload) (by omega)
  refine ⟨⟨UInt32.ofNat (order.value type), data, UInt16.ofNat (order.value size)⟩, ?_, ?_,
    hsize', ?_⟩
  · simp only [deserializePacket, Option.bind_eq_bind, htype, hsize, hsize', hpayload, hdata,
      Option.bind_some]
  · have hlt := order.value_lt (length_load htype)
    exact UInt32.toNat_ofNat_of_lt' (by
      rw [show UInt32.size = 4294967296 from rfl]
      omega)
  · have hself := load_store hdata
    rw [hlen] at hself
    exact hself

/-- Only a payload that fits is serialised. -/
theorem size_le_of_serializePacket {order : ByteOrder} {memory b : Vector UInt8 packetBufferSize}
    {p : Packet} (h : serializePacket order memory p = some b) : p.size.toNat ≤ bufferSize := by
  simp only [serializePacket, Option.bind_eq_bind, Option.bind_eq_some_iff] at h
  obtain ⟨_, _, _, _, _, hload, _⟩ := h
  have hfits := (load_eq_some_iff.mp hload).1
  omega

/-- What was serialised is decoded with the type cut to a byte and the payload as it was. -/
theorem deserializePacket_of_serializePacket {order : ByteOrder}
    {memory b : Vector UInt8 packetBufferSize} {p : Packet}
    (h : serializePacket order memory p = some b) (fresh : Packet) :
    ∃ p', deserializePacket order fresh b = some p' ∧ p'.type.toNat = p.type.toNat % 256 ∧
      p'.size = p.size ∧ load p'.data 0 p.size.toNat = load p.data 0 p.size.toNat := by
  have hfits := size_le_of_serializePacket h
  obtain ⟨b', payload, hb', hpayload, htype, hsize, hdata⟩ :=
    serializePacket_eq_some order memory p hfits
  obtain rfl := Option.some.inj (h.symm.trans hb')
  have hvalue : order.value (order.bytes 2 p.size.toNat) = p.size.toNat :=
    order.value_bytes p.size.toNat_lt
  obtain ⟨p', hdes, htp, hsp, hload⟩ := deserializePacket_eq_some order fresh b htype hsize
    (hvalue.symm ▸ hdata) (hvalue.symm ▸ hfits)
  refine ⟨p', hdes, ?_, UInt16.toNat_inj.mp (hsp.trans hvalue), ?_⟩
  · rw [htp, order.value_bytes p.type.toUInt8.toNat_lt, UInt32.toNat_toUInt8]
  · rw [hpayload, ← hload, hvalue]

theorem load_encodedSize {n : ℕ} {order : ByteOrder} {b : Vector UInt8 n} {size : List UInt8}
    (h : load b 1 2 = some size) : encodedSize order b = order.value size := by
  have hfit := (load_eq_some_iff.mp h).1
  rw [load, if_pos hfit] at h
  rw [encodedSize, Option.some.inj h]

/-- What was decoded is serialised to the header and the payload that it came from. -/
theorem serializePacket_of_deserializePacket {order : ByteOrder}
    {b : Vector UInt8 packetBufferSize} (h : encodedSize order b ≤ bufferSize) (fresh : Packet)
    (memory : Vector UInt8 packetBufferSize) :
    ∃ p b', deserializePacket order fresh b = some p ∧ serializePacket order memory p = some b' ∧
      ∃ type size payload, (load b 0 1 = some type ∧ load b' 0 1 = some type) ∧
        (load b 1 2 = some size ∧ load b' 1 2 = some size) ∧
        load b 3 (encodedSize order b) = some payload ∧
        load b' 3 (encodedSize order b) = some payload := by
  have hmax : packetBufferSize = bufferSize + 6 := rfl
  obtain ⟨type, htype⟩ := load_isSome b (k := 0) (m := 1) (by omega)
  obtain ⟨size, hsize⟩ := load_isSome b (k := 1) (m := 2) (by omega)
  rw [load_encodedSize hsize] at h ⊢
  obtain ⟨payload, hpayload⟩ := load_isSome b (k := 3) (m := order.value size) (by omega)
  obtain ⟨p, hdes, htp, hsp, hdata⟩ :=
    deserializePacket_eq_some order fresh b htype hsize hpayload h
  obtain ⟨b', payload', hser, hpayload', htype', hsize', hdata'⟩ :=
    serializePacket_eq_some order memory p (by omega)
  have hsent : order.bytes 1 p.type.toUInt8.toNat = type := by
    have hlt := order.value_lt (length_load htype)
    rw [UInt32.toNat_toUInt8, htp, Nat.mod_eq_of_lt (by omega),
      order.bytes_value (length_load htype)]
  rw [hsent] at htype'
  rw [hsp, order.bytes_value (length_load hsize)] at hsize'
  rw [hsp, hdata] at hpayload'
  obtain rfl := Option.some.inj hpayload'
  rw [hsp] at hdata'
  exact ⟨p, b', hdes, hser, type, size, payload, ⟨htype, htype'⟩, ⟨hsize, hsize'⟩, hpayload,
    hdata'⟩

/-- `set_payload_string` makes the string the payload. -/
theorem setPayloadString_spec {p q : Packet} {s : List UInt8}
    (h : setPayloadString p s = some q) :
    q.type = p.type ∧ q.size.toNat = s.length ∧ load q.data 0 s.length = some s := by
  obtain ⟨data, hstore, hq⟩ := Option.bind_eq_some_iff.mp h
  obtain rfl := Option.some.inj hq
  have hfits := store_fits hstore
  have hmax : bufferSize = 4096 := rfl
  rw [List.length_append, List.length_singleton] at hfits
  refine ⟨rfl, ?_, ?_⟩
  · refine UInt16.toNat_ofNat_of_lt' ?_
    rw [show UInt16.size = 65536 from rfl]
    omega
  · rw [load, if_pos (by omega), drop_store hstore, List.append_assoc, List.take_left]

/-- Packet to bytes to packet, and bytes to packet to bytes: what is transmitted survives,
and what the fresh memory held does not matter. -/
theorem packet_round_trip (order : ByteOrder) (fresh : Packet)
    (memory : Vector UInt8 packetBufferSize) :
    (∀ p : Packet, p.type.toNat ≤ 255 → p.size.toNat ≤ bufferSize →
      ∃ b p', serializePacket order memory p = some b ∧
        deserializePacket order fresh b = some p' ∧ p'.type = p.type ∧ p'.size = p.size ∧
        ∀ i < p.size.toNat, p'.data[i]? = p.data[i]?) ∧
    ∀ b : Vector UInt8 packetBufferSize, encodedSize order b ≤ bufferSize →
      ∃ p b', deserializePacket order fresh b = some p ∧
        serializePacket order memory p = some b' ∧
        ∀ i < 3 + encodedSize order b, b'[i]? = b[i]? := by
  constructor
  · intro p htype hsize
    obtain ⟨b, payload, hser, hpayload, _⟩ := serializePacket_eq_some order memory p hsize
    obtain ⟨p', hdes, htp, hsp, hdata⟩ := deserializePacket_of_serializePacket hser fresh
    rw [Nat.mod_eq_of_lt (by omega)] at htp
    rw [hpayload] at hdata
    refine ⟨b, p', hser, hdes, UInt32.toNat_inj.mp htp, hsp, fun i hi => ?_⟩
    exact getElem?_eq_of_load hdata hpayload (Nat.zero_le i) (by omega)
  · intro b hsize
    obtain ⟨p, b', hdes, hser, type, size, payload, ⟨htype, htype'⟩, ⟨hsz, hsz'⟩, hdata, hdata'⟩ :=
      serializePacket_of_deserializePacket hsize fresh memory
    refine ⟨p, b', hdes, hser, fun i hi => ?_⟩
    -- the three parts of the buffer, one after the other
    by_cases hi₀ : i < 1
    · exact getElem?_eq_of_load htype' htype (Nat.zero_le i) (by omega)
    · by_cases hi₁ : i < 3
      · exact getElem?_eq_of_load hsz' hsz (by omega) (by omega)
      · exact getElem?_eq_of_load hdata' hdata (by omega) (by omega)

theorem packet_round_trip_directory :
    (∃ b p', serializePacket .little (Vector.replicate packetBufferSize 170)
        ⟨packetDirectory, Vector.replicate bufferSize 47, 1⟩ = some b ∧
      deserializePacket .little ⟨7, Vector.replicate bufferSize 85, 9⟩ b = some p' ∧
      p'.type = packetDirectory) ∧
    ∃ p b', deserializePacket .big ⟨7, Vector.replicate bufferSize 85, 9⟩
        (Vector.replicate packetBufferSize 1) = some p ∧
      serializePacket .big (Vector.replicate packetBufferSize 170) p = some b' := by
  constructor
  · obtain ⟨b, p', hser, hdes, htype, _⟩ :=
      (packet_round_trip .little ⟨7, Vector.replicate bufferSize 85, 9⟩
        (Vector.replicate packetBufferSize 170)).1
        ⟨packetDirectory, Vector.replicate bufferSize 47, 1⟩ (by decide) (by decide)
    exact ⟨b, p', hser, hdes, htype⟩
  · have hsize : encodedSize .big (Vector.replicate packetBufferSize (1 : UInt8)) ≤ bufferSize := by
      rw [encodedSize, Vector.toList_replicate, List.drop_replicate, List.take_replicate]
      decide
    obtain ⟨p, b', hdes, hser, _⟩ :=
      (packet_round_trip .big ⟨7, Vector.replicate bufferSize 85, 9⟩
        (Vector.replicate packetBufferSize 170)).2 (Vector.replicate packetBufferSize 1) hsize
    exact ⟨p, b', hdes, hser⟩

end OsaspLabs.Lab8
