import OsaspLabs.Lab8.Protocol

/-! # Strings in LAB_8 packets

The sender counts the bytes of a string without its NUL, and the receiver reads its packet up to
a NUL. -/

namespace OsaspLabs.Lab8

open Memory CString

/-- The payload is laid over what the memory of the packet held. -/
theorem data_of_deserializePacket {n : ℕ} {order : ByteOrder} {fresh p : Packet}
    {b : Vector UInt8 n} (h : deserializePacket order fresh b = some p) :
    ∃ payload, load b 3 p.size.toNat = some payload ∧
      p.data.toList = payload ++ fresh.data.toList.drop p.size.toNat := by
  simp only [deserializePacket, Option.bind_eq_bind, Option.bind_eq_some_iff] at h
  obtain ⟨_, _, _, _, payload, hpayload, data, hdata, heq⟩ := h
  cases heq
  refine ⟨payload, hpayload, ?_⟩
  have hlen := length_load hpayload
  rw [← List.drop_zero (l := data.toList), drop_store hdata, Nat.zero_add, hlen]

/-- A string that fits is sent. -/
theorem sent_isSome (order : ByteOrder) (packet : Packet)
    (memory : Vector UInt8 packetBufferSize) {s : List UInt8} (h : s.length < bufferSize) :
    ∃ p b, setPayloadString packet s = some p ∧ serializePacket order memory p = some b := by
  obtain ⟨data, hdata⟩ := store_isSome packet.data (k := 0) (v := s ++ [0]) (by
    rw [List.length_append, List.length_singleton]
    omega)
  have hset : setPayloadString packet s =
      some { packet with data := data, size := UInt16.ofNat s.length } := by
    rw [setPayloadString, strcpy, hdata]
    rfl
  have hsize := (setPayloadString_spec hset).2.1
  obtain ⟨b, _, hser, _⟩ := serializePacket_eq_some order memory
    { packet with data := data, size := UInt16.ofNat s.length } (by omega)
  exact ⟨_, b, hset, hser⟩

/-- A string that is laid over an array ends at a NUL that stands right behind it. -/
theorem stringAt_iff_nul {n : ℕ} {data old : Vector UInt8 n} {s : List UInt8} (hnul : 0 ∉ s)
    (h : data.toList = s ++ old.toList.drop s.length) :
    stringAt data 0 = some s ↔ old[s.length]? = some 0 := by
  rw [stringAt_eq_some_iff, h, List.drop_zero]
  simp only [List.append_cancel_left_eq, hnul, not_false_eq_true, true_and]
  constructor
  · rintro ⟨rest, hrest⟩
    have hhead := congrArg List.head? hrest
    rwa [List.head?_drop, Vector.getElem?_toList] at hhead
  · intro hzero
    exact ⟨old.toList.drop (s.length + 1), drop_of_getElem? hzero⟩

/-- The received string ends where the memory of the packet has a NUL right behind the
payload. -/
theorem stringAt_deserializePacket {order : ByteOrder} {memory b : Vector UInt8 packetBufferSize}
    {p q fresh p' : Packet} {s : List UInt8} (hnul : 0 ∉ s) (hset : setPayloadString p s = some q)
    (hser : serializePacket order memory q = some b)
    (hdes : deserializePacket order fresh b = some p') :
    p'.data.toList = s ++ fresh.data.toList.drop s.length ∧
      (stringAt p'.data 0 = some s ↔ fresh.data[s.length]? = some 0) := by
  obtain ⟨_, hsize, hdata⟩ := setPayloadString_spec hset
  obtain ⟨p'', hdes', _, hsize', hload⟩ := deserializePacket_of_serializePacket hser fresh
  obtain rfl := Option.some.inj (hdes'.symm.trans hdes)
  obtain ⟨payload, hpayload, hlist⟩ := data_of_deserializePacket hdes
  have hfits := (load_eq_some_iff.mp hdata).1
  have hsame : payload = s := by
    rw [hsize, hdata, load, if_pos (by omega), hlist, List.drop_zero, hsize', hsize,
      List.take_left' (by rw [length_load hpayload, hsize', hsize]), Option.some.injEq] at hload
    exact hload
  rw [hsame, hsize', hsize] at hlist
  exact ⟨hlist, stringAt_iff_nul hnul hlist⟩

/-- A string that is sent can be read as such if and only if the memory of the received packet
has a NUL right behind it. -/
theorem string_arrives_iff (order : ByteOrder) (packet fresh : Packet)
    (memory : Vector UInt8 packetBufferSize) (s : List UInt8) (hnul : 0 ∉ s)
    (hshort : s.length < bufferSize) :
    ∃ p b p', setPayloadString packet s = some p ∧ serializePacket order memory p = some b ∧
      deserializePacket order fresh b = some p' ∧
      (stringAt p'.data 0 = some s ↔ fresh.data[s.length]? = some 0) := by
  obtain ⟨p, b, hset, hser⟩ := sent_isSome order packet memory hshort
  obtain ⟨p', hdes, _⟩ := deserializePacket_of_serializePacket hser fresh
  exact ⟨p, b, p', hset, hser, hdes, (stringAt_deserializePacket hnul hset hser hdes).2⟩

theorem string_arrives_iff_bye :
    ∃ p b p', setPayloadString ⟨packetInfo, Vector.replicate bufferSize 88, 7⟩
        (ascii ['B', 'Y', 'E']) = some p ∧
      serializePacket .little (Vector.replicate packetBufferSize 85) p = some b ∧
      deserializePacket .little ⟨9, Vector.replicate bufferSize 0, 5⟩ b = some p' ∧
      (stringAt p'.data 0 = some (ascii ['B', 'Y', 'E']) ↔
        (Vector.replicate bufferSize (0 : UInt8))[(ascii ['B', 'Y', 'E']).length]? = some 0) :=
  string_arrives_iff .little ⟨packetInfo, Vector.replicate bufferSize 88, 7⟩
    ⟨9, Vector.replicate bufferSize 0, 5⟩ (Vector.replicate packetBufferSize 85)
    (ascii ['B', 'Y', 'E']) (by decide) (by decide)

/-- The response to QUIT, received where a HELLO was before. -/
theorem bye_arrives_longer :
    ∃ p b p', setPayloadString ⟨packetInfo, Vector.replicate bufferSize 0, 0⟩
        (ascii ['B', 'Y', 'E']) = some p ∧
      serializePacket .little (Vector.replicate packetBufferSize 0) p = some b ∧
      deserializePacket .little
        ⟨0, strncpy bufferSize (ascii ['H', 'E', 'L', 'L', 'O']), 0⟩ b = some p' ∧
      stringAt p'.data 0 = some (ascii ['B', 'Y', 'E', 'L', 'O']) ∧
      stringAt p'.data 0 ≠ some (ascii ['B', 'Y', 'E']) := by
  obtain ⟨p, b, hset, hser⟩ := sent_isSome .little
    ⟨packetInfo, Vector.replicate bufferSize 0, 0⟩ (Vector.replicate packetBufferSize 0)
    (s := ascii ['B', 'Y', 'E']) (by decide)
  obtain ⟨p', hdes, _⟩ := deserializePacket_of_serializePacket hser
    ⟨0, strncpy bufferSize (ascii ['H', 'E', 'L', 'L', 'O']), 0⟩
  have hlist := (stringAt_deserializePacket (by decide) hset hser hdes).1
  have hstring : stringAt p'.data 0 = some (ascii ['B', 'Y', 'E', 'L', 'O']) := by
    refine stringAt_eq_some_iff.mpr ⟨by decide, List.replicate (bufferSize - 6) 0, ?_⟩
    rw [List.drop_zero, hlist, toList_strncpy (by decide)]
    rfl
  refine ⟨p, b, p', hset, hser, hdes, hstring, ?_⟩
  rw [hstring]
  decide

end OsaspLabs.Lab8
