import OsaspLabs.Lab8.Commands
import OsaspLabs.Lab8.Strings
import OsaspLabs.Library.Runs
import OsaspLabs.Library.Tally

/-! # The discovery of the LAB_8 server

Clients and servers are members of one multicast group. A client asks the group, a server
answers the group, and the client takes the address that the answer carries. Hosts are told
apart by their addresses. -/

namespace OsaspLabs.Lab8.Discovery

open Memory CString Runs

/-- `INET_ADDRSTRLEN` -/
def inetAddrStrLen : ℕ := 16

/-- The address of a host as `inet_ntop` writes it. -/
@[ext] structure Address where
  text : List UInt8
  noNul : 0 ∉ text
  short : text.length < inetAddrStrLen

structure Datagram where
  source : Address
  bytes : Wire

/-- What `recvfrom` leaves in a buffer of `BUFFER_SIZE` bytes: the end of the datagram is lost. -/
def Datagram.received (d : Datagram) : Vector UInt8 bufferSize := front d.bytes (by decide)

inductive ClientPc where
  | starting
  /-- In the loop around `recvfrom`. -/
  | listening
  /-- After `strcpy` and `break`. -/
  | found
  /-- After a `recvfrom` that returned nothing. -/
  | stopped
  deriving DecidableEq, Repr

structure Client where
  host : Address
  pc : ClientPc
  /-- `server_address_char` -/
  serverAddress : Vector UInt8 inetAddrStrLen

structure Server where
  host : Address
  running : Bool

/-- The members of the group and the datagrams that were sent to it. Each of these may reach
any member at any later time, or never. -/
structure State where
  clients : List Client
  servers : List Server
  sent : List Datagram

inductive Action where
  /-- `packet` and `memory` are what the packet and the buffer of `serialize_packet` held. -/
  | request (k : ℕ) (hostname : Vector UInt8 hostNameMax) (packet : Packet) (memory : Wire)
  /-- The member number `k` receives the datagram number `i`. -/
  | clientRecv (k i : ℕ) (fresh : Packet)
  | clientStop (k : ℕ)
  | serverRecv (k i : ℕ) (fresh packet : Packet) (memory : Wire)
  | serverStop (k : ℕ)

/-! ## The two programs -/

def discoveryRequest (order : ByteOrder) (source : Address) (hostname : Vector UInt8 hostNameMax)
    (packet : Packet) (memory : Wire) : Option Datagram := do
  let name ← stringAt hostname 0
  let request ← setPayloadString { packet with type := packetDiscoveryReq } name
  let bytes ← serializePacket order memory request
  some ⟨source, bytes⟩

/-- The payload is `src_ip_char`, the address that the request came from. -/
def discoveryResponse (order : ByteOrder) (source requester : Address) (packet : Packet)
    (memory : Wire) : Option Datagram := do
  let response ← setPayloadString { packet with type := packetDiscoveryResp } requester.text
  let bytes ← serializePacket order memory response
  some ⟨source, bytes⟩

def Server.recv (order : ByteOrder) (v : Server) (d : Datagram) (fresh packet : Packet)
    (memory : Wire) : Option (List Datagram) := do
  let received ← deserializePacket order fresh d.received
  if received.type = packetDiscoveryReq then do
    let response ← discoveryResponse order v.host d.source packet memory
    some [response]
  else some []

def Client.recv (order : ByteOrder) (c : Client) (d : Datagram) (fresh : Packet) :
    Option Client := do
  let received ← deserializePacket order fresh d.received
  if received.type = packetDiscoveryResp then do
    let address ← stringAt received.data 0
    let serverAddress ← strcpy c.serverAddress address
    some { c with serverAddress := serverAddress, pc := .found }
  else some c

def step (order : ByteOrder) (s : State) : Action → Option State
  | .request k hostname packet memory => do
      let c ← s.clients[k]?
      if c.pc = .starting then do
        let d ← discoveryRequest order c.host hostname packet memory
        some { s with
          clients := s.clients.set k { c with pc := .listening }, sent := s.sent ++ [d] }
      else none
  | .clientRecv k i fresh => do
      let c ← s.clients[k]?
      let d ← s.sent[i]?
      if c.pc = .listening then do
        let c ← c.recv order d fresh
        some { s with clients := s.clients.set k c }
      else none
  | .clientStop k => do
      let c ← s.clients[k]?
      if c.pc = .listening then
        some { s with clients := s.clients.set k { c with pc := .stopped } }
      else none
  | .serverRecv k i fresh packet memory => do
      let v ← s.servers[k]?
      let d ← s.sent[i]?
      if v.running then do
        let responses ← v.recv order d fresh packet memory
        some { s with sent := s.sent ++ responses }
      else none
  | .serverStop k => do
      let v ← s.servers[k]?
      some { s with servers := s.servers.set k { v with running := false } }

/-- Clients and servers on these hosts, before their first steps. -/
def init (clients : List (Address × Vector UInt8 inetAddrStrLen)) (servers : List Address) :
    State where
  clients := clients.map fun c => ⟨c.1, .starting, c.2⟩
  servers := servers.map fun host => ⟨host, true⟩
  sent := []

/-! ## What is to be shown -/

/-- The address that a client has copied is the one of a host that runs a server. -/
def FindsServer (s : State) : Prop :=
  ∀ c ∈ s.clients, c.pc = .found →
    ∃ v ∈ s.servers, stringAt c.serverAddress 0 = some v.host.text

/-- The type of the packet is `PACKET_DISCOVERY_RESP`. -/
def Datagram.IsResponse (order : ByteOrder) (d : Datagram) : Prop :=
  load d.bytes 0 1 = some (order.bytes 1 packetDiscoveryResp.toNat)

/-- Where a client receives a response, the memory of the packet has a NUL right behind the
payload. -/
def NulBehind (order : ByteOrder) (s : State) (a : Action) : Prop :=
  ∀ (k i : ℕ) (fresh : Packet) (d : Datagram), a = .clientRecv k i fresh →
    s.sent[i]? = some d → d.IsResponse order →
    fresh.data[encodedSize order d.bytes]? = some 0

/-- What a server receives comes from a host that runs a server. -/
def FromServers (s : State) (a : Action) : Prop :=
  ∀ (k i : ℕ) (fresh packet : Packet) (memory : Wire) (d : Datagram),
    a = .serverRecv k i fresh packet memory → s.sent[i]? = some d →
    ∃ v ∈ s.servers, v.host = d.source

def Fits (order : ByteOrder) (s : State) (a : Action) : Prop :=
  NulBehind order s a ∧ FromServers s a

/-! ## Datagrams -/

/-- What a datagram tells whoever receives it. -/
structure Datagram.Tells (order : ByteOrder) (d : Datagram) (type : UInt32) (s : List UInt8) :
    Prop where
  header : load d.bytes 0 1 = some (order.bytes 1 type.toNat)
  size : encodedSize order d.bytes = s.length
  decoded : ∀ fresh : Packet, ∃ p, deserializePacket order fresh d.received = some p ∧
    p.type = type ∧ p.data.toList = s ++ fresh.data.toList.drop s.length

theorem tells_of_serializePacket {order : ByteOrder} {packet p : Packet} {source : Address}
    {memory b : Wire} {type : UInt32} {s : List UInt8} (htype : type.toNat < 256)
    (hshort : s.length + 3 ≤ bufferSize)
    (hset : setPayloadString { packet with type := type } s = some p)
    (hser : serializePacket order memory p = some b) :
    Datagram.Tells order ⟨source, b⟩ type s := by
  obtain ⟨htp, hsize, hdata⟩ := setPayloadString_spec hset
  obtain ⟨b', payload, hser', hpayload, hb₀, hb₁, hb₃⟩ :=
    serializePacket_eq_some order memory p (by omega)
  obtain rfl := Option.some.inj (hser.symm.trans hser')
  rw [hsize, hdata] at hpayload
  obtain rfl := Option.some.inj hpayload
  rw [htp, UInt32.toNat_toUInt8, Nat.mod_eq_of_lt htype] at hb₀
  rw [hsize] at hb₁ hb₃
  have hmax : bufferSize = 4096 := rfl
  have hlen : order.value (order.bytes 2 s.length) = s.length := order.value_bytes (by omega)
  have hle : bufferSize ≤ packetBufferSize := by decide
  refine ⟨hb₀, (load_encodedSize hb₁).trans hlen, fun fresh => ?_⟩
  obtain ⟨q, hdes, htq, hsq, hdq⟩ := deserializePacket_eq_some order fresh (front b hle)
    ((load_front b hle (by omega)).trans hb₀) ((load_front b hle (by omega)).trans hb₁)
    ((load_front b hle (by omega)).trans (hlen.symm ▸ hb₃)) (by omega)
  obtain ⟨payload, hpayload, hlist⟩ := data_of_deserializePacket hdes
  rw [order.value_bytes (by omega)] at htq
  rw [hlen] at hsq hdq
  refine ⟨q, hdes, UInt32.toNat_inj.mp htq, ?_⟩
  rw [hsq] at hpayload hlist
  rw [load_front b hle (by omega), hb₃] at hpayload
  obtain rfl := Option.some.inj hpayload
  exact hlist

theorem discoveryRequest_isSome (order : ByteOrder) (source : Address)
    {hostname : Vector UInt8 hostNameMax} {name : List UInt8} (h : stringAt hostname 0 = some name)
    (packet : Packet) (memory : Wire) :
    ∃ d, discoveryRequest order source hostname packet memory = some d := by
  have hshort := length_lt_of_stringAt h
  have hmax : hostNameMax = 64 := rfl
  have hmax' : bufferSize = 4096 := rfl
  obtain ⟨p, b, hset, hser⟩ := sent_isSome order { packet with type := packetDiscoveryReq } memory
    (s := name) (by omega)
  exact ⟨⟨source, b⟩, by simp [discoveryRequest, h, hset, hser]⟩

theorem discoveryResponse_isSome (order : ByteOrder) (source requester : Address)
    (packet : Packet) (memory : Wire) :
    ∃ d, discoveryResponse order source requester packet memory = some d := by
  have hshort := requester.short
  have hmax : inetAddrStrLen = 16 := rfl
  have hmax' : bufferSize = 4096 := rfl
  obtain ⟨p, b, hset, hser⟩ := sent_isSome order { packet with type := packetDiscoveryResp }
    memory (s := requester.text) (by omega)
  exact ⟨⟨source, b⟩, by simp [discoveryResponse, hset, hser]⟩

theorem discoveryRequest_tells {order : ByteOrder} {source : Address}
    {hostname : Vector UInt8 hostNameMax} {packet : Packet} {memory : Wire} {d : Datagram}
    (h : discoveryRequest order source hostname packet memory = some d) :
    d.source = source ∧ ∃ name, d.Tells order packetDiscoveryReq name := by
  simp only [discoveryRequest, Option.bind_eq_bind, Option.bind_eq_some_iff] at h
  obtain ⟨name, hname, p, hset, b, hser, heq⟩ := h
  cases heq
  have hshort := length_lt_of_stringAt hname
  have hmax : hostNameMax = 64 := rfl
  have hmax' : bufferSize = 4096 := rfl
  exact ⟨rfl, name, tells_of_serializePacket (by decide) (by omega) hset hser⟩

theorem discoveryResponse_tells {order : ByteOrder} {source requester : Address} {packet : Packet}
    {memory : Wire} {d : Datagram}
    (h : discoveryResponse order source requester packet memory = some d) :
    d.source = source ∧ d.Tells order packetDiscoveryResp requester.text := by
  simp only [discoveryResponse, Option.bind_eq_bind, Option.bind_eq_some_iff] at h
  obtain ⟨p, hset, b, hser, heq⟩ := h
  cases heq
  have hshort := requester.short
  have hmax : inetAddrStrLen = 16 := rfl
  have hmax' : bufferSize = 4096 := rfl
  exact ⟨rfl, tells_of_serializePacket (by decide) (by omega) hset hser⟩

/-- A client copies the address of a response, if there is a NUL behind it. -/
theorem Client.recv_response {order : ByteOrder} (c : Client) {d : Datagram}
    {requester : Address} {fresh : Packet}
    (htells : d.Tells order packetDiscoveryResp requester.text)
    (hnul : fresh.data[requester.text.length]? = some 0) :
    ∃ c', c.recv order d fresh = some c' ∧ c'.host = c.host ∧ c'.pc = .found ∧
      stringAt c'.serverAddress 0 = some requester.text := by
  obtain ⟨p, hdes, htype, hlist⟩ := htells.decoded fresh
  have hstring : stringAt p.data 0 = some requester.text :=
    (stringAt_iff_nul requester.noNul hlist).mpr hnul
  obtain ⟨serverAddress, hcopy⟩ := store_isSome c.serverAddress (k := 0)
    (v := requester.text ++ [0]) (by
      rw [List.length_append, List.length_singleton]
      have hshort := requester.short
      omega)
  refine ⟨{ c with serverAddress := serverAddress, pc := .found }, ?_, rfl, rfl,
    stringAt_strcpy hcopy requester.noNul⟩
  simp only [Client.recv, hdes, htype, if_true, hstring, strcpy, hcopy, Option.bind_eq_bind,
    Option.bind_some]

/-- A server answers a request with the address that it came from, and nothing else. -/
theorem Server.recv_tells {order : ByteOrder} {v : Server} {d : Datagram} {type : UInt32}
    {s : List UInt8} {fresh packet : Packet} {memory : Wire} {responses : List Datagram}
    (htells : d.Tells order type s) (h : v.recv order d fresh packet memory = some responses) :
    ∀ r ∈ responses, type = packetDiscoveryReq ∧ r.source = v.host ∧
      r.Tells order packetDiscoveryResp d.source.text := by
  obtain ⟨p, hdes, htp, _⟩ := htells.decoded fresh
  simp only [Server.recv, hdes, htp, Option.bind_eq_bind, Option.bind_some] at h
  split at h
  · rename_i htype
    obtain ⟨r, hr, heq⟩ := Option.bind_eq_some_iff.mp h
    cases heq
    obtain ⟨hsource, hresponse⟩ := discoveryResponse_tells hr
    intro r' hr'
    obtain rfl := List.mem_singleton.mp hr'
    exact ⟨htype, hsource, hresponse⟩
  · cases h
    nofun

/-- Any other datagram leaves a client as it is. -/
theorem Client.recv_other {order : ByteOrder} {c c' : Client} {d : Datagram} {type : UInt32}
    {s : List UInt8} {fresh : Packet} (htells : d.Tells order type s)
    (htype : type ≠ packetDiscoveryResp) (h : c.recv order d fresh = some c') : c' = c := by
  obtain ⟨p, hdes, htp, _⟩ := htells.decoded fresh
  simp only [Client.recv, hdes, Option.bind_eq_bind, Option.bind_some] at h
  rw [if_neg (htp ▸ htype)] at h
  exact (Option.some.inj h).symm

/-! ## Runs

`Answered` are the hosts that a server answers. -/

/-- Every datagram is a request of a client or the answer of a server to one. -/
inductive Sent (order : ByteOrder) (clients servers : List Address) (Answered : Address → Prop)
    (d : Datagram) : Prop where
  | request (name : List UInt8) (source : d.source ∈ clients)
      (tells : d.Tells order packetDiscoveryReq name)
  | response (requester : Address) (source : d.source ∈ servers) (answered : Answered requester)
      (tells : d.Tells order packetDiscoveryResp requester.text)

structure Answers (order : ByteOrder) (clients servers : List Address) (Answered : Address → Prop)
    (s : State) : Prop where
  clientHosts : s.clients.map Client.host = clients
  serverHosts : s.servers.map Server.host = servers
  sent : ∀ d ∈ s.sent, Sent order clients servers Answered d
  found : ∀ c ∈ s.clients, c.pc = .found →
    servers ≠ [] ∧ ∃ a, Answered a ∧ stringAt c.serverAddress 0 = some a.text

theorem Answers.init (order : ByteOrder)
    (clients : List (Address × Vector UInt8 inetAddrStrLen)) (servers : List Address)
    (Answered : Address → Prop) :
    Answers order (clients.map Prod.fst) servers Answered (init clients servers) where
  clientHosts := by simp [Discovery.init, Function.comp_def]
  serverHosts := by simp [Discovery.init, Function.comp_def]
  sent := nofun
  found := by
    intro c hc hfound
    obtain ⟨_, _, rfl⟩ := List.mem_map.mp hc
    cases hfound

/-- A client goes on, on the same host, to an address that a response has carried. -/
theorem Answers.setClient {order : ByteOrder} {clients servers : List Address}
    {Answered : Address → Prop} {s : State} (h : Answers order clients servers Answered s) {k : ℕ}
    {c : Client} (hc : s.clients[k]? = some c) (c' : Client) (hhost : c'.host = c.host)
    (hfound : c'.pc = .found →
      servers ≠ [] ∧ ∃ a, Answered a ∧ stringAt c'.serverAddress 0 = some a.text) :
    Answers order clients servers Answered { s with clients := s.clients.set k c' } where
  clientHosts := (map_set_eq hc hhost).trans h.clientHosts
  serverHosts := h.serverHosts
  sent := h.sent
  found := forall_mem_set h.found hfound

theorem Answers.step {order : ByteOrder} {clients servers : List Address}
    {Answered : Address → Prop} {s s' : State} {a : Action}
    (h : Answers order clients servers Answered s) (hnul : NulBehind order s a)
    (hanswered : ∀ (k i : ℕ) (fresh packet : Packet) (memory : Wire) (d : Datagram),
      a = .serverRecv k i fresh packet memory → s.sent[i]? = some d → d.source ∈ clients →
      Answered d.source) (hstep : step order s a = some s') :
    Answers order clients servers Answered s' := by
  obtain ⟨hclients, hservers, hsent, hfound⟩ := h
  cases a with
  | request k hostname packet memory =>
      simp only [Discovery.step, Option.bind_eq_bind, Option.bind_eq_some_iff] at hstep
      obtain ⟨c, hc, hstep⟩ := hstep
      split at hstep
      · obtain ⟨d, hd, heq⟩ := Option.bind_eq_some_iff.mp hstep
        cases heq
        obtain ⟨hsource, name, htells⟩ := discoveryRequest_tells hd
        refine ⟨Eq.trans (map_set_eq hc (by rfl)) hclients, hservers, ?_,
          forall_mem_set hfound nofun⟩
        intro d' hd'
        rcases List.mem_append.mp hd' with hd' | hd'
        · exact hsent d' hd'
        · obtain rfl := List.mem_singleton.mp hd'
          refine .request name ?_ htells
          rw [hsource, ← hclients]
          exact List.mem_map_of_mem (List.mem_of_getElem? hc)
      · cases hstep
  | clientRecv k i fresh =>
      simp only [Discovery.step, Option.bind_eq_bind, Option.bind_eq_some_iff] at hstep
      obtain ⟨c, hc, d, hd, hstep⟩ := hstep
      split at hstep
      · obtain ⟨c', hc', heq⟩ := Option.bind_eq_some_iff.mp hstep
        cases heq
        rename_i hpc
        have hset := Answers.setClient ⟨hclients, hservers, hsent, hfound⟩ hc c'
        cases hsent d (List.mem_of_getElem? hd) with
        | request name source tells =>
            obtain rfl := Client.recv_other tells (by decide) hc'
            refine hset rfl fun hf => ?_
            rw [hpc] at hf
            cases hf
        | response requester source answered tells =>
            obtain ⟨c'', hrecv, hhost, _, hstring⟩ := Client.recv_response c tells
              (tells.size ▸ hnul k i fresh d rfl hd tells.header)
            obtain rfl := Option.some.inj (hc'.symm.trans hrecv)
            exact hset hhost fun _ =>
              ⟨List.ne_nil_of_mem source, requester, answered, hstring⟩
      · cases hstep
  | clientStop k =>
      simp only [Discovery.step, Option.bind_eq_bind, Option.bind_eq_some_iff] at hstep
      obtain ⟨c, hc, hstep⟩ := hstep
      split at hstep
      · cases hstep
        exact Answers.setClient ⟨hclients, hservers, hsent, hfound⟩ hc _ rfl nofun
      · cases hstep
  | serverRecv k i fresh packet memory =>
      simp only [Discovery.step, Option.bind_eq_bind, Option.bind_eq_some_iff] at hstep
      obtain ⟨v, hv, d, hd, hstep⟩ := hstep
      split at hstep
      · obtain ⟨responses, hresponses, heq⟩ := Option.bind_eq_some_iff.mp hstep
        cases heq
        refine ⟨hclients, hservers, fun d' hd' => ?_, hfound⟩
        rcases List.mem_append.mp hd' with hd' | hd'
        · exact hsent d' hd'
        · have hhost : v.host ∈ servers :=
            hservers ▸ List.mem_map_of_mem (List.mem_of_getElem? hv)
          cases hsent d (List.mem_of_getElem? hd) with
          | request name source tells =>
              obtain ⟨_, hsource, hresponse⟩ := Server.recv_tells tells hresponses d' hd'
              exact .response d.source (hsource ▸ hhost)
                (hanswered k i fresh packet memory d rfl hd source) hresponse
          | response requester source answered tells =>
              obtain ⟨htype, _⟩ := Server.recv_tells tells hresponses d' hd'
              exact absurd htype (by decide)
      · cases hstep
  | serverStop k =>
      simp only [Discovery.step, Option.bind_eq_bind, Option.bind_eq_some_iff] at hstep
      obtain ⟨v, hv, heq⟩ := hstep
      cases heq
      exact ⟨hclients, Eq.trans (map_set_eq hv (by rfl)) hservers, hsent, hfound⟩

theorem answers_of_reaches {order : ByteOrder} {allowed : State → Action → Prop}
    {clients : List (Address × Vector UInt8 inetAddrStrLen)} {servers : List Address}
    {Answered : Address → Prop} {s : State}
    (h : Reaches (step order) allowed (init clients servers) s)
    (hnul : ∀ u a, allowed u a → NulBehind order u a)
    (hanswered : ∀ (u : State) (k i : ℕ) (fresh packet : Packet) (memory : Wire) (d : Datagram),
      u.servers.map Server.host = servers → allowed u (.serverRecv k i fresh packet memory) →
      u.sent[i]? = some d → d.source ∈ clients.map Prod.fst → Answered d.source) :
    Answers order (clients.map Prod.fst) servers Answered s := by
  refine h.invariant (Answers.init order clients servers Answered) fun u a v hu ha hstep => ?_
  refine hu.step (hnul u a ha) (fun k i fresh packet memory d heq hd hsource => ?_) hstep
  exact hanswered u k i fresh packet memory d hu.serverHosts (heq ▸ ha) hd hsource

/-- The addresses that clients have copied are of hosts that run a server, if the answered ones
are. -/
theorem Answers.findsServer {order : ByteOrder} {clients servers : List Address}
    {Answered : Address → Prop} {s : State} (h : Answers order clients servers Answered s)
    (hrun : servers ≠ [] → ∀ a, Answered a → a ∈ servers) : FindsServer s := by
  intro c hc hpc
  obtain ⟨hsome, a, ha, hstring⟩ := h.found c hc hpc
  have hmem := hrun hsome a ha
  rw [← h.serverHosts] at hmem
  obtain ⟨v, hv, rfl⟩ := List.mem_map.mp hmem
  exact ⟨v, hv, hstring⟩

/-- Memory that holds zeros. -/
def clearPacket : Packet := ⟨0, Vector.replicate bufferSize 0, 0⟩

def clearMemory : Wire := Vector.replicate packetBufferSize 0

/-- A client asks, a server answers, and the client copies its own address. -/
theorem exchange (order : ByteOrder) (host server : Address)
    (buffer : Vector UInt8 inetAddrStrLen) :
    ∃ d r c,
      discoveryRequest order host (Vector.replicate hostNameMax 0) clearPacket clearMemory =
        some d ∧
      Server.recv order ⟨server, true⟩ d clearPacket clearPacket clearMemory = some [r] ∧
      clearPacket.data[encodedSize order r.bytes]? = some 0 ∧
      Client.recv order ⟨host, .listening, buffer⟩ r clearPacket = some c ∧
      c.pc = .found ∧ stringAt c.serverAddress 0 = some host.text := by
  have hname : stringAt (Vector.replicate hostNameMax (0 : UInt8)) 0 = some [] := by decide
  obtain ⟨d, hd⟩ := discoveryRequest_isSome order host hname clearPacket clearMemory
  obtain ⟨r, hr⟩ := discoveryResponse_isSome order server host clearPacket clearMemory
  obtain ⟨hsource, name, hrequest⟩ := discoveryRequest_tells hd
  obtain ⟨_, hresponse⟩ := discoveryResponse_tells hr
  obtain ⟨p, hdes, htype, _⟩ := hrequest.decoded clearPacket
  have hnul : clearPacket.data[host.text.length]? = some 0 := by
    have hshort := host.short
    have hmax : inetAddrStrLen = 16 := rfl
    have hmax' : bufferSize = 4096 := rfl
    simp only [clearPacket, Vector.getElem?_replicate]
    rw [if_pos (by omega)]
  obtain ⟨c, hrecv, _, hpc, hstring⟩ :=
    Client.recv_response ⟨host, .listening, buffer⟩ hresponse hnul
  refine ⟨d, r, c, hd, ?_, hresponse.size ▸ hnul, hrecv, hpc, hstring⟩
  simp [Server.recv, hdes, htype, hsource, hr]

/-- With any server in the group a client can be told its own address. -/
theorem own_address_copied (order : ByteOrder)
    {clients : List (Address × Vector UInt8 inetAddrStrLen)} {servers : List Address}
    {c : Address × Vector UInt8 inetAddrStrLen} (hc : c ∈ clients) (hsome : servers ≠ []) :
    ∃ s, Reaches (step order) (NulBehind order) (init clients servers) s ∧
      s.servers.map Server.host = servers ∧
      ∃ found ∈ s.clients, found.pc = .found ∧
        stringAt found.serverAddress 0 = some c.1.text := by
  obtain ⟨host, buffer⟩ := c
  obtain ⟨k, hk⟩ := List.mem_iff_getElem?.mp hc
  obtain ⟨server, rest, rfl⟩ := List.exists_cons_of_ne_nil hsome
  obtain ⟨d, r, c, hrequest, hanswer, hnul, hrecv, hpc, hstring⟩ :=
    exchange order host server buffer
  let start := init clients (server :: rest)
  have hstart : start.clients[k]? = some ⟨host, .starting, buffer⟩ := by
    simp [start, init, hk]
  have hlt : k < start.clients.length := (List.getElem?_eq_some_iff.mp hstart).1
  let asked : State :=
    { start with clients := start.clients.set k ⟨host, .listening, buffer⟩, sent := [d] }
  have hask : step order start
      (.request k (Vector.replicate hostNameMax 0) clearPacket clearMemory) = some asked := by
    have hempty : start.sent = [] := rfl
    simp [step, hstart, hrequest, hempty, asked]
  have hanswered : step order asked (.serverRecv 0 0 clearPacket clearPacket clearMemory) =
      some { asked with sent := [d, r] } := by
    simp [step, asked, start, init, hanswer]
  have hcopied : step order { asked with sent := [d, r] } (.clientRecv k 1 clearPacket) =
      some { asked with sent := [d, r], clients := asked.clients.set k c } := by
    simp [step, asked, hlt, hrecv]
  have hquiet : ∀ u a, (∀ k i fresh, a ≠ .clientRecv k i fresh) → NulBehind order u a :=
    fun _ _ hne k i fresh _ heq => absurd heq (hne k i fresh)
  refine ⟨{ asked with sent := [d, r], clients := asked.clients.set k c }, ?_, ?_, c, ?_, hpc,
    hstring⟩
  · refine .tail (.tail (.tail .refl ⟨_, hquiet _ _ ?_, hask⟩) ⟨_, hquiet _ _ ?_, hanswered⟩)
      ⟨_, ?_, hcopied⟩
    · intros
      simp
    · intros
      simp
    · intro k' i' fresh d' heq hd' _
      cases heq
      obtain rfl : r = d' := by simpa using hd'
      exact hnul
  · simp [asked, start, init, Function.comp_def]
  · exact List.mem_of_getElem? (List.getElem?_set_self (by simpa [asked] using hlt))

/-- If all that servers answer comes from hosts that run a server, and each address that a client
copies has a NUL behind it, then the address is one of a server. Over all runs with such a NUL
this is so if and only if there is no server, or every host with a client runs a server too. -/
theorem finds_server_iff (order : ByteOrder)
    (clients : List (Address × Vector UInt8 inetAddrStrLen)) (servers : List Address) :
    (∀ s, Reaches (step order) (Fits order) (init clients servers) s → FindsServer s) ∧
    ((∀ s, Reaches (step order) (NulBehind order) (init clients servers) s → FindsServer s) ↔
      servers = [] ∨ ∀ c ∈ clients, c.1 ∈ servers) := by
  constructor
  · intro s h
    have hanswers : Answers order (clients.map Prod.fst) servers (· ∈ servers) s := by
      refine answers_of_reaches h (fun _ _ ha => ha.1) ?_
      intro u k i fresh packet memory d hservers ha hd _
      obtain ⟨v, hv, hhost⟩ := ha.2 k i fresh packet memory d rfl hd
      exact hhost ▸ hservers ▸ List.mem_map_of_mem hv
    exact hanswers.findsServer fun _ _ ha => ha
  · constructor
    · intro h
      by_contra hnot
      simp only [not_or, not_forall] at hnot
      obtain ⟨hsome, c, hc, hout⟩ := hnot
      obtain ⟨s, hs, hservers, found, hfound, hpc, hstring⟩ := own_address_copied order hc hsome
      obtain ⟨v, hv, hv'⟩ := h s hs found hfound hpc
      have hsame : v.host = c.1 :=
        Address.ext (Option.some.inj (hv'.symm.trans hstring))
      exact hout (hsame ▸ hservers ▸ List.mem_map_of_mem hv)
    · intro h s hs
      have hanswers :
          Answers order (clients.map Prod.fst) servers (· ∈ clients.map Prod.fst) s :=
        answers_of_reaches hs (fun _ _ ha => ha) fun _ _ _ _ _ _ _ _ _ _ hsource => hsource
      refine hanswers.findsServer fun hsome a ha => ?_
      obtain ⟨c, hc, rfl⟩ := List.mem_map.mp ha
      exact (h.resolve_left hsome) c hc

def clientHost : Address :=
  ⟨ascii ['1', '0', '.', '0', '.', '0', '.', '2'], by decide, by decide⟩

def serverHost : Address :=
  ⟨ascii ['1', '0', '.', '0', '.', '0', '.', '9'], by decide, by decide⟩

/-- A client on another host than the server copies its own address. -/
theorem client_copies_itself :
    ∃ s, Reaches (step .little) (NulBehind .little)
        (init [(clientHost, Vector.replicate inetAddrStrLen 0)] [serverHost]) s ∧
      ¬ FindsServer s := by
  obtain ⟨s, hs, hservers, c, hc, hpc, hstring⟩ := own_address_copied .little
    (List.mem_singleton_self (clientHost, Vector.replicate inetAddrStrLen 0))
    (List.cons_ne_nil serverHost [])
  refine ⟨s, hs, fun hfinds => ?_⟩
  obtain ⟨v, hv, hv'⟩ := hfinds c hc hpc
  have hhost : v.host = serverHost :=
    List.mem_singleton.mp (hservers ▸ List.mem_map_of_mem hv)
  rw [hstring, hhost] at hv'
  exact absurd hv' (by decide)

end OsaspLabs.Lab8.Discovery
