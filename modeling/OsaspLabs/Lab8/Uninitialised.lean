import Mathlib.Data.List.Forall2
import OsaspLabs.Lab8.Commands
import OsaspLabs.Lab8.Strings

/-! # Uninitialised memory in the LAB_8 server

Two runs of one connection get the same requests and the same answers from the system. Their
stacks may hold anything. -/

namespace OsaspLabs.Lab8

open Memory CString

/-- What one `recv` of the server returns. -/
structure Request where
  text : List UInt8
  nonempty : text ≠ []
  short : text.length < bufferSize
  noNul : 0 ∉ text

/-- The type, the size and the payload in the bytes that are sent. -/
def packetBytes (order : ByteOrder) (sent : Wire) : List UInt8 :=
  sent.toList.take (3 + encodedSize order sent)

/-- What the client gets for a request. -/
structure Answer where
  command : Option Cmd
  packet : Option (List UInt8)

/-- The part of a result that a client can observe. -/
def observe (order : ByteOrder) (result : Option (Args × Option Wire)) :
    Option (ℕ × Vector UInt8 pathMax × Option (List UInt8)) :=
  result.map fun x => (x.1.readBytes, x.1.currentPath, x.2.map (packetBytes order))

/-- One round of the loop of `handle_server_msg`. -/
def serveRequest (order : ByteOrder) (host : Host) (args : Args) (r : Request) :
    Option (Args × Answer) := do
  let buffer ← store args.buffer 0 r.text
  let args := { args with buffer := buffer, readBytes := r.text.length }
  let request ← stringAt args.buffer 0
  let (args, sent) ← handleRequest order host args
  some (args, ⟨parseRequest request, sent.map (packetBytes order)⟩)

def serveRequests (order : ByteOrder) (args : Args) :
    List (Request × Host) → Option (List Answer)
  | [] => some []
  | (r, host) :: rest => do
      let (args, answer) ← serveRequest order host args r
      let answers ← serveRequests order args rest
      some (answer :: answers)

/-! ## Two runs -/

/-- The system answers alike; what the packet, the text and the line hold may differ. -/
structure SameSystem (host host' : Host) : Prop where
  realpath : host'.realpath = host.realpath
  opendir : host'.opendir = host.opendir
  lstat : host'.lstat = host.lstat
  readlink : host'.readlink = host.readlink
  hostname : host'.hostname = host.hostname
  pathName : host'.pathName = host.pathName
  memory : host'.memory = host.memory

def SameRequests (requests requests' : List (Request × Host)) : Prop :=
  List.Forall₂ (fun x x' => x'.1 = x.1 ∧ SameSystem x.2 x'.2) requests requests'

/-- A request that is received over the buffer has a NUL behind it. The handlers of ECHO and CD skip
the byte behind the name, so behind the bare name they need a second one. -/
def Terminated (buffer : Vector UInt8 bufferSize) (r : Request) : Prop :=
  buffer[r.text.length]? = some 0 ∧
    (r.text = ascii ['E', 'C', 'H', 'O'] ∨ r.text = ascii ['C', 'D'] →
      buffer[r.text.length + 1]? = some 0)

/-- The receive buffer suits the first request. -/
def FirstTerminated (args : Args) (requests : List (Request × Host)) : Prop :=
  ∀ x ∈ requests.head?, Terminated args.buffer x.1

/-- No request asks for HELP, and none lists a directory. -/
def Settled (order : ByteOrder) (args : Args) : List (Request × Host) → Prop
  | [] => True
  | (r, host) :: rest =>
      (parseRequest r.text ≠ some .help ∧
        (parseRequest r.text = some .list → ¬ Opens host args .list)) ∧
      ∀ args' answer, serveRequest order host args r = some (args', answer) →
        Settled order args' rest

theorem SameSystem.refl (host : Host) : SameSystem host host :=
  ⟨rfl, rfl, rfl, rfl, rfl, rfl, rfl⟩

theorem SameRequests.refl (requests : List (Request × Host)) : SameRequests requests requests :=
  List.forall₂_same.mpr fun x _ => ⟨rfl, SameSystem.refl x.2⟩

/-! ## What is observed -/

theorem observe_bind {α : Type*} (order : ByteOrder) (x : Option α)
    (f : α → Option (Args × Option Wire)) :
    observe order (x.bind f) = x.bind fun a => observe order (f a) := by
  cases x <;> rfl

/-- The bytes that are sent for a packet. -/
theorem packetBytes_of_serializePacket {order : ByteOrder} {memory b : Wire} {p : Packet}
    (h : serializePacket order memory p = some b) :
    ∃ payload, load p.data 0 p.size.toNat = some payload ∧
      packetBytes order b =
        order.bytes 1 p.type.toUInt8.toNat ++ order.bytes 2 p.size.toNat ++ payload := by
  obtain ⟨b', payload, hb', hpayload, htype, hsize, hdata⟩ :=
    serializePacket_eq_some order memory p (size_le_of_serializePacket h)
  obtain rfl := Option.some.inj (h.symm.trans hb')
  refine ⟨payload, hpayload, ?_⟩
  have henc : encodedSize order b = p.size.toNat := by
    rw [load_encodedSize hsize, order.value_bytes p.size.toNat_lt]
  have hbtype := (load_eq_some_iff.mp htype).1
  have hbsize := (load_eq_some_iff.mp hsize).1
  have hbdata := (load_eq_some_iff.mp hdata).1
  rw [load, if_pos hbtype, Option.some.injEq, List.drop_zero] at htype
  rw [load, if_pos hbsize, Option.some.injEq] at hsize
  rw [load, if_pos hbdata, Option.some.injEq] at hdata
  rw [packetBytes, henc, ← htype, ← hsize, ← hdata, List.append_assoc,
    show 3 + p.size.toNat = 1 + (2 + p.size.toNat) by omega, List.take_add, List.take_add,
    List.drop_drop]

/-- What is observed of a response with a string, if the string fits. -/
def textAnswer (order : ByteOrder) (args : Args) (type : UInt32) (s : List UInt8) :
    Option (ℕ × Vector UInt8 pathMax × Option (List UInt8)) :=
  if s.length < bufferSize then
    some (args.readBytes, args.currentPath,
      some (order.bytes 1 type.toUInt8.toNat ++ order.bytes 2 s.length ++ s))
  else none

theorem observe_text (order : ByteOrder) (host : Host) (args : Args) (p : Packet)
    (s : List UInt8) :
    observe order ((setPayloadString p s).bind (sendResponse order host args)) =
      textAnswer order args p.type s := by
  unfold textAnswer
  split
  · rename_i hlt
    obtain ⟨q, b, hset, hser⟩ := sent_isSome order p host.memory hlt
    obtain ⟨htype, hsize, hdata⟩ := setPayloadString_spec hset
    obtain ⟨payload, hpayload, hbytes⟩ := packetBytes_of_serializePacket hser
    rw [hsize, hdata, Option.some.injEq] at hpayload
    rw [hset, Option.bind_some, sendResponse, hser]
    simp only [observe, Option.bind_eq_bind, Option.bind_some, Option.map_some, hbytes, htype,
      hsize, ← hpayload]
  · rename_i hge
    have hnone : setPayloadString p s = none := by
      rw [setPayloadString, strcpy, store, if_neg (by simp; omega)]
      rfl
    rw [hnone]
    rfl

theorem observe_cmdEcho (order : ByteOrder) (host : Host) (args : Args) :
    observe order (cmdEcho order host args) =
      (stringAt args.buffer 5).bind (textAnswer order args packetInfo) := by
  refine (observe_bind order (stringAt args.buffer 5) _).trans ?_
  congr 1
  funext r
  exact observe_text order host args { host.response with type := packetInfo } r

theorem observe_cmdQuit (order : ByteOrder) (host : Host) (args : Args) :
    observe order (cmdQuit order host args) = textAnswer order args packetInfo bye :=
  observe_text order host args { host.response with type := packetInfo } bye

theorem observe_cmdAck (order : ByteOrder) (host : Host) (args : Args) :
    observe order (cmdAck order host args) =
      textAnswer order args packetAck (ascii ['R', 'e', 'c', 'i', 'e', 'v', 'e', 'd']) :=
  observe_text order host args { host.response with type := packetAck }
    (ascii ['R', 'e', 'c', 'i', 'e', 'v', 'e', 'd'])

/-- The text of INFO overwrites what its array held. -/
theorem observe_cmdInfo (order : ByteOrder) (host : Host) (args : Args) :
    observe order (cmdInfo order host args) =
      (stringAt host.hostname 0).bind fun hostname =>
        textAnswer order args packetInfo
          (ascii ['H', 'e', 'l', 'l', 'o', ' ', 'f', 'r', 'o', 'm', ' '] ++ hostname ++
            ascii [' ', 's', 'e', 'r', 'v', 'e', 'r', '!']) := by
  refine (observe_bind order (stringAt host.hostname 0) _).trans ?_
  cases hname : stringAt host.hostname 0 with
  | none => rfl
  | some hostname =>
      have hnul := nul_notMem_of_stringAt hname
      have hlen := length_lt_of_stringAt hname
      have hmax : hostNameMax = 64 := rfl
      have hbuf : bufferSize = 4096 := rfl
      obtain ⟨payload, hcpy⟩ := store_isSome host.text (k := 0)
        (v := ascii ['H', 'e', 'l', 'l', 'o', ' ', 'f', 'r', 'o', 'm', ' '] ++ hostname ++
          ascii [' ', 's', 'e', 'r', 'v', 'e', 'r', '!'] ++ [0]) (by simp [ascii]; omega)
      have htext := stringAt_store hcpy (by simp [ascii, hnul])
      simp only [Option.bind_some, strcpy, hcpy, Option.bind_eq_bind, htext]
      exact observe_text order host args { host.response with type := packetInfo } _

theorem observe_cmdCd (order : ByteOrder) (host : Host) (args : Args) :
    observe order (cmdCd order host args) =
      (processPath host args.currentPath args.buffer).bind fun currentPath =>
        (stringAt currentPath 0).bind fun path =>
          match host.opendir path with
          | none => some (args.readBytes, currentPath, none)
          | some _ =>
              textAnswer order { args with currentPath := currentPath } packetDirectory path := by
  refine (observe_bind order (processPath host args.currentPath args.buffer) _).trans ?_
  congr 1
  funext currentPath
  refine (observe_bind order (stringAt currentPath 0) _).trans ?_
  congr 1
  funext path
  cases host.opendir path with
  | none => rfl
  | some names =>
      exact observe_text order host { args with currentPath := currentPath }
        { host.response with type := packetDirectory } path

theorem observe_cmdList {host : Host} {args : Args} (order : ByteOrder)
    (h : ¬ Opens host args .list) :
    observe order (cmdList order host args) =
      (stringAt args.currentPath 0).bind fun _ =>
        some (args.readBytes, args.currentPath, none) := by
  refine (observe_bind order (stringAt args.currentPath 0) _).trans ?_
  cases hpath : stringAt args.currentPath 0 with
  | none => rfl
  | some path =>
      have hclosed : host.opendir path = none := by
        by_contra hopen
        exact h ⟨path, hpath, hopen⟩
      simp only [Option.bind_some, hclosed]
      rfl

/-! ## One request -/

/-- What stands in the buffer from a byte of the request, or the NUL behind it, on. -/
theorem stringAt_of_terminated {buffer buffer' : Vector UInt8 bufferSize} {r : Request}
    (h : store buffer 0 r.text = some buffer') (hterm : Terminated buffer r) {k : ℕ}
    (hk : k ≤ r.text.length) : stringAt buffer' k = some (r.text.drop k) := by
  have hlist := drop_store h
  rw [List.drop_zero, Nat.zero_add] at hlist
  rw [stringAt_eq_some_iff, hlist]
  refine ⟨fun hmem => r.noNul (List.mem_of_mem_drop hmem),
    buffer.toList.drop (r.text.length + 1), ?_⟩
  rw [List.drop_append_of_le_length hk, drop_of_getElem? hterm.1]

/-- Behind the NUL of a bare ECHO or CD there is nothing. -/
theorem stringAt_behind {buffer buffer' : Vector UInt8 bufferSize} {r : Request}
    (h : store buffer 0 r.text = some buffer') (hterm : Terminated buffer r)
    (hbare : r.text = ascii ['E', 'C', 'H', 'O'] ∨ r.text = ascii ['C', 'D']) :
    stringAt buffer' (r.text.length + 1) = some [] := by
  have hlist := drop_store h
  rw [List.drop_zero, Nat.zero_add] at hlist
  rw [stringAt_eq_some_iff, hlist]
  refine ⟨List.not_mem_nil, buffer.toList.drop (r.text.length + 1 + 1), ?_⟩
  rw [List.drop_length_add_append, List.drop_drop, drop_of_getElem? (hterm.2 hbare),
    List.nil_append]

/-- A command is selected by its name. -/
theorem name_of_parseRequest {buffer : List UInt8} {c : Cmd} (h : parseRequest buffer = some c) :
    ∃ name, (c, name) ∈ cmds ∧ name <:+: buffer := by
  obtain ⟨⟨c', name⟩, hfind, rfl⟩ := Option.map_eq_some_iff.mp h
  exact ⟨name, List.mem_of_find?_eq_some hfind, by simpa [strstr] using List.find?_some hfind⟩

/-- A request for a command is the bare name, or longer. -/
theorem bare_or_longer {buffer name : List UInt8} {c : Cmd} (h : parseRequest buffer = some c)
    (hname : ∀ name', (c, name') ∈ cmds → name' = name) :
    buffer = name ∨ name.length + 1 ≤ buffer.length := by
  obtain ⟨name', hmem, hpart⟩ := name_of_parseRequest h
  obtain rfl := hname name' hmem
  rcases hpart.length_le.eq_or_lt with heq | hlt
  · exact .inl (hpart.eq_of_length heq).symm
  · exact .inr hlt

/-- What ECHO and CD take for their operand stands in the request. -/
theorem operand_of_terminated {buffer buffer' : Vector UInt8 bufferSize} {r : Request}
    (h : store buffer 0 r.text = some buffer') (hterm : Terminated buffer r) :
    (parseRequest r.text = some .echo → stringAt buffer' 5 = some (r.text.drop 5)) ∧
      (parseRequest r.text = some .cd → stringAt buffer' 3 = some (r.text.drop 3)) := by
  constructor
  · intro hecho
    have hname : ∀ name, (Cmd.echo, name) ∈ cmds → name = ascii ['E', 'C', 'H', 'O'] := by
      simp [cmds]
    rcases bare_or_longer hecho hname with hbare | hlonger
    · have hnothing := stringAt_behind h hterm (.inl hbare)
      rw [hbare] at hnothing ⊢
      exact hnothing
    · exact stringAt_of_terminated h hterm hlonger
  · intro hcd
    have hname : ∀ name, (Cmd.cd, name) ∈ cmds → name = ascii ['C', 'D'] := by simp [cmds]
    rcases bare_or_longer hcd hname with hbare | hlonger
    · have hnothing := stringAt_behind h hterm (.inr hbare)
      rw [hbare] at hnothing ⊢
      exact hnothing
    · exact stringAt_of_terminated h hterm hlonger

/-- A request other than HELP and a listing is answered alike. -/
theorem observe_invoke_eq {order : ByteOrder} {host host' : Host} {args args' : Args}
    {text : List UInt8} (hsys : SameSystem host host') (hread : args'.readBytes = args.readBytes)
    (hpath : args'.currentPath = args.currentPath)
    (hecho : parseRequest text = some .echo → stringAt args'.buffer 5 = stringAt args.buffer 5)
    (hcd : parseRequest text = some .cd → stringAt args'.buffer 3 = stringAt args.buffer 3)
    (hhelp : parseRequest text ≠ some .help)
    (hlist : parseRequest text = some .list → ¬ Opens host args .list) :
    observe order (invoke order host' (parseRequest text) args') =
      observe order (invoke order host (parseRequest text) args) := by
  have htext : textAnswer order args' = textAnswer order args := by
    funext type s
    simp only [textAnswer, hread, hpath]
  cases hparse : parseRequest text with
  | none =>
      simp only [invoke, cmds, List.find?_cons, List.find?_nil, reduceCtorEq, decide_false, observe,
        Option.map_some, hread, hpath]
  | some c =>
      rw [invoke_some, invoke_some]
      cases c with
      | echo => simp only [Cmd.handler, observe_cmdEcho, htext, hecho hparse]
      | quit => simp only [Cmd.handler, observe_cmdQuit, htext]
      | info => simp only [Cmd.handler, observe_cmdInfo, htext, hsys.hostname]
      | cd =>
          simp only [Cmd.handler, observe_cmdCd, processPath, textAnswer, hread, hpath,
            hsys.realpath, hsys.opendir, hcd hparse]
      | list =>
          have hclosed := hlist hparse
          have hclosed' : ¬ Opens host' args' .list := by
            simpa only [Opens, hpath, hsys.opendir] using hclosed
          simp only [Cmd.handler, observe_cmdList order hclosed, observe_cmdList order hclosed',
            hread, hpath]
      | ack => simp only [Cmd.handler, observe_cmdAck, htext]
      | help => exact absurd hparse hhelp

/-- Nothing else of a round remains. -/
theorem serveRequest_eq_observe {order : ByteOrder} {host : Host} {args : Args} {r : Request}
    {buffer : Vector UInt8 bufferSize} {text : List UInt8}
    (h : store args.buffer 0 r.text = some buffer) (hstring : stringAt buffer 0 = some text) :
    serveRequest order host args r =
      (observe order (invoke order host (parseRequest text)
        { args with buffer := buffer, readBytes := r.text.length })).map fun x =>
          (⟨Vector.replicate bufferSize 0, x.1, x.2.1⟩, ⟨parseRequest text, x.2.2⟩) := by
  simp only [serveRequest, handleRequest, h, hstring, Option.bind_eq_bind, Option.bind_some,
    observe, Option.map_map]
  cases invoke order host (parseRequest text)
    { args with buffer := buffer, readBytes := r.text.length } <;> rfl

theorem store_request (buffer : Vector UInt8 bufferSize) (r : Request) :
    ∃ buffer', store buffer 0 r.text = some buffer' :=
  store_isSome buffer (by have hshort := r.short; omega)

theorem serveRequest_eq {order : ByteOrder} {host host' : Host} {args args' : Args} {r : Request}
    (hsys : SameSystem host host') (hpath : args'.currentPath = args.currentPath)
    (hterm : Terminated args.buffer r) (hterm' : Terminated args'.buffer r)
    (hhelp : parseRequest r.text ≠ some .help)
    (hlist : parseRequest r.text = some .list → ¬ Opens host args .list) :
    serveRequest order host' args' r = serveRequest order host args r := by
  obtain ⟨buffer, hstore⟩ := store_request args.buffer r
  obtain ⟨buffer', hstore'⟩ := store_request args'.buffer r
  obtain ⟨hecho, hcd⟩ := operand_of_terminated hstore hterm
  obtain ⟨hecho', hcd'⟩ := operand_of_terminated hstore' hterm'
  rw [serveRequest_eq_observe hstore (stringAt_of_terminated hstore hterm (Nat.zero_le _)),
    serveRequest_eq_observe hstore' (stringAt_of_terminated hstore' hterm' (Nat.zero_le _))]
  congr 1
  refine observe_invoke_eq hsys rfl hpath (fun hparse => ?_) (fun hparse => ?_) hhelp hlist
  · rw [hecho hparse, hecho' hparse]
  · rw [hcd hparse, hcd' hparse]

/-! ## What HELP and a listing give away -/

/-- The text that HELP appends. -/
def helpText : List UInt8 :=
  ascii ['A', 'v', 'a', 'l', 'i', 'a', 'b', 'l', 'e', ' ',
    'c', 'o', 'm', 'm', 'a', 'n', 'd', 's', ':', ' '] ++ [10] ++
    (cmds.map Prod.snd).flatMap (· ++ [10])

/-- HELP sends the length of what its array held. -/
theorem observe_cmdHelp {order : ByteOrder} {host : Host} {args : Args}
    {x : ℕ × Vector UInt8 pathMax × Option (List UInt8)}
    (h : observe order (cmdHelp order host args) = some x) :
    ∃ old payload, stringAt host.text 0 = some old ∧ (old ++ helpText).length < bufferSize ∧
      x.2.2 = some (order.bytes 1 packetInfo.toUInt8.toNat ++
        order.bytes 2 (old ++ helpText).length ++ payload) := by
  obtain ⟨⟨args', sent⟩, hresult, rfl⟩ := Option.map_eq_some_iff.mp h
  simp only [cmdHelp, Option.bind_eq_bind, Option.bind_eq_some_iff] at hresult
  obtain ⟨buffer, hcat, buffer', hlines, text, htext, response, hset, hsend⟩ := hresult
  obtain ⟨old, hold, hs⟩ := stringAt_strcat hcat (by decide)
  obtain rfl := Option.some.inj (htext.symm.trans (stringAt_helpLines (by decide) hs hlines))
  have hlen := length_lt_of_stringAt htext
  obtain ⟨htype, hsize, _⟩ := setPayloadString_spec hset
  obtain ⟨_, b, rfl, hser⟩ := sendResponse_eq_some hsend
  obtain ⟨payload, _, hbytes⟩ := packetBytes_of_serializePacket hser
  rw [Nat.zero_add, List.append_assoc] at hlen
  rw [List.append_assoc] at hsize
  refine ⟨old, payload, hold, hlen, ?_⟩
  simp only [Option.map_some, hbytes, htype, hsize]
  rfl

/-- A listing sends the type that its packet held. -/
theorem observe_cmdList_opens {order : ByteOrder} {host : Host} {args : Args}
    {x : ℕ × Vector UInt8 pathMax × Option (List UInt8)} (hopens : Opens host args .list)
    (h : observe order (cmdList order host args) = some x) :
    ∃ rest, x.2.2 = some (order.bytes 1 host.response.type.toUInt8.toNat ++ rest) := by
  obtain ⟨⟨args', sent⟩, hresult, rfl⟩ := Option.map_eq_some_iff.mp h
  have hsends := cmdList_sends hresult
  cases hsends with
  | none hclosed => exact absurd hopens hclosed
  | list p b _ _ htype hser =>
      obtain ⟨payload, _, hbytes⟩ := packetBytes_of_serializePacket hser
      refine ⟨order.bytes 2 p.size.toNat ++ payload, ?_⟩
      simp only [Option.map_some, hbytes, htype, List.append_assoc]
  | text p b s hnot => exact absurd rfl hnot

/-- Where HELP sends the same, what its array held was of the same length. -/
theorem help_length_eq {order : ByteOrder} {host host' : Host} {args : Args}
    {x x' : ℕ × Vector UInt8 pathMax × Option (List UInt8)} {old old' : List UInt8}
    (h : observe order (cmdHelp order host args) = some x)
    (h' : observe order (cmdHelp order host' args) = some x') (hsame : x'.2.2 = x.2.2)
    (hold : stringAt host.text 0 = some old) (hold' : stringAt host'.text 0 = some old') :
    old'.length = old.length := by
  have hmax : bufferSize = 4096 := rfl
  obtain ⟨s, payload, hs, hlen, hsent⟩ := observe_cmdHelp h
  obtain ⟨s', payload', hs', hlen', hsent'⟩ := observe_cmdHelp h'
  obtain rfl := Option.some.inj (hold.symm.trans hs)
  obtain rfl := Option.some.inj (hold'.symm.trans hs')
  rw [hsent, hsent', Option.some.injEq, List.append_assoc, List.append_assoc,
    List.append_cancel_left_eq] at hsame
  have hvalue := congrArg order.value (List.append_inj hsame (by simp)).1
  rw [order.value_bytes (by omega), order.value_bytes (by omega), List.length_append,
    List.length_append] at hvalue
  omega

/-- Where a listing sends the same, its packet held the same type, as far as it is sent. -/
theorem list_type_eq {order : ByteOrder} {host host' : Host} {args : Args}
    {x x' : ℕ × Vector UInt8 pathMax × Option (List UInt8)} (hopens : Opens host args .list)
    (hopens' : Opens host' args .list) (h : observe order (cmdList order host args) = some x)
    (h' : observe order (cmdList order host' args) = some x') (hsame : x'.2.2 = x.2.2) :
    host'.response.type.toUInt8 = host.response.type.toUInt8 := by
  obtain ⟨rest, hsent⟩ := observe_cmdList_opens hopens h
  obtain ⟨rest', hsent'⟩ := observe_cmdList_opens hopens' h'
  rw [hsent, hsent', Option.some.injEq] at hsame
  have hvalue := congrArg order.value (List.append_inj hsame (by simp)).1
  rw [order.value_bytes (UInt8.toNat_lt _), order.value_bytes (UInt8.toNat_lt _)] at hvalue
  exact UInt8.toNat_inj.mp hvalue

/-- The request that is answered alike whatever memory held is not HELP and not a listing. -/
theorem quiet_of_same_answer {order : ByteOrder} {host : Host} {args : Args} {r : Request}
    {a : Answer} (hterm : Terminated args.buffer r)
    (hsame : ∀ host', SameSystem host host' →
      ∃ args', serveRequest order host' args r = some (args', a)) :
    parseRequest r.text ≠ some .help ∧
      (parseRequest r.text = some .list → ¬ Opens host args .list) := by
  obtain ⟨buffer, hstore⟩ := store_request args.buffer r
  have hstring := stringAt_of_terminated hstore hterm (Nat.zero_le _)
  rw [List.drop_zero] at hstring
  have hpacket : ∀ host', SameSystem host host' → ∃ x : ℕ × Vector UInt8 pathMax ×
      Option (List UInt8), x.2.2 = a.packet ∧
        observe order (invoke order host' (parseRequest r.text)
          { args with buffer := buffer, readBytes := r.text.length }) = some x := by
    intro host' hsys
    obtain ⟨args', hserve⟩ := hsame host' hsys
    rw [serveRequest_eq_observe hstore hstring] at hserve
    obtain ⟨x, hx, heq⟩ := Option.map_eq_some_iff.mp hserve
    cases heq
    exact ⟨x, rfl, hx⟩
  obtain ⟨x, hx, hinvoke⟩ := hpacket host (SameSystem.refl host)
  refine ⟨fun hhelp => ?_, fun hlist hopens => ?_⟩
  · rw [hhelp] at hinvoke hpacket
    obtain ⟨old, _, hold, _⟩ := observe_cmdHelp hinvoke
    -- another text before that of HELP
    obtain ⟨new, hne, hnul, hshort⟩ : ∃ new : List UInt8,
        new.length ≠ old.length ∧ 0 ∉ new ∧ new.length < bufferSize := by
      by_cases hempty : old.length = 0
      · exact ⟨[88], by simp [hempty], by decide, by decide⟩
      · exact ⟨[], Ne.symm hempty, by decide, by decide⟩
    obtain ⟨x', hx', hinvoke'⟩ := hpacket { host with text := strncpy bufferSize new }
      ⟨rfl, rfl, rfl, rfl, rfl, rfl, rfl⟩
    exact hne (help_length_eq hinvoke hinvoke' (hx'.trans hx.symm) hold
      (stringAt_strncpy hshort hnul))
  · rw [hlist] at hinvoke hpacket
    obtain ⟨x', hx', hinvoke'⟩ := hpacket
      { host with response := { host.response with type := host.response.type + 1 } }
      ⟨rfl, rfl, rfl, rfl, rfl, rfl, rfl⟩
    have htype := list_type_eq (by exact hopens) (by exact hopens) hinvoke hinvoke'
      (hx'.trans hx.symm)
    have hvalue := congrArg UInt8.toNat htype
    rw [UInt32.toUInt8_add, UInt8.toNat_add] at hvalue
    have hone : (1 : UInt32).toUInt8.toNat = 1 := rfl
    omega

/-! ## A connection -/

/-- The bare names leave room for a second NUL. -/
theorem room_behind_bare {text : List UInt8}
    (h : text = ascii ['E', 'C', 'H', 'O'] ∨ text = ascii ['C', 'D']) :
    text.length + 1 < bufferSize := by
  rcases h with rfl | rfl <;> decide

theorem terminated_replicate (r : Request) : Terminated (Vector.replicate bufferSize 0) r := by
  refine ⟨?_, fun hbare => ?_⟩
  · rw [Vector.getElem?_replicate, if_pos r.short]
  · rw [Vector.getElem?_replicate, if_pos (room_behind_bare hbare)]

/-- After a round the buffer is clear. -/
theorem firstTerminated_of_serveRequest {order : ByteOrder} {host : Host} {args args' : Args}
    {r : Request} {a : Answer} (h : serveRequest order host args r = some (args', a))
    (rest : List (Request × Host)) : FirstTerminated args' rest := by
  simp only [serveRequest, handleRequest, Option.bind_eq_bind, Option.bind_eq_some_iff] at h
  obtain ⟨_, _, _, _, _, ⟨_, _, _, _, heq⟩, heq'⟩ := h
  cases heq
  cases heq'
  exact fun x _ => terminated_replicate x.1

theorem serveRequests_eq_of_settled {order : ByteOrder} {args args' : Args}
    {requests requests' : List (Request × Host)} (hsettled : Settled order args requests)
    (hterm : FirstTerminated args requests) (hterm' : FirstTerminated args' requests')
    (hpath : args'.currentPath = args.currentPath) (hsame : SameRequests requests requests') :
    serveRequests order args' requests' = serveRequests order args requests := by
  induction hsame generalizing args args' with
  | nil => rfl
  | @cons x x' rest rest' hx hrest ih =>
      obtain ⟨r, host⟩ := x
      obtain ⟨r', host'⟩ := x'
      obtain ⟨hr, hsys⟩ := hx
      dsimp only at hr
      subst hr
      obtain ⟨⟨hhelp, hlist⟩, hnext⟩ := hsettled
      have hround : serveRequest order host' args' r' = serveRequest order host args r' :=
        serveRequest_eq hsys hpath (hterm (r', host) rfl) (hterm' (r', host') rfl) hhelp hlist
      simp only [serveRequests, hround, Option.bind_eq_bind]
      cases hserve : serveRequest order host args r' with
      | none => rfl
      | some result =>
          obtain ⟨args₁, a⟩ := result
          have hclear := firstTerminated_of_serveRequest hserve
          simp only [Option.bind_some,
            ih (hnext args₁ a hserve) (hclear rest) (hclear rest') rfl]

theorem settled_of_same_answers {order : ByteOrder} {args : Args}
    {requests : List (Request × Host)} {answers : List Answer}
    (hterm : FirstTerminated args requests)
    (hsame : ∀ requests', SameRequests requests requests' →
      serveRequests order args requests' = some answers) : Settled order args requests := by
  induction requests generalizing args answers with
  | nil => trivial
  | cons x rest ih =>
      obtain ⟨r, host⟩ := x
      have hrun := hsame _ (SameRequests.refl _)
      simp only [serveRequests, Option.bind_eq_bind, Option.bind_eq_some_iff] at hrun
      obtain ⟨⟨args₁, a⟩, hserve, as, hrest, hanswers⟩ := hrun
      obtain rfl := Option.some.inj hanswers
      have hall : ∀ host', SameSystem host host' →
          ∃ args', serveRequest order host' args r = some (args', a) := by
        intro host' hsys
        have hother := hsame ((r, host') :: rest) (.cons ⟨rfl, hsys⟩ (SameRequests.refl rest))
        simp only [serveRequests, Option.bind_eq_bind, Option.bind_eq_some_iff] at hother
        obtain ⟨⟨args', a'⟩, hserve', as', _, hanswers'⟩ := hother
        cases hanswers'
        exact ⟨args', hserve'⟩
      refine ⟨quiet_of_same_answer (hterm (r, host) rfl) hall, fun args' answer hserve' => ?_⟩
      cases hserve.symm.trans hserve'
      have htail : ∀ rest', SameRequests rest rest' →
          serveRequests order args₁ rest' = some as := by
        intro rest' hrest'
        have hother := hsame ((r, host) :: rest') (.cons ⟨rfl, SameSystem.refl host⟩ hrest')
        simp only [serveRequests, Option.bind_eq_bind, hserve, Option.bind_some,
          Option.bind_eq_some_iff] at hother
        obtain ⟨as', hrest'', hanswers'⟩ := hother
        cases hanswers'
        exact hrest''
      exact ih (firstTerminated_of_serveRequest hserve rest) htail

/-- A receive buffer without a NUL does not end the first request. -/
theorem serveRequest_full {order : ByteOrder} {host : Host} {args : Args} {r : Request}
    (h : args.buffer = Vector.replicate bufferSize 88) :
    serveRequest order host args r = none := by
  obtain ⟨buffer, hstore⟩ := store_request args.buffer r
  have hnone : stringAt buffer 0 = none := by
    refine Option.eq_none_iff_forall_ne_some.mpr fun text htext => ?_
    obtain ⟨_, rest, hrest⟩ := stringAt_eq_some_iff.mp htext
    rw [drop_store hstore, h, Vector.toList_replicate, List.drop_replicate] at hrest
    have hzero : (0 : UInt8) ∈ r.text ++ List.replicate (bufferSize - (0 + r.text.length)) 88 := by
      rw [hrest]
      exact List.mem_append_right text List.mem_cons_self
    rcases List.mem_append.mp hzero with hmem | hmem
    · exact r.noNul hmem
    · exact absurd (List.eq_of_mem_replicate hmem) (by decide)
  simp only [serveRequest, hstore, hnone, Option.bind_eq_bind, Option.bind_some, Option.bind_none]

/-- With the NULs that it needs behind the first request, the answers do not depend on memory if and
only if no request asks for HELP and none lists a directory. Without them they always do. -/
theorem responses_determined_iff (order : ByteOrder) (args : Args)
    (requests : List (Request × Host)) (hterm : FirstTerminated args requests) :
    (Settled order args requests → ∀ args' requests', args'.currentPath = args.currentPath →
      FirstTerminated args' requests' → SameRequests requests requests' →
        serveRequests order args' requests' = serveRequests order args requests) ∧
    ∀ answers, serveRequests order args requests = some answers →
      ((∀ requests', SameRequests requests requests' →
        serveRequests order args requests' = some answers) → Settled order args requests) ∧
      (requests ≠ [] → ∃ args', args'.currentPath = args.currentPath ∧
        serveRequests order args' requests ≠ some answers) := by
  refine ⟨fun hsettled args' requests' hpath hterm' hsame =>
    serveRequests_eq_of_settled hsettled hterm hterm' hpath hsame,
    fun answers _ => ⟨settled_of_same_answers hterm, fun hne => ?_⟩⟩
  refine ⟨{ args with buffer := Vector.replicate bufferSize 88 }, rfl, ?_⟩
  cases requests with
  | nil => exact absurd rfl hne
  | cons x rest =>
      simp only [serveRequests, serveRequest_full, Option.bind_eq_bind, Option.bind_none]
      exact nofun

def ackRequest : Request :=
  ⟨ascii ['A', 'C', 'K'], by decide, by decide, by decide⟩

/-- What `handle_server_msg` begins with. -/
def initialArgs (buffer : Vector UInt8 bufferSize) : Args :=
  ⟨buffer, 0, strncpy pathMax (ascii ['.'])⟩

/-- A string that is not longer than the request leaves NULs behind it. -/
theorem terminated_strncpy {s : List UInt8} {r : Request} (h : s.length ≤ r.text.length) :
    Terminated (strncpy bufferSize s) r := by
  refine ⟨?_, fun hbare => ?_⟩
  · rw [strncpy, Vector.getElem?_ofFn, dif_pos r.short, List.getElem?_eq_none h]
    rfl
  · rw [strncpy, Vector.getElem?_ofFn, dif_pos (room_behind_bare hbare),
      List.getElem?_eq_none (Nat.le_succ_of_le h)]
    rfl

theorem settled_ack (args : Args) : Settled .little args [(ackRequest, plainHost)] :=
  ⟨⟨by decide, fun h => absurd h (by decide)⟩, fun _ _ _ => trivial⟩

theorem responses_determined_iff_ack :
    serveRequests .little (initialArgs (strncpy bufferSize (ascii ['x', 'x', 'x'])))
        [(ackRequest, plainHost)] =
      serveRequests .little (initialArgs (Vector.replicate bufferSize 0))
        [(ackRequest, plainHost)] := by
  have hterm : FirstTerminated (initialArgs (Vector.replicate bufferSize 0))
      [(ackRequest, plainHost)] := by
    intro x hx
    cases hx
    exact terminated_replicate ackRequest
  have hterm' : FirstTerminated (initialArgs (strncpy bufferSize (ascii ['x', 'x', 'x'])))
      [(ackRequest, plainHost)] := by
    intro x hx
    cases hx
    exact terminated_strncpy (by decide)
  exact (responses_determined_iff .little (initialArgs (Vector.replicate bufferSize 0))
    [(ackRequest, plainHost)] hterm).1 (settled_ack _)
      (initialArgs (strncpy bufferSize (ascii ['x', 'x', 'x']))) [(ackRequest, plainHost)]
      (by simp only [initialArgs]) hterm' (SameRequests.refl _)

/-- ACK is received where `QUIT` stood from the fourth byte on. -/
theorem stale_quit_selected :
    ∃ answer answer',
      serveRequests .little (initialArgs (Vector.replicate bufferSize 0))
        [(ackRequest, plainHost)] = some [answer] ∧
      serveRequests .little
        (initialArgs (strncpy bufferSize (ascii ['x', 'x', 'x', 'Q', 'U', 'I', 'T'])))
        [(ackRequest, plainHost)] = some [answer'] ∧
      answer.command = some .ack ∧ answer'.command = some .quit := by
  obtain ⟨buffer, hstore⟩ := store_request
    (initialArgs (Vector.replicate bufferSize 0)).buffer ackRequest
  obtain ⟨buffer', hstore'⟩ := store_request
    (initialArgs (strncpy bufferSize (ascii ['x', 'x', 'x', 'Q', 'U', 'I', 'T']))).buffer
    ackRequest
  have hstring : stringAt buffer 0 = some (ascii ['A', 'C', 'K']) :=
    stringAt_of_terminated hstore (terminated_replicate ackRequest) (Nat.zero_le _)
  have hstring' : stringAt buffer' 0 = some (ascii ['A', 'C', 'K', 'Q', 'U', 'I', 'T']) := by
    refine stringAt_eq_some_iff.mpr ⟨by decide, List.replicate (bufferSize - 8) 0, ?_⟩
    rw [drop_store hstore', initialArgs, toList_strncpy (by decide)]
    rfl
  have hserve : ∃ args a, serveRequest .little plainHost
      (initialArgs (Vector.replicate bufferSize 0)) ackRequest = some (args, a) ∧
        a.command = some .ack := by
    rw [serveRequest_eq_observe hstore hstring,
      show parseRequest (ascii ['A', 'C', 'K']) = some .ack by decide, invoke_some, Cmd.handler,
      observe_cmdAck, textAnswer, if_pos (by decide)]
    exact ⟨_, _, rfl, rfl⟩
  have hserve' : ∃ args a, serveRequest .little plainHost
      (initialArgs (strncpy bufferSize (ascii ['x', 'x', 'x', 'Q', 'U', 'I', 'T']))) ackRequest =
        some (args, a) ∧ a.command = some .quit := by
    rw [serveRequest_eq_observe hstore' hstring',
      show parseRequest (ascii ['A', 'C', 'K', 'Q', 'U', 'I', 'T']) = some .quit by decide,
      invoke_some, Cmd.handler, observe_cmdQuit, textAnswer, if_pos (by decide)]
    exact ⟨_, _, rfl, rfl⟩
  obtain ⟨args, a, hserve, ha⟩ := hserve
  obtain ⟨args', a', hserve', ha'⟩ := hserve'
  refine ⟨a, a', ?_, ?_, ha, ha'⟩
  · simp only [serveRequests, hserve, Option.bind_eq_bind, Option.bind_some]
  · simp only [serveRequests, hserve', Option.bind_eq_bind, Option.bind_some]

end OsaspLabs.Lab8
