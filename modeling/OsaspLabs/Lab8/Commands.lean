import OsaspLabs.Lab8.Protocol

/-! # The commands of the LAB_8 server

A handler reads the request from the buffer of its session and sends one packet, or none. -/

namespace OsaspLabs.Lab8

open Memory CString

/-- `PATH_MAX` -/
def pathMax : ℕ := 4096

/-- `HOST_NAME_MAX` -/
def hostNameMax : ℕ := 64

/-- `enum CMD`, without the -1 that stands for none. -/
inductive Cmd where
  | echo
  | quit
  | info
  | cd
  | list
  | ack
  | help
  deriving DecidableEq, Repr

/-- The commands with their names, in the order in which they are looked for. -/
def cmds : List (Cmd × List UInt8) :=
  [(.echo, ascii ['E', 'C', 'H', 'O']), (.quit, ascii ['Q', 'U', 'I', 'T']),
    (.ack, ascii ['A', 'C', 'K']), (.info, ascii ['I', 'N', 'F', 'O']), (.cd, ascii ['C', 'D']),
    (.list, ascii ['L', 'I', 'S', 'T']), (.help, ascii ['?'])]

/-- The first command whose name stands anywhere in the request. -/
def parseRequest (buffer : List UInt8) : Option Cmd :=
  (cmds.find? fun c => strstr buffer c.2).map Prod.fst

example : parseRequest (ascii ['C', 'D', ' ', 'E', 'C', 'H', 'O', 'E', 'S']) = some .echo := by
  decide

/-- `args_t`, but for the socket. -/
structure Args where
  buffer : Vector UInt8 bufferSize
  readBytes : ℕ
  currentPath : Vector UInt8 pathMax

/-- What `lstat` tells about a path. -/
inductive FileType where
  | directory
  | regular
  | link
  | other

/-- What the system answers while one request is handled, and what memory holds that the
handler does not initialise. -/
structure Host where
  /-- What `realpath` leaves in its result for a path. -/
  realpath : List UInt8 → Vector UInt8 pathMax
  /-- The names in a directory, if it can be opened. -/
  opendir : List UInt8 → Option (List (List UInt8))
  /-- The type of a file or the text of the error. -/
  lstat : List UInt8 → Except (List UInt8) FileType
  /-- What `readlink` leaves in `targetName`. -/
  readlink : List UInt8 → Option (Vector UInt8 (pathMax + 1))
  hostname : Vector UInt8 hostNameMax
  response : Packet
  /-- The `buffer` of `cmd_help` and the `payload` of `cmd_info`. -/
  text : Vector UInt8 bufferSize
  responseBuffer : Vector UInt8 128
  pathName : Vector UInt8 (pathMax + 1)
  /-- The memory that `serialize_packet` gets from `malloc`. -/
  memory : Vector UInt8 packetBufferSize

/-- A system whose directories do not open, with clear memory. -/
def plainHost : Host where
  realpath _ := Vector.replicate pathMax 0
  opendir _ := none
  lstat _ := .ok .other
  readlink _ := none
  hostname := Vector.replicate hostNameMax 0
  response := ⟨0, Vector.replicate bufferSize 0, 0⟩
  text := Vector.replicate bufferSize 0
  responseBuffer := Vector.replicate 128 0
  pathName := Vector.replicate (pathMax + 1) 0
  memory := Vector.replicate packetBufferSize 0

/-- The bytes of one `send`. -/
abbrev Wire := Vector UInt8 packetBufferSize

def sendResponse (order : ByteOrder) (host : Host) (args : Args) (response : Packet) :
    Option (Args × Option Wire) := do
  let sent ← serializePacket order host.memory response
  some (args, some sent)

/-! ## Handlers -/

def cmdEcho (order : ByteOrder) (host : Host) (args : Args) : Option (Args × Option Wire) := do
  let r ← stringAt args.buffer 5
  let response ← setPayloadString { host.response with type := packetInfo } r
  sendResponse order host args response

def cmdQuit (order : ByteOrder) (host : Host) (args : Args) : Option (Args × Option Wire) := do
  let response ← setPayloadString { host.response with type := packetInfo } (ascii ['B', 'Y', 'E'])
  sendResponse order host args response

def cmdAck (order : ByteOrder) (host : Host) (args : Args) : Option (Args × Option Wire) := do
  let response ← setPayloadString { host.response with type := packetAck }
    (ascii ['R', 'e', 'c', 'i', 'e', 'v', 'e', 'd'])
  sendResponse order host args response

def cmdInfo (order : ByteOrder) (host : Host) (args : Args) : Option (Args × Option Wire) := do
  let hostname ← stringAt host.hostname 0
  let text := ascii ['H', 'e', 'l', 'l', 'o', ' ', 'f', 'r', 'o', 'm', ' '] ++ hostname ++
    ascii [' ', 's', 'e', 'r', 'v', 'e', 'r', '!']
  let payload ← strcpy host.text text
  let payload ← stringAt payload 0
  let response ← setPayloadString { host.response with type := packetInfo } payload
  sendResponse order host args response

def processPath (host : Host) (currentDir : Vector UInt8 pathMax)
    (wantedDir : Vector UInt8 bufferSize) : Option (Vector UInt8 pathMax) := do
  let stripedPath ← stringAt wantedDir 3
  let currentDir ← strcat currentDir (ascii ['/'])
  let currentDir ← strcat currentDir stripedPath
  let path ← stringAt currentDir 0
  some (host.realpath path)

def cmdCd (order : ByteOrder) (host : Host) (args : Args) : Option (Args × Option Wire) := do
  let currentPath ← processPath host args.currentPath args.buffer
  let args := { args with currentPath := currentPath }
  let path ← stringAt currentPath 0
  match host.opendir path with
  | none => some (args, none)
  | some _ => do
      let response ← setPayloadString { host.response with type := packetDirectory } path
      sendResponse order host args response

/-- What `cmd_list` works on from one entry of the directory to the next. -/
structure Listing where
  response : Packet
  responseBuffer : Vector UInt8 128
  pathName : Vector UInt8 (pathMax + 1)

/-- The line of `response_buffer` for one path. -/
def formatEntry (host : Host) (path : List UInt8) (responseBuffer : Vector UInt8 128) :
    Option (Vector UInt8 128) :=
  match host.lstat path with
  | .error text =>
      strcpy responseBuffer
        (ascii ['E', 'r', 'r', 'o', 'r', ' ', 's', 't', 'a', 'r', 't', 'i', 'n', 'g', ' '] ++
          path ++ ascii [':', ' '] ++ text ++ [10])
  | .ok .directory => strcpy responseBuffer (path ++ ascii ['/'] ++ [10])
  | .ok .regular => strcpy responseBuffer (path ++ ascii [' '] ++ [10])
  | .ok .link =>
      match host.readlink path with
      | none => some responseBuffer
      | some targetName => do
          let target ← stringAt targetName 0
          strcpy responseBuffer (path ++ ascii [' ', '-', '>', ' '] ++ target ++ [10])
  | .ok .other => some responseBuffer

def listEntry (host : Host) (currentPath : List UInt8) (l : Listing) (name : List UInt8) :
    Option Listing :=
  if name = ascii ['.'] ∨ name = ascii ['.', '.'] then some l
  else do
    let pathName ← store l.pathName 0 (strncpy pathMax currentPath).toList
    let pathName ← strncat pathName (ascii ['/']) pathMax
    let pathName ← strncat pathName name pathMax
    let path ← stringAt pathName 0
    let responseBuffer ← formatEntry host path l.responseBuffer
    let line ← stringAt responseBuffer 0
    let data ← strcat l.response.data line
    some
      { response :=
          { l.response with
            data := data, size := l.response.size + UInt16.ofNat line.length }
        responseBuffer := Vector.replicate 128 0
        pathName := pathName }

/-- The type of the packet is what its memory held. -/
def cmdList (order : ByteOrder) (host : Host) (args : Args) : Option (Args × Option Wire) := do
  let currentPath ← stringAt args.currentPath 0
  match host.opendir currentPath with
  | none => some (args, none)
  | some names => do
      let l ← names.foldlM (listEntry host currentPath)
        ⟨host.response, host.responseBuffer, host.pathName⟩
      sendResponse order host args l.response

def helpLine (buffer : Vector UInt8 bufferSize) (name : List UInt8) :
    Option (Vector UInt8 bufferSize) := do
  let buffer ← strcat buffer name
  strcat buffer [10]

/-- The text is appended to what `buffer` held. -/
def cmdHelp (order : ByteOrder) (host : Host) (args : Args) : Option (Args × Option Wire) := do
  let buffer ← strcat host.text
    (ascii ['A', 'v', 'a', 'l', 'i', 'a', 'b', 'l', 'e', ' ',
      'c', 'o', 'm', 'm', 'a', 'n', 'd', 's', ':', ' '] ++ [10])
  let buffer ← (cmds.map Prod.snd).foldlM helpLine buffer
  let text ← stringAt buffer 0
  let response ← setPayloadString { host.response with type := packetInfo } text
  sendResponse order host args response

def Cmd.handler : Cmd → ByteOrder → Host → Args → Option (Args × Option Wire)
  | .echo => cmdEcho
  | .quit => cmdQuit
  | .info => cmdInfo
  | .cd => cmdCd
  | .list => cmdList
  | .ack => cmdAck
  | .help => cmdHelp

def invoke (order : ByteOrder) (host : Host) (command : Option Cmd) (args : Args) :
    Option (Args × Option Wire) :=
  match cmds.find? fun c => some c.1 = command with
  | none => some (args, none)
  | some c => c.1.handler order host args

/-- What the server does with the request in its buffer. -/
def handleRequest (order : ByteOrder) (host : Host) (args : Args) :
    Option (Args × Option Wire) := do
  let request ← stringAt args.buffer 0
  let (args, sent) ← invoke order host (parseRequest request) args
  some ({ args with buffer := Vector.replicate bufferSize 0 }, sent)

/-! ## What is sent -/

/-- The directory that CD or LIST needs can be opened. -/
def Opens (host : Host) (args : Args) : Cmd → Prop
  | .cd => ∃ currentPath path, processPath host args.currentPath args.buffer = some currentPath ∧
      stringAt currentPath 0 = some path ∧ host.opendir path ≠ none
  | .list => ∃ path, stringAt args.currentPath 0 = some path ∧ host.opendir path ≠ none
  | _ => True

/-- The type of the packet that answers a command. -/
def responseType (host : Host) : Cmd → UInt32
  | .cd => packetDirectory
  | .ack => packetAck
  | .list => host.response.type
  | _ => packetInfo

theorem sendResponse_eq_some {order : ByteOrder} {host : Host} {args args' : Args}
    {response : Packet} {sent : Option Wire}
    (h : sendResponse order host args response = some (args', sent)) :
    args' = args ∧ ∃ b, sent = some b ∧ serializePacket order host.memory response = some b := by
  obtain ⟨b, hb, heq⟩ := Option.bind_eq_some_iff.mp h
  cases heq
  exact ⟨rfl, b, rfl, hb⟩

theorem listEntry_type {host : Host} {path name : List UInt8} {l l' : Listing}
    (h : listEntry host path l name = some l') : l'.response.type = l.response.type := by
  unfold listEntry at h
  split at h
  · cases h
    rfl
  · simp only [Option.bind_eq_bind, Option.bind_eq_some_iff] at h
    obtain ⟨_, _, _, _, _, _, _, _, _, _, _, _, _, _, heq⟩ := h
    cases heq
    rfl

theorem listEntries_type {host : Host} {path : List UInt8} {names : List (List UInt8)}
    {l l' : Listing} (h : names.foldlM (listEntry host path) l = some l') :
    l'.response.type = l.response.type := by
  induction names generalizing l with
  | nil =>
      cases h
      rfl
  | cons name names ih =>
      rw [List.foldlM_cons] at h
      obtain ⟨l₁, hl₁, hrest⟩ := Option.bind_eq_some_iff.mp h
      rw [ih hrest, listEntry_type hl₁]

/-- The string is the payload of the packet. -/
structure Carries (p : Packet) (s : List UInt8) : Prop where
  noNul : 0 ∉ s
  size : p.size.toNat = s.length
  data : load p.data 0 s.length = some s

/-- The text whose receipt ends the client. -/
def bye : List UInt8 := ascii ['B', 'Y', 'E']

/-- What a handler sends. -/
inductive Sends (order : ByteOrder) (host : Host) (args : Args) (c : Cmd) : Option Wire → Prop where
  | none (closed : ¬ Opens host args c) : Sends order host args c none
  | list (p : Packet) (b : Wire) (list : c = .list) (opens : Opens host args c)
      (type : p.type = host.response.type)
      (serialized : serializePacket order host.memory p = some b) :
      Sends order host args c (some b)
  | text (p : Packet) (b : Wire) (s : List UInt8) (notList : c ≠ .list)
      (opens : Opens host args c) (type : p.type = responseType host c) (carries : Carries p s)
      (echo : c = .echo → stringAt args.buffer 5 = some s)
      (notBye : c = .info ∨ c = .help → ¬ s <+: bye)
      (serialized : serializePacket order host.memory p = some b) :
      Sends order host args c (some b)

theorem sends_text {order : ByteOrder} {host : Host} {args args₁ args' : Args} {sent : Option Wire}
    {c : Cmd} {response : Packet} {s : List UInt8} (hs : 0 ∉ s)
    (hset : setPayloadString { host.response with type := responseType host c } s =
      some response)
    (hsend : sendResponse order host args₁ response = some (args', sent)) (hlist : c ≠ .list)
    (hopens : Opens host args c) (hecho : c = .echo → stringAt args.buffer 5 = some s)
    (hbye : c = .info ∨ c = .help → ¬ s <+: bye) : Sends order host args c sent := by
  obtain ⟨htype, hsize, hdata⟩ := setPayloadString_spec hset
  obtain ⟨_, b, rfl, hb⟩ := sendResponse_eq_some hsend
  exact .text response b s hlist hopens htype ⟨hs, hsize, hdata⟩ hecho hbye hb

theorem cmdEcho_sends {order : ByteOrder} {host : Host} {args args' : Args}
    {sent : Option Wire} (h : cmdEcho order host args = some (args', sent)) :
    Sends order host args .echo sent := by
  simp only [cmdEcho, Option.bind_eq_bind, Option.bind_eq_some_iff] at h
  obtain ⟨r, hr, response, hset, hsend⟩ := h
  exact sends_text (nul_notMem_of_stringAt hr) hset hsend nofun trivial (fun _ => hr) nofun

theorem cmdQuit_sends {order : ByteOrder} {host : Host} {args args' : Args}
    {sent : Option Wire} (h : cmdQuit order host args = some (args', sent)) :
    Sends order host args .quit sent := by
  simp only [cmdQuit, Option.bind_eq_bind, Option.bind_eq_some_iff] at h
  obtain ⟨response, hset, hsend⟩ := h
  exact sends_text (by decide) hset hsend nofun trivial nofun nofun

theorem cmdAck_sends {order : ByteOrder} {host : Host} {args args' : Args}
    {sent : Option Wire} (h : cmdAck order host args = some (args', sent)) :
    Sends order host args .ack sent := by
  simp only [cmdAck, Option.bind_eq_bind, Option.bind_eq_some_iff] at h
  obtain ⟨response, hset, hsend⟩ := h
  exact sends_text (by decide) hset hsend nofun trivial nofun nofun

theorem cmdInfo_sends {order : ByteOrder} {host : Host} {args args' : Args}
    {sent : Option Wire} (h : cmdInfo order host args = some (args', sent)) :
    Sends order host args .info sent := by
  simp only [cmdInfo, Option.bind_eq_bind, Option.bind_eq_some_iff] at h
  obtain ⟨hostname, hname, payload, hcpy, text, htext, response, hset, hsend⟩ := h
  refine sends_text (nul_notMem_of_stringAt htext) hset hsend nofun trivial nofun
    fun _ hbye => ?_
  have hname' := nul_notMem_of_stringAt hname
  rw [stringAt_strcpy hcpy (by simp [ascii, hname'])] at htext
  obtain rfl := Option.some.inj htext
  simp [ascii, bye] at hbye

theorem cmdCd_sends {order : ByteOrder} {host : Host} {args args' : Args}
    {sent : Option Wire} (h : cmdCd order host args = some (args', sent)) :
    Sends order host args .cd sent := by
  simp only [cmdCd, Option.bind_eq_bind, Option.bind_eq_some_iff] at h
  obtain ⟨currentPath, hprocess, path, hpath, h⟩ := h
  cases hopen : host.opendir path with
  | none =>
      rw [hopen] at h
      cases h
      refine .none ?_
      rintro ⟨currentPath', path', hprocess', hpath', hopen'⟩
      obtain rfl := Option.some.inj (hprocess.symm.trans hprocess')
      obtain rfl := Option.some.inj (hpath.symm.trans hpath')
      exact hopen' hopen
  | some names =>
      simp only [hopen, Option.bind_eq_some_iff] at h
      obtain ⟨response, hset, hsend⟩ := h
      exact sends_text (nul_notMem_of_stringAt hpath) hset hsend nofun
        ⟨currentPath, path, hprocess, hpath, by simp [hopen]⟩ nofun (by simp)

theorem cmdList_sends {order : ByteOrder} {host : Host} {args args' : Args}
    {sent : Option Wire} (h : cmdList order host args = some (args', sent)) :
    Sends order host args .list sent := by
  simp only [cmdList, Option.bind_eq_bind, Option.bind_eq_some_iff] at h
  obtain ⟨path, hpath, h⟩ := h
  cases hopen : host.opendir path with
  | none =>
      rw [hopen] at h
      cases h
      refine .none ?_
      rintro ⟨path', hpath', hopen'⟩
      obtain rfl := Option.some.inj (hpath.symm.trans hpath')
      exact hopen' hopen
  | some names =>
      simp only [hopen, Option.bind_eq_some_iff] at h
      obtain ⟨l, hl, hsend⟩ := h
      obtain ⟨_, b, rfl, hb⟩ := sendResponse_eq_some hsend
      exact .list l.response b rfl ⟨path, hpath, by simp [hopen]⟩ (listEntries_type hl) hb

/-- The lines of HELP are appended to what the buffer holds. -/
theorem stringAt_helpLines {names : List (List UInt8)} (hnames : ∀ name ∈ names, 0 ∉ name)
    {buffer buffer' : Vector UInt8 bufferSize} {s : List UInt8}
    (hs : stringAt buffer 0 = some s) (h : names.foldlM helpLine buffer = some buffer') :
    stringAt buffer' 0 = some (s ++ names.flatMap (· ++ [10])) := by
  induction names generalizing buffer s with
  | nil =>
      cases h
      rw [hs, List.flatMap_nil, List.append_nil]
  | cons name names ih =>
      simp only [List.foldlM_cons, helpLine, Option.bind_eq_bind, Option.bind_eq_some_iff] at h
      obtain ⟨buffer₂, ⟨buffer₁, h₁, h₂⟩, hrest⟩ := h
      obtain ⟨old, hold, hs₁⟩ := stringAt_strcat h₁ (hnames name List.mem_cons_self)
      obtain ⟨old₁, hold₁, hs₂⟩ := stringAt_strcat h₂ (by decide)
      obtain rfl := Option.some.inj (hs.symm.trans hold)
      obtain rfl := Option.some.inj (hs₁.symm.trans hold₁)
      rw [ih (fun n hn => hnames n (List.mem_cons_of_mem name hn)) hs₂ hrest, List.flatMap_cons]
      simp only [List.append_assoc]

theorem cmdHelp_sends {order : ByteOrder} {host : Host} {args args' : Args}
    {sent : Option Wire} (h : cmdHelp order host args = some (args', sent)) :
    Sends order host args .help sent := by
  simp only [cmdHelp, Option.bind_eq_bind, Option.bind_eq_some_iff] at h
  obtain ⟨buffer, hcat, buffer', hlines, text, htext, response, hset, hsend⟩ := h
  refine sends_text (nul_notMem_of_stringAt htext) hset hsend nofun trivial nofun
    fun _ hbye => ?_
  obtain ⟨old, _, hs⟩ := stringAt_strcat hcat (by decide)
  obtain rfl := Option.some.inj (htext.symm.trans (stringAt_helpLines (by decide) hs hlines))
  have hlen := hbye.length_le
  simp [ascii, bye] at hlen
  omega

theorem handler_sends {order : ByteOrder} {host : Host} {args args' : Args} {c : Cmd}
    {sent : Option Wire} (h : c.handler order host args = some (args', sent)) :
    Sends order host args c sent := by
  cases c with
  | echo => exact cmdEcho_sends h
  | quit => exact cmdQuit_sends h
  | info => exact cmdInfo_sends h
  | cd => exact cmdCd_sends h
  | list => exact cmdList_sends h
  | ack => exact cmdAck_sends h
  | help => exact cmdHelp_sends h

theorem invoke_some (order : ByteOrder) (host : Host) (c : Cmd) (args : Args) :
    invoke order host (some c) args = c.handler order host args := by
  cases c <;> rfl

/-- A request is answered by the handler of its command, or not at all. -/
theorem handleRequest_sends {order : ByteOrder} {host : Host} {args args' : Args}
    {sent : Option Wire} (h : handleRequest order host args = some (args', sent)) :
    ∃ request, stringAt args.buffer 0 = some request ∧
      ((parseRequest request = none ∧ sent = none) ∨
        ∃ c, parseRequest request = some c ∧ Sends order host args c sent) := by
  simp only [handleRequest, Option.bind_eq_bind, Option.bind_eq_some_iff] at h
  obtain ⟨request, hrequest, ⟨args₁, sent₁⟩, hinvoke, heq⟩ := h
  cases heq
  refine ⟨request, hrequest, ?_⟩
  cases hparse : parseRequest request with
  | none =>
      rw [hparse] at hinvoke
      cases hinvoke
      exact .inl ⟨rfl, rfl⟩
  | some c =>
      rw [hparse, invoke_some] at hinvoke
      exact .inr ⟨c, rfl, handler_sends hinvoke⟩

end OsaspLabs.Lab8
