import OsaspLabs.Lab8.Session
import OsaspLabs.Lab8.Strings
import OsaspLabs.Lab8.Uninitialised

/-! # The current directory of a LAB_8 session

CD edits the path of the session before it knows whether the directory can be opened. The client
hears of the new path only by the packet of a CD that could. -/

namespace OsaspLabs.Lab8

open Memory CString Runs

/-- `realpath` leaves `path` for the path of the session and the argument of CD. -/
def Resolved (host : Host) (args : Args) (path : List UInt8) : Prop :=
  ∃ old arg, stringAt args.currentPath 0 = some old ∧ stringAt args.buffer 3 = some arg ∧
    (old ++ ascii ['/'] ++ arg).length < pathMax ∧
    stringAt (host.realpath (old ++ ascii ['/'] ++ arg)) 0 = some path

/-- A CD without a response leaves the path as it was. -/
def CdKeeps (order : ByteOrder) (host : Host) (args : Args) : Prop :=
  ∀ args', cmdCd order host args = some (args', none) →
    stringAt args'.currentPath 0 = stringAt args.currentPath 0

/-- What `realpath` leaves can be opened, or it is the old path. -/
def OpensOrSame (host : Host) (args : Args) : Prop :=
  ∀ path, Resolved host args path →
    host.opendir path ≠ none ∨ stringAt args.currentPath 0 = some path

/-- The two copies of the path. -/
structure Directories where
  server : Args
  client : Vector UInt8 pathMax

/-- One turn of the loop of the server, and what the client makes of the response. -/
structure Exchange where
  /-- What the buffer of the server holds when `recv` returns. -/
  buffer : Vector UInt8 bufferSize
  readBytes : ℕ
  host : Host
  /-- What the memory of the received packet holds. -/
  packet : Packet

def Exchange.args (x : Exchange) (s : Directories) : Args :=
  { s.server with buffer := x.buffer, readBytes := x.readBytes }

def Exchange.command (x : Exchange) : Option Cmd := (stringAt x.buffer 0).bind parseRequest

def deliver (order : ByteOrder) (packet : Packet) (currentDir : Vector UInt8 pathMax) :
    Option Wire → Option (Vector UInt8 pathMax)
  | none => some currentDir
  | some sent => do
      let packet ← deserializePacket order packet sent
      updateDir currentDir packet

def exchange (order : ByteOrder) (s : Directories) (x : Exchange) : Option Directories := do
  let (args, sent) ← handleRequest order x.host (x.args s)
  let currentDir ← deliver order x.packet s.client sent
  some ⟨args, currentDir⟩

def Directories.Agree (s : Directories) : Prop :=
  ∃ path, stringAt s.server.currentPath 0 = some path ∧ stringAt s.client 0 = some path

/-- A CD that fails keeps the path, the string of a CD that succeeds ends in the received packet
where the payload ends, and no listing is sent as a directory packet. -/
structure Faithful (s : Directories) (x : Exchange) : Prop where
  keeps : x.command = some .cd → OpensOrSame x.host (x.args s)
  nul : x.command = some .cd → ∀ path, Resolved x.host (x.args s) path →
    x.packet.data[path.length]? = some 0
  list : x.command = some .list → x.host.response.type.toNat % 256 ≠ packetDirectory.toNat

/-! ## CD -/

theorem strcat_eq_some {n : ℕ} {buf : Vector UInt8 n} {old s : List UInt8}
    (hold : stringAt buf 0 = some old) (h : old.length + s.length < n) :
    ∃ buf', strcat buf s = some buf' := by
  obtain ⟨buf', hstore⟩ := store_isSome buf (k := old.length) (v := s ++ [0]) (by
    rw [List.length_append, List.length_singleton]
    omega)
  exact ⟨buf', by simp only [strcat, hold, hstore, Option.bind_eq_bind, Option.bind_some]⟩

theorem processPath_eq_some_iff {host : Host} {currentDir currentDir' : Vector UInt8 pathMax}
    {wantedDir : Vector UInt8 bufferSize} :
    processPath host currentDir wantedDir = some currentDir' ↔
      ∃ old arg, stringAt currentDir 0 = some old ∧ stringAt wantedDir 3 = some arg ∧
        (old ++ ascii ['/'] ++ arg).length < pathMax ∧
        host.realpath (old ++ ascii ['/'] ++ arg) = currentDir' := by
  constructor
  · intro h
    simp only [processPath, Option.bind_eq_bind, Option.bind_eq_some_iff] at h
    obtain ⟨arg, harg, dir₁, hdir₁, dir₂, hdir₂, path, hpath, heq⟩ := h
    cases heq
    obtain ⟨old, hold, hslash⟩ := stringAt_strcat hdir₁ (by decide)
    obtain ⟨old₁, hold₁, hfull⟩ := stringAt_strcat hdir₂ (nul_notMem_of_stringAt harg)
    obtain rfl := Option.some.inj (hslash.symm.trans hold₁)
    obtain rfl := Option.some.inj (hfull.symm.trans hpath)
    have hlen := length_lt_of_stringAt hpath
    exact ⟨old, arg, hold, harg, by omega, rfl⟩
  · rintro ⟨old, arg, hold, harg, hlen, rfl⟩
    simp only [List.length_append] at hlen
    obtain ⟨dir₁, hdir₁⟩ := strcat_eq_some hold (s := ascii ['/']) (by omega)
    obtain ⟨old', hold', hslash⟩ := stringAt_strcat hdir₁ (by decide)
    obtain rfl := Option.some.inj (hold.symm.trans hold')
    obtain ⟨dir₂, hdir₂⟩ := strcat_eq_some hslash (s := arg) (by
      rw [List.length_append]
      omega)
    obtain ⟨old₁, hold₁, hfull⟩ := stringAt_strcat hdir₂ (nul_notMem_of_stringAt harg)
    obtain rfl := Option.some.inj (hslash.symm.trans hold₁)
    simp only [processPath, harg, hdir₁, hdir₂, hfull, Option.bind_eq_bind, Option.bind_some]

/-- CD stores what `realpath` leaves, and answers if that can be opened. -/
theorem cmdCd_eq_some {order : ByteOrder} {host : Host} {args args' : Args} {sent : Option Wire}
    (h : cmdCd order host args = some (args', sent)) :
    ∃ path, Resolved host args path ∧ stringAt args'.currentPath 0 = some path ∧
      ((host.opendir path = none ∧ sent = none) ∨
        host.opendir path ≠ none ∧ ∃ response b,
          setPayloadString { host.response with type := packetDirectory } path = some response ∧
            sent = some b ∧ serializePacket order host.memory response = some b) := by
  simp only [cmdCd, Option.bind_eq_bind, Option.bind_eq_some_iff] at h
  obtain ⟨currentPath, hprocess, path, hpath, h⟩ := h
  obtain ⟨old, arg, hold, harg, hlen, rfl⟩ := processPath_eq_some_iff.mp hprocess
  have hresolved : Resolved host args path := ⟨old, arg, hold, harg, hlen, hpath⟩
  cases hopen : host.opendir path with
  | none =>
      rw [hopen] at h
      cases h
      exact ⟨path, hresolved, hpath, .inl ⟨hopen, rfl⟩⟩
  | some names =>
      simp only [hopen, Option.bind_eq_some_iff] at h
      obtain ⟨response, hset, hsend⟩ := h
      obtain ⟨rfl, b, rfl, hb⟩ := sendResponse_eq_some hsend
      exact ⟨path, hresolved, hpath, .inr ⟨by simp [hopen], response, b, hset, rfl, hb⟩⟩

theorem cmdCd_closed {order : ByteOrder} {host : Host} {args : Args}
    {currentPath : Vector UInt8 pathMax} {path : List UInt8}
    (hprocess : processPath host args.currentPath args.buffer = some currentPath)
    (hpath : stringAt currentPath 0 = some path) (hclosed : host.opendir path = none) :
    cmdCd order host args = some ({ args with currentPath := currentPath }, none) := by
  simp only [cmdCd, hprocess, hpath, hclosed, Option.bind_eq_bind, Option.bind_some]

theorem cmdCd_opened {order : ByteOrder} {host : Host} {args : Args}
    {currentPath : Vector UInt8 pathMax} {path : List UInt8} {response : Packet} {b : Wire}
    (hprocess : processPath host args.currentPath args.buffer = some currentPath)
    (hpath : stringAt currentPath 0 = some path) (hopen : host.opendir path ≠ none)
    (hset : setPayloadString { host.response with type := packetDirectory } path = some response)
    (hser : serializePacket order host.memory response = some b) :
    cmdCd order host args = some ({ args with currentPath := currentPath }, some b) := by
  obtain ⟨names, hnames⟩ := Option.ne_none_iff_exists'.mp hopen
  simp only [cmdCd, hprocess, hpath, hnames, hset, sendResponse, hser, Option.bind_eq_bind,
    Option.bind_some]

/-- `realpath` leaves one path. -/
theorem Resolved.unique {host : Host} {args : Args} {path path' : List UInt8}
    (h : Resolved host args path) (h' : Resolved host args path') : path = path' := by
  obtain ⟨old, arg, hold, harg, _, hpath⟩ := h
  obtain ⟨old', arg', hold', harg', _, hpath'⟩ := h'
  obtain rfl := Option.some.inj (hold.symm.trans hold')
  obtain rfl := Option.some.inj (harg.symm.trans harg')
  exact Option.some.inj (hpath.symm.trans hpath')

theorem cdKeeps_iff (order : ByteOrder) (host : Host) (args : Args) :
    CdKeeps order host args ↔ OpensOrSame host args := by
  constructor
  · rintro hkeeps path ⟨old, arg, hold, harg, hlen, hpath⟩
    refine or_iff_not_imp_left.mpr fun hopen => ?_
    have hprocess : processPath host args.currentPath args.buffer =
        some (host.realpath (old ++ ascii ['/'] ++ arg)) :=
      processPath_eq_some_iff.mpr ⟨old, arg, hold, harg, hlen, rfl⟩
    exact (hkeeps _ (cmdCd_closed hprocess hpath (not_not.mp hopen))).symm.trans hpath
  · intro hopens args' h
    obtain ⟨path, hresolved, hpath, ⟨hopen, _⟩ | ⟨_, _, _, _, hsent, _⟩⟩ := cmdCd_eq_some h
    · rw [hpath, (hopens path hresolved).resolve_left (not_not.mpr hopen)]
    · cases hsent

/-! ## The other commands -/

theorem handler_currentPath {order : ByteOrder} {host : Host} {args args' : Args} {c : Cmd}
    {sent : Option Wire} (hc : c ≠ .cd) (h : c.handler order host args = some (args', sent)) :
    args'.currentPath = args.currentPath := by
  cases c with
  | cd => exact absurd rfl hc
  | echo =>
      simp only [Cmd.handler, cmdEcho, Option.bind_eq_bind, Option.bind_eq_some_iff] at h
      obtain ⟨_, _, _, _, hsend⟩ := h
      rw [(sendResponse_eq_some hsend).1]
  | quit =>
      simp only [Cmd.handler, cmdQuit, Option.bind_eq_bind, Option.bind_eq_some_iff] at h
      obtain ⟨_, _, hsend⟩ := h
      rw [(sendResponse_eq_some hsend).1]
  | ack =>
      simp only [Cmd.handler, cmdAck, Option.bind_eq_bind, Option.bind_eq_some_iff] at h
      obtain ⟨_, _, hsend⟩ := h
      rw [(sendResponse_eq_some hsend).1]
  | info =>
      simp only [Cmd.handler, cmdInfo, Option.bind_eq_bind, Option.bind_eq_some_iff] at h
      obtain ⟨_, _, _, _, _, _, _, _, hsend⟩ := h
      rw [(sendResponse_eq_some hsend).1]
  | help =>
      simp only [Cmd.handler, cmdHelp, Option.bind_eq_bind, Option.bind_eq_some_iff] at h
      obtain ⟨_, _, _, _, _, _, _, _, hsend⟩ := h
      rw [(sendResponse_eq_some hsend).1]
  | list =>
      simp only [Cmd.handler, cmdList, Option.bind_eq_bind, Option.bind_eq_some_iff] at h
      obtain ⟨path, _, h⟩ := h
      cases hopen : host.opendir path with
      | none =>
          rw [hopen] at h
          cases h
          rfl
      | some names =>
          simp only [hopen, Option.bind_eq_some_iff] at h
          obtain ⟨_, _, hsend⟩ := h
          rw [(sendResponse_eq_some hsend).1]

/-- A packet of another type leaves the path of the client alone. -/
theorem deliver_of_type {order : ByteOrder} {memory : Vector UInt8 packetBufferSize}
    {fresh p : Packet} {b : Wire} {currentDir currentDir' : Vector UInt8 pathMax}
    (hser : serializePacket order memory p = some b)
    (htype : p.type.toNat % 256 ≠ packetDirectory.toNat)
    (h : deliver order fresh currentDir (some b) = some currentDir') :
    currentDir' = currentDir := by
  obtain ⟨p', hdes, hp', _⟩ := deserializePacket_of_serializePacket hser fresh
  have hne : p'.type ≠ packetDirectory := fun heq => htype (heq ▸ hp'.symm)
  simp only [deliver, hdes, updateDir, if_neg hne, Option.bind_eq_bind, Option.bind_some] at h
  exact (Option.some.inj h).symm

/-- Only CD and a listing with the wrong type send a directory packet. -/
theorem deliver_of_sends {order : ByteOrder} {host : Host} {args : Args} {c : Cmd}
    {sent : Option Wire} {fresh : Packet} {currentDir currentDir' : Vector UInt8 pathMax}
    (hc : c ≠ .cd) (hlist : c = .list → host.response.type.toNat % 256 ≠ packetDirectory.toNat)
    (hsends : Sends order host args c sent)
    (h : deliver order fresh currentDir sent = some currentDir') : currentDir' = currentDir := by
  cases hsends with
  | none => exact (Option.some.inj h).symm
  | list p b heq _ htype hser => exact deliver_of_type hser (htype ▸ hlist heq) h
  | text p b s _ _ htype _ _ _ hser =>
      refine deliver_of_type hser ?_ h
      rw [htype]
      cases c with
      | cd => exact absurd rfl hc
      | list => exact hlist rfl
      | _ =>
          simp only [responseType]
          decide

/-- The packet of a CD puts its string into the path of the client, if the string arrives. -/
theorem deliver_directory {order : ByteOrder} {host : Host} {path : List UInt8}
    {response fresh : Packet} {b : Wire} (currentDir : Vector UInt8 pathMax) (hno : 0 ∉ path)
    (hset : setPayloadString { host.response with type := packetDirectory } path = some response)
    (hser : serializePacket order host.memory response = some b)
    (hnul : fresh.data[path.length]? = some 0) :
    deliver order fresh currentDir (some b) = strcpy currentDir path := by
  obtain ⟨p, hdes, htype, _⟩ := deserializePacket_of_serializePacket hser fresh
  have harrives := (stringAt_deserializePacket hno hset hser hdes).2.mpr hnul
  have hdirectory : p.type = packetDirectory := by
    refine UInt32.toNat_inj.mp (htype.trans ?_)
    rw [(setPayloadString_spec hset).1]
    rfl
  simp only [deliver, hdes, updateDir, if_pos hdirectory, harrives, Option.bind_eq_bind,
    Option.bind_some]

/-- What an exchange is made of. -/
theorem exchange_eq_some {order : ByteOrder} {s s' : Directories} {x : Exchange}
    (h : exchange order s x = some s') :
    ∃ args sent, invoke order x.host x.command (x.args s) = some (args, sent) ∧
      s'.server.currentPath = args.currentPath ∧
      deliver order x.packet s.client sent = some s'.client := by
  simp only [exchange, handleRequest, Option.bind_eq_bind, Option.bind_eq_some_iff] at h
  obtain ⟨⟨args', sent⟩, ⟨request, hrequest, ⟨args, sent'⟩, hinvoke, heq⟩, dir, hdir, heq'⟩ := h
  cases heq
  cases heq'
  have hcommand : x.command = parseRequest request := by
    rw [Exchange.command, show stringAt x.buffer 0 = some request from hrequest, Option.bind_some]
  exact ⟨args, _, hcommand ▸ hinvoke, rfl, hdir⟩

/-- After a CD that succeeds the two paths are the same, if the string arrives. -/
theorem agree_of_cd {order : ByteOrder} {s s' : Directories} {x : Exchange}
    (hnul : ∀ path, Resolved x.host (x.args s) path → x.packet.data[path.length]? = some 0)
    (hcd : x.command = some .cd) (hopens : Opens x.host (x.args s) .cd)
    (h : exchange order s x = some s') : s'.Agree := by
  obtain ⟨args, sent, hinvoke, hserver, hclient⟩ := exchange_eq_some h
  rw [hcd, invoke_some] at hinvoke
  obtain ⟨path, hresolved, hpath, ⟨hclosed, _⟩ | ⟨_, response, b, hset, rfl, hser⟩⟩ :=
    cmdCd_eq_some hinvoke
  · obtain ⟨currentPath, path', hprocess, hpath', hopen⟩ := hopens
    obtain ⟨old, arg, hold, harg, hlen, rfl⟩ := processPath_eq_some_iff.mp hprocess
    obtain rfl := hresolved.unique ⟨old, arg, hold, harg, hlen, hpath'⟩
    exact absurd hclosed hopen
  · have hno := nul_notMem_of_stringAt hpath
    rw [deliver_directory s.client hno hset hser (hnul path hresolved)] at hclient
    exact ⟨path, hserver ▸ hpath, stringAt_strcpy hclient hno⟩

/-- Where the directory can be opened and the string arrives, CD is answered and delivered. -/
theorem exchange_cd_isSome {order : ByteOrder} {s : Directories} {x : Exchange}
    {currentPath : Vector UInt8 pathMax} {path : List UInt8} (hcd : x.command = some .cd)
    (hprocess : processPath x.host s.server.currentPath x.buffer = some currentPath)
    (hpath : stringAt currentPath 0 = some path) (hopen : x.host.opendir path ≠ none)
    (hnul : x.packet.data[path.length]? = some 0) : ∃ s', exchange order s x = some s' := by
  obtain ⟨request, hrequest, hparse⟩ := Option.bind_eq_some_iff.mp hcd
  have hlt := length_lt_of_stringAt hpath
  have hlen : path.length < bufferSize := by
    have hmax : pathMax = bufferSize := rfl
    omega
  obtain ⟨response, b, hset, hser⟩ := sent_isSome order
    { x.host.response with type := packetDirectory } x.host.memory hlen
  obtain ⟨dir, hdir⟩ : ∃ dir, strcpy s.client path = some dir := by
    refine store_isSome s.client ?_
    rw [List.length_append, List.length_singleton]
    omega
  have hinvoke : invoke order x.host (parseRequest request) (x.args s) =
      some ({ x.args s with currentPath := currentPath }, some b) := by
    rw [hparse, invoke_some]
    exact cmdCd_opened hprocess hpath hopen hset hser
  have hhandled : handleRequest order x.host (x.args s) = some
      ({ x.args s with currentPath := currentPath, buffer := Vector.replicate bufferSize 0 },
        some b) := by
    simp only [handleRequest, show stringAt (x.args s).buffer 0 = some request from hrequest,
      hinvoke, Option.bind_eq_bind, Option.bind_some]
  have hdeliver : deliver order x.packet s.client (some b) = some dir :=
    (deliver_directory s.client (nul_notMem_of_stringAt hpath) hset hser hnul).trans hdir
  refine ⟨⟨{ x.args s with currentPath := currentPath, buffer := Vector.replicate bufferSize 0 },
    dir⟩, ?_⟩
  simp only [exchange, hhandled, hdeliver, Option.bind_eq_bind, Option.bind_some]

theorem Directories.Agree.step {order : ByteOrder} {s s' : Directories} {x : Exchange}
    (hagree : s.Agree) (hx : Faithful s x) (h : exchange order s x = some s') : s'.Agree := by
  obtain ⟨old, hold, hclient⟩ := hagree
  obtain ⟨args, sent, hinvoke, hserver, hdeliver⟩ := exchange_eq_some h
  cases hc : x.command with
  | none =>
      rw [hc] at hinvoke
      cases hinvoke
      exact ⟨old, by rw [hserver]; exact hold, Option.some.inj hdeliver ▸ hclient⟩
  | some c =>
      rw [hc, invoke_some] at hinvoke
      by_cases hcd : c = .cd
      · subst hcd
        by_cases hopens : Opens x.host (x.args s) .cd
        · exact agree_of_cd (hx.nul hc) hc hopens h
        · cases handler_sends hinvoke with
          | none =>
              have hkeep := (cdKeeps_iff order _ _).mpr (hx.keeps hc) args hinvoke
              exact ⟨old, by rw [hserver, hkeep]; exact hold, Option.some.inj hdeliver ▸ hclient⟩
          | list _ _ heq => cases heq
          | text _ _ _ _ hopen => exact absurd hopen hopens
      · have hpath := handler_currentPath hcd hinvoke
        have hdir := deliver_of_sends hcd (fun heq => hx.list (heq ▸ hc)) (handler_sends hinvoke)
          hdeliver
        exact ⟨old, by rw [hserver, hpath]; exact hold, by rw [hdir]; exact hclient⟩

/-- A CD without a response leaves the path alone exactly if what `realpath` left can be opened
or is the old path. In a session whose exchanges are faithful the client and the server agree
on the path from the first CD on that succeeds. -/
theorem directory_kept_iff (order : ByteOrder) :
    (∀ host args, CdKeeps order host args ↔ OpensOrSame host args) ∧
    ∀ s₁ x s₂ s₃, Faithful s₁ x → x.command = some .cd → Opens x.host (x.args s₁) .cd →
      exchange order s₁ x = some s₂ → Reaches (exchange order) Faithful s₂ s₃ → s₃.Agree := by
  refine ⟨cdKeeps_iff order, fun s₁ x s₂ s₃ hx hcd hopens h hrun => ?_⟩
  exact hrun.invariant (agree_of_cd (hx.nul hcd) hcd hopens h)
    fun _ _ _ hagree hfaithful hstep => hagree.step hfaithful hstep

/-- `realpath` leaves "/x" whatever it is asked, and directories open or not. -/
def xHost (opendir : Option (List (List UInt8))) : Host :=
  { plainHost with
    realpath := fun _ => strncpy pathMax (ascii ['/', 'x'])
    opendir := fun _ => opendir }

def cdBuffer : Vector UInt8 bufferSize := strncpy bufferSize (ascii ['C', 'D', ' ', 'x'])

theorem processPath_x (opendir : Option (List (List UInt8))) {currentPath : Vector UInt8 pathMax}
    {old : List UInt8} (hold : stringAt currentPath 0 = some old) (hshort : old.length ≤ 2) :
    processPath (xHost opendir) currentPath cdBuffer =
      some (strncpy pathMax (ascii ['/', 'x'])) := by
  have hx : stringAt cdBuffer 3 = some (ascii ['x']) := by
    refine stringAt_eq_some_iff.mpr ⟨by decide, List.replicate (bufferSize - 5) 0, ?_⟩
    rw [cdBuffer, toList_strncpy (by decide)]
    rfl
  have hmax : pathMax = 4096 := rfl
  refine processPath_eq_some_iff.mpr ⟨old, _, hold, hx, ?_, rfl⟩
  simp only [List.length_append, ascii, List.length_map, List.length_cons, List.length_nil]
  omega

theorem stringAt_slashX : stringAt (strncpy pathMax (ascii ['/', 'x'])) 0 =
    some (ascii ['/', 'x']) :=
  stringAt_strncpy (by decide) (by decide)

theorem stringAt_dot : stringAt (initialArgs cdBuffer).currentPath 0 = some (ascii ['.']) :=
  stringAt_strncpy (by decide) (by decide)

/-- The CD of "x" stores "/x". -/
theorem cmdCd_x {opendir : Option (List (List UInt8))} {args' : Args} {sent : Option Wire}
    {args : Args} (h : cmdCd .little (xHost opendir) args = some (args', sent)) :
    stringAt args'.currentPath 0 = some (ascii ['/', 'x']) := by
  obtain ⟨path, ⟨old, arg, _, _, _, hx⟩, hpath, _⟩ := cmdCd_eq_some h
  have hleft : stringAt ((xHost opendir).realpath (old ++ ascii ['/'] ++ arg)) 0 =
      some (ascii ['/', 'x']) := stringAt_slashX
  rw [hpath, ← hx, hleft]

/-- "CD x" where /x is no directory: there is no response, and the path is /x. -/
theorem failed_cd_moves :
    (∃ args', cmdCd .little (xHost none) (initialArgs cdBuffer) = some (args', none) ∧
      stringAt args'.currentPath 0 = some (ascii ['/', 'x'])) ∧
    stringAt (initialArgs cdBuffer).currentPath 0 = some (ascii ['.']) ∧
    ¬ CdKeeps .little (xHost none) (initialArgs cdBuffer) := by
  have hprocess := processPath_x none stringAt_dot (by decide)
  obtain ⟨args', hcd⟩ : ∃ args', cmdCd .little (xHost none) (initialArgs cdBuffer) =
      some (args', none) := ⟨_, cmdCd_closed hprocess stringAt_slashX rfl⟩
  refine ⟨⟨args', hcd, cmdCd_x hcd⟩, stringAt_dot, fun hkeeps => ?_⟩
  have hsame := hkeeps args' hcd
  rw [cmdCd_x hcd, stringAt_dot] at hsame
  exact absurd hsame (by decide)

def xExchange : Exchange :=
  ⟨cdBuffer, 4, xHost (some []), 0, Vector.replicate bufferSize 0, 0⟩

theorem command_xExchange : xExchange.command = some .cd := by
  have hrequest : stringAt cdBuffer 0 = some (ascii ['C', 'D', ' ', 'x']) :=
    stringAt_strncpy (by decide) (by decide)
  rw [Exchange.command, show xExchange.buffer = cdBuffer from rfl, hrequest]
  decide

/-- "CD x" where /x can be opened. -/
theorem exchange_x {s : Directories} {old : List UInt8}
    (hold : stringAt s.server.currentPath 0 = some old) (hshort : old.length ≤ 2) :
    Faithful s xExchange ∧ Opens xExchange.host (xExchange.args s) .cd ∧
      ∃ s', exchange .little s xExchange = some s' ∧
        stringAt s'.server.currentPath 0 = some (ascii ['/', 'x']) := by
  have hprocess : processPath xExchange.host s.server.currentPath xExchange.buffer =
      some (strncpy pathMax (ascii ['/', 'x'])) := processPath_x (some []) hold hshort
  have hpath := stringAt_slashX
  have hopen : xExchange.host.opendir (ascii ['/', 'x']) ≠ none := nofun
  have hnul : ∀ i < bufferSize, xExchange.packet.data[i]? = some 0 := fun i hi =>
    (Vector.getElem?_replicate ..).trans (if_pos hi)
  have hargs : processPath xExchange.host (xExchange.args s).currentPath
      (xExchange.args s).buffer = some (strncpy pathMax (ascii ['/', 'x'])) := by
    rw [Exchange.args]
    exact hprocess
  have hopens : Opens xExchange.host (xExchange.args s) .cd := ⟨_, _, hargs, hpath, hopen⟩
  have hfaithful : Faithful s xExchange := by
    refine ⟨fun _ path _ => .inl nofun, fun _ path hresolved => hnul _ ?_, fun hlist => ?_⟩
    · obtain ⟨_, _, _, _, _, hx⟩ := hresolved
      exact Nat.lt_of_le_of_lt (Nat.le_add_left _ 0) (length_lt_of_stringAt hx)
    · rw [command_xExchange] at hlist
      cases hlist
  obtain ⟨s', hs'⟩ : ∃ s', exchange .little s xExchange = some s' :=
    exchange_cd_isSome command_xExchange hprocess hpath hopen (hnul _ (by decide))
  obtain ⟨args, sent, hinvoke, hserver, -⟩ := exchange_eq_some hs'
  rw [command_xExchange, invoke_some] at hinvoke
  exact ⟨hfaithful, hopens, s', hs', by rw [hserver]; exact cmdCd_x hinvoke⟩

/-- "CD x" twice. -/
theorem directory_kept_iff_x :
    ∃ s₂ s₃, exchange .little ⟨initialArgs cdBuffer, Vector.replicate pathMax 0⟩ xExchange =
        some s₂ ∧ exchange .little s₂ xExchange = some s₃ ∧ s₃.Agree := by
  let start : Directories := ⟨initialArgs cdBuffer, Vector.replicate pathMax 0⟩
  obtain ⟨hfaithful, hopens, s₂, hs₂, hpath⟩ := @exchange_x start _ stringAt_dot (by decide)
  obtain ⟨hfaithful', -, s₃, hs₃, -⟩ := exchange_x hpath (by decide)
  exact ⟨s₂, s₃, hs₂, hs₃, (directory_kept_iff .little).2 start xExchange s₂ s₃ hfaithful
    command_xExchange hopens hs₂ (.single ⟨xExchange, hfaithful', hs₃⟩)⟩

end OsaspLabs.Lab8
