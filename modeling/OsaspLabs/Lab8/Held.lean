import OsaspLabs.Lab8.Dialogue

/-! # Sessions and dialogues of LAB_8

The three threads of a session hold the dialogues of its lines, and no others. -/

namespace OsaspLabs.Lab8

open Memory CString Runs

/-- The line can be typed, and its answer lets the client go on. -/
structure Dialogue.Typed (order : ByteOrder) (d : Directories) (t : Dialogue.Turn) : Prop where
  noNul : 0 ∉ t.line
  oneLine : 10 ∉ t.line
  short : t.line.length + 1 < bufferSize
  notQuit : t.line ≠ ascii ['Q', 'U', 'I', 'T']
  waits : ∀ b, t.response order d = some b →
    ∃ packet, deserializePacket order t.packet b = some packet ∧ reaction packet = .wait
  answered : t.response order d ≠ none

/-- The client reads its next line, and nothing is on its way. -/
structure Ready (s : State) (d : Directories) : Prop where
  main : s.client.main = .reading
  receiver : s.client.receiver = .receiving
  toServer : s.toServer = []
  toClient : s.toClient = []
  pc : s.server.pc = .receiving
  args : s.server.args = d.server
  dir : s.client.currentDir = d.client

/-- The session holds the dialogue, and has shown as much. -/
def HeldBy (u : Directories × List Event) (v : State × List Event) : Prop :=
  Ready v.1 u.1 ∧ v.2 = u.2

section Played

variable {order : ByteOrder} {honest : Host → Args → Prop} {clear : Packet → Wire → Prop}
  {s : State} {d d' : Directories} {t : Dialogue.Turn}

/-- The line as it is typed. -/
def typedLine (t : Dialogue.Turn) (oneLine : 10 ∉ t.line) (short : t.line.length + 1 < bufferSize) :
    Input where
  text := t.line ++ [10]
  nonempty := by simp
  short := by
    rw [List.length_append, List.length_singleton]
    exact short
  oneLine := by rwa [List.dropLast_concat]

theorem read_typedLine (c : Client) (hnul : 0 ∉ t.line) (honce : 10 ∉ t.line)
    (hshort : t.line.length + 1 < bufferSize) :
    c.fgets (some (typedLine t honce hshort)) = { c with line := t.line, main := .sending } := by
  have hread : c.read (some (typedLine t honce hshort)) = t.line ++ [10] := by
    simp only [Client.read, typedLine]
    rw [List.takeWhile_append_of_pos]
    · simp
    · intro a ha
      simpa using ne_of_mem_of_not_mem ha hnul
  rw [Client.fgets, hread, if_neg (by simp), List.dropLast_concat]

/-- The line comes to the server. -/
theorem asked_reaches (honest : Host → Args → Prop) (clear : Packet → Wire → Prop)
    (es : List Event) (h : Ready s d) (hline : t.line ≠ []) (hnul : 0 ∉ t.line)
    (honce : 10 ∉ t.line) (hshort : t.line.length + 1 < bufferSize) :
    ∃ s' buffer, store d.server.buffer 0 t.line = some buffer ∧
      Reaches (logged (step order) (screen order)) (fun u a => Whole honest clear u.1 a) (s, es)
        (s', es ++ [.sent t.line]) ∧
      s'.client.main = .waiting ∧ s'.client.receiver = .receiving ∧
      s'.client.line = t.line ∧ s'.client.bytesSent = true ∧ s'.client.currentDir = d.client ∧
      s'.toServer = [] ∧ s'.toClient = [] ∧
      s'.server = ⟨.handling, { d.server with buffer := buffer, readBytes := t.line.length }⟩ := by
  obtain ⟨hmain, hreceiver, htoServer, htoClient, hpc, hargs, hdir⟩ := h
  obtain ⟨buffer, hstore⟩ := store_isSome d.server.buffer (k := 0) (v := t.line) (by omega)
  let s₁ : State := { s with client := { s.client with line := t.line, main := .sending } }
  let s₂ : State :=
    { s₁ with
      client := { s₁.client with main := .arriving, bytesSent := true }
      toServer := t.line
      lines := s₁.lines + 1 }
  let s₃ : State := { s₂ with client := { s₂.client with main := .waiting } }
  let s₄ : State :=
    { s₃ with
      server := ⟨.handling, { d.server with buffer := buffer, readBytes := t.line.length }⟩
      toServer := [] }
  have h₁ : step order s (.fgets (some (typedLine t honce hshort))) = some s₁ := by
    rw [step, if_pos hmain, read_typedLine s.client hnul honce hshort]
  have h₂ : step order s₁ (.send true) = some s₂ := by
    simp [step, s₁, s₂, htoServer]
  have h₃ : step order s₂ .arrive = some s₃ := by
    simp [step, s₂, s₃]
  have h₄ : step order s₃ (.serverRecv (.bytes t.line.length)) = some s₄ := by
    have hpos : 0 < t.line.length := List.length_pos_of_ne_nil hline
    have hfits : t.line.length ≤ bufferSize := by omega
    have hchunk : chunk t.line bufferSize t.line.length = some t.line :=
      chunk_eq_some_iff.mpr ⟨⟨hpos, hfits, Nat.le_refl _⟩, List.take_length⟩
    simp [step, serverRecv, s₁, s₂, s₃, s₄, hpc, hargs, hchunk, hstore]
  refine ⟨s₄, buffer, hstore, ?_, rfl, hreceiver, rfl, rfl, hdir, rfl, htoClient, rfl⟩
  have hsent : screen order s₁ (.send true) = [.sent t.line] := if_pos ⟨rfl, hline⟩
  have hrun : Reaches (logged (step order) (screen order)) (fun u a => Whole honest clear u.1 a)
      (s, es) (s₂, es ++ [.sent t.line]) := by
    have hfirst := logged_of_step (screen order) es h₁
    have hnext := logged_of_step (screen order) es h₂
    simp only [screen, List.append_nil] at hfirst
    rw [hsent] at hnext
    exact .head ⟨.fgets _, trivial, hfirst⟩ (.single ⟨.send true, trivial, hnext⟩)
  have hthird := logged_of_step (screen order) (es ++ [.sent t.line]) h₃
  have hfourth := logged_of_step (screen order) (es ++ [.sent t.line]) h₄
  simp only [screen, List.append_nil] at hthird hfourth
  have hwhole : Whole honest clear s₃ (.serverRecv (.bytes t.line.length)) := by
    refine ⟨by simp, fun count heq => ?_⟩
    cases heq
    rfl
  exact (hrun.tail ⟨.arrive, trivial, hthird⟩).tail ⟨_, hwhole, hfourth⟩

/-- The answer of the server comes to the client, and the barrier opens. -/
theorem answered_reaches (es : List Event) {args args' : Args} {host : Host} {b : Wire}
    {packet fresh : Packet} {currentDir : Vector UInt8 pathMax}
    (hserver : s.server = ⟨.handling, args⟩)
    (hmain : s.client.main = .waiting) (hreceiver : s.client.receiver = .receiving)
    (hquit : s.client.line ≠ ascii ['Q', 'U', 'I', 'T']) (hsent : s.client.bytesSent = true)
    (htoServer : s.toServer = []) (htoClient : s.toClient = [])
    (hhandled : handleRequest order host args = some (args', some b)) (hhonest : honest host args)
    (hclear : clear fresh b) (hdecoded : deserializePacket order fresh b = some packet)
    (hdir : updateDir s.client.currentDir packet = some currentDir)
    (hreaction : reaction packet = .wait) :
    ∃ s', Reaches (logged (step order) (screen order)) (fun u a => Whole honest clear u.1 a)
        (s, es) (s', es ++ printedFor order fresh s.client.currentDir b) ∧
      Ready s' ⟨args', currentDir⟩ := by
  let s₁ : State :=
    { s with
      server := ⟨.receiving, args'⟩
      toClient := b.toList
      responses := s.responses + 1 }
  let s₂ : State :=
    { s₁ with client := { s.client with buffer := b, receiver := .received }, toClient := [] }
  let s₃ : State :=
    { s₂ with client := { s₂.client with currentDir := currentDir, receiver := .waiting } }
  let s₄ : State := { s₃ with client := { s₃.client with main := .passed, receiver := .receiving } }
  let s₅ : State := { s₄ with client := { s₄.client with line := [], main := .reading } }
  have h₁ : step order s (.handleRequest host) = some s₁ := by
    simp [step, hserver, hhandled, htoClient, s₁]
  have h₂ : step order s₁ (.clientRecv (.bytes packetBufferSize)) = some s₂ := by
    have hlen : b.toList.length = packetBufferSize := b.length_toList
    have hchunk : chunk b.toList packetBufferSize packetBufferSize = some b.toList :=
      chunk_eq_some_iff.mpr
        ⟨⟨by decide, Nat.le_refl _, by rw [hlen]⟩, List.take_of_length_le hlen.le⟩
    simp [step, clientRecv, s₁, s₂, hmain, hreceiver, hchunk, store_eq_of_length]
  have h₃ : step order s₂ (.handlePacket fresh) = some s₃ := by
    simp [step, Client.handlePacket, s₁, s₂, s₃, hmain, hdecoded, hdir, hreaction]
  have h₄ : step order s₃ .release = some s₄ := by
    simp [step, s₂, s₃, s₄, hmain]
  have h₅ : step order s₄ .proceed = some s₅ := by
    simp [step, Client.proceed, s₂, s₃, s₄, s₅, hquit, hsent]
  have hshown : screen order s₂ (.handlePacket fresh) =
      printedFor order fresh s.client.currentDir b := rfl
  refine ⟨s₅, ?_, ⟨rfl, rfl, htoServer, rfl, rfl, rfl, rfl⟩⟩
  have hfirst := logged_of_step (screen order) es h₁
  have hsecond := logged_of_step (screen order) es h₂
  have hthird := logged_of_step (screen order) es h₃
  rw [hshown] at hthird
  generalize es ++ printedFor order fresh s.client.currentDir b = es' at hthird ⊢
  have hfourth := logged_of_step (screen order) es' h₄
  have hfifth := logged_of_step (screen order) es' h₅
  simp only [screen, List.append_nil] at hfirst hsecond hfourth hfifth
  have hhonest' : Whole honest clear s (.handleRequest host) := by
    rw [Whole, hserver]
    exact hhonest
  exact .head ⟨.handleRequest host, hhonest', hfirst⟩ <| .head ⟨.clientRecv _, rfl, hsecond⟩ <|
    .head ⟨.handlePacket fresh, hclear, hthird⟩ <| .head ⟨.release, trivial, hfourth⟩ <|
    .single ⟨.proceed, trivial, hfifth⟩

/-- A turn is played by the three threads. -/
theorem turn_played (es : List Event) (h : Ready s d)
    (hadmits : Dialogue.Admits order honest clear d t) (htyped : Dialogue.Typed order d t)
    (hturn : Dialogue.turn order d t = some d') :
    ∃ s', Reaches (logged (step order) (screen order)) (fun u a => Whole honest clear u.1 a)
        (s, es) (s', es ++ Dialogue.shows order d t) ∧ Ready s' d' := by
  obtain ⟨buffer, sent, hstore, hhandled, hdeliver, hresponse⟩ := Dialogue.parts_of_turn hturn
  cases hsent : sent with
  | none => exact absurd (hresponse.trans hsent) htyped.answered
  | some b =>
      subst hsent
      obtain ⟨s₁, buffer', hstore', hrun, hmain, hreceiver, hline, hbytes, hdir, htoServer,
        htoClient, hserver⟩ := asked_reaches honest clear es h hadmits.line
          htyped.noNul htyped.oneLine htyped.short
      obtain rfl := Option.some.inj (hstore.symm.trans hstore')
      obtain ⟨packet, hdecoded, hreaction⟩ := htyped.waits b hresponse
      simp only [deliver, hdecoded, Option.bind_eq_bind, Option.bind_some] at hdeliver
      have hhonest := hadmits.host ⟨buffer, t.line.length, t.host, t.packet⟩ (by
        rw [Dialogue.Turn.exchange, hstore, Option.map_some])
      obtain ⟨s₂, hrun', hready⟩ := answered_reaches (es ++ [.sent t.line]) hserver hmain
        hreceiver (hline ▸ htyped.notQuit) hbytes htoServer htoClient hhandled hhonest
        (hadmits.packet b hresponse) hdecoded (hdir ▸ hdeliver) hreaction
      have hshows : es ++ Dialogue.shows order d t =
          es ++ [.sent t.line] ++ printedFor order t.packet s₁.client.currentDir b := by
        rw [Dialogue.shows, hresponse, hdir, List.append_assoc]
        rfl
      rw [hshows]
      exact ⟨s₂, hrun.trans hrun', hready⟩

end Played

/-! ## A session with one CD -/

/-- "CD x" where /x can be opened. -/
def xTurn : Dialogue.Turn :=
  ⟨ascii ['C', 'D', ' ', 'x'], xHost (some []), ⟨0, Vector.replicate bufferSize 0, 0⟩⟩

theorem store_cdBuffer :
    store (Vector.replicate bufferSize 0) 0 (ascii ['C', 'D', ' ', 'x']) = some cdBuffer := by
  obtain ⟨buffer, hstore⟩ := store_isSome (Vector.replicate bufferSize (0 : UInt8)) (k := 0)
    (v := ascii ['C', 'D', ' ', 'x']) (by decide)
  rw [hstore, Option.some.injEq, ← Vector.toList_inj, toList_store hstore, cdBuffer,
    toList_strncpy (by decide), Vector.toList_replicate, List.drop_replicate, List.take_zero,
    List.nil_append, Nat.zero_add]

/-- The turn, and what it is made of. -/
theorem turn_xTurn :
    ∃ d, Dialogue.turn .little (beginning (Vector.replicate bufferSize 0)) xTurn = some d ∧
      Dialogue.Admits .little Honest (Clear .little)
        (beginning (Vector.replicate bufferSize 0)) xTurn ∧
      Dialogue.Typed .little (beginning (Vector.replicate bufferSize 0)) xTurn := by
  have hprocess := processPath_x (some []) stringAt_dot (by decide)
  have hpath := stringAt_slashX
  let args : Args :=
    { (beginning (Vector.replicate bufferSize 0)).server with
      buffer := cdBuffer, readBytes := xTurn.line.length }
  have hhome : (initialArgs cdBuffer).currentPath = args.currentPath := by
    simp only [args, beginning, initialArgs]
  rw [hhome] at hprocess
  have hno : 0 ∉ ascii ['/', 'x'] := by decide
  obtain ⟨response, b, hset, hser⟩ := sent_isSome .little
    { (xHost (some [])).response with type := packetDirectory } (xHost (some [])).memory
    (s := ascii ['/', 'x']) (by decide)
  obtain ⟨dir, hdir⟩ : ∃ dir, strcpy (Vector.replicate pathMax 0) (ascii ['/', 'x']) = some dir :=
    store_isSome _ (by decide)
  have hrequest : stringAt cdBuffer 0 = some (ascii ['C', 'D', ' ', 'x']) :=
    stringAt_strncpy (by decide) (by decide)
  have hparse : parseRequest (ascii ['C', 'D', ' ', 'x']) = some .cd := by decide
  have hcd : Cmd.cd.handler .little (xHost (some [])) args =
      some ({ args with currentPath := strncpy pathMax (ascii ['/', 'x']) }, some b) :=
    cmdCd_opened hprocess hpath (by simp [xHost]) hset hser
  have hrequest' : stringAt args.buffer 0 = some (ascii ['C', 'D', ' ', 'x']) := hrequest
  have hhandled := handleRequest_of_handler hrequest' hparse hcd
  have hnul : xTurn.packet.data[(ascii ['/', 'x']).length]? = some 0 := by
    rw [xTurn, Vector.getElem?_replicate]
    exact if_pos (by decide)
  have hdeliver : deliver .little xTurn.packet (Vector.replicate pathMax 0) (some b) = some dir :=
    (deliver_directory _ hno hset hser hnul).trans hdir
  obtain ⟨hturn, hresponse⟩ := Dialogue.turn_eq_some
    (d := beginning (Vector.replicate bufferSize 0)) (t := xTurn) store_cdBuffer hhandled hdeliver
  obtain ⟨packet, hdecoded, htype, hsize, -⟩ :=
    deserializePacket_of_serializePacket hser xTurn.packet
  obtain ⟨htype', hsize', -⟩ := setPayloadString_spec hset
  have hdirectory : packet.type = packetDirectory := by
    refine UInt32.toNat_inj.mp (htype.trans ?_)
    rw [htype']
    rfl
  refine ⟨_, hturn, ⟨by decide, fun x hx => ?_, fun b' hb' => ?_⟩,
    ⟨by decide, by decide, by decide, by decide, fun b' hb' => ?_, by simp [hresponse]⟩⟩
  · obtain ⟨buffer, hstore, rfl⟩ := Option.map_eq_some_iff.mp hx
    obtain rfl := Option.some.inj (store_cdBuffer.symm.trans hstore)
    refine ⟨fun _ path _ => .inl (by simp [xTurn, xHost]), fun hlist => ?_⟩
    simp only [Exchange.args, hrequest, Option.bind_some, hparse] at hlist
    cases hlist
  · obtain rfl := Option.some.inj (hresponse.symm.trans hb')
    intro packet' hdecoded' _
    obtain rfl := Option.some.inj (hdecoded.symm.trans hdecoded')
    rw [hsize, hsize']
    exact hnul
  · obtain rfl := Option.some.inj (hresponse.symm.trans hb')
    refine ⟨packet, hdecoded, ?_⟩
    rw [reaction, if_neg (by rw [hdirectory]; decide), if_pos (.inl hdirectory)]

/-- The CD is typed, sent, handled and answered. -/
theorem cd_session :
    ∃ s es, Reaches (logged (step .little) (screen .little))
        (fun u a => Whole Honest (Clear .little) u.1 a)
        (init [] (Vector.replicate packetBufferSize 0) (Vector.replicate bufferSize 0), [])
        (s, es) ∧ es ≠ [] ∧ s.client.main = .reading := by
  obtain ⟨d, hturn, hadmits, htyped⟩ := turn_xTurn
  have hready : Ready (init [] (Vector.replicate packetBufferSize 0)
      (Vector.replicate bufferSize 0)) (beginning (Vector.replicate bufferSize 0)) :=
    ⟨rfl, rfl, rfl, rfl, rfl, rfl, rfl⟩
  obtain ⟨s, hrun, hready'⟩ := turn_played [] hready hadmits htyped hturn
  exact ⟨s, _, hrun, by simp [Dialogue.shows], hready'.main⟩

/-! ## No more and no less -/

/-- As long as the streams keep requests and packets whole, the three threads show on the screen
what a dialogue shows in which each line is handled and answered at once, and at most one more
line has been sent. Whenever the client reads a line, the paths are those of the dialogue, and
nothing is on its way. -/
theorem session_follows_dialogue (order : ByteOrder) (honest : Host → Args → Prop)
    (clear : Packet → Wire → Prop) (line : List UInt8)
    (clientBuffer : Vector UInt8 packetBufferSize) (serverBuffer : Vector UInt8 bufferSize)
    (s : State) (es : List Event)
    (h : Reaches (logged (step order) (screen order)) (fun u a => Whole honest clear u.1 a)
      (init line clientBuffer serverBuffer, []) (s, es)) :
    ∃ d fs, Reaches (logged (Dialogue.turn order) (Dialogue.shows order))
        (fun u t => Dialogue.Admits order honest clear u.1 t) (beginning serverBuffer, []) (d, fs) ∧
      (es = fs ∨ ∃ line, es = fs ++ [.sent line]) ∧
      (s.client.main = .reading → es = fs ∧ s.server.args = d.server ∧
        s.client.currentDir = d.client ∧ s.toServer = [] ∧ s.toClient = []) := by
  obtain ⟨d, fs, hrun, hbehind⟩ := behind_of_reaches h
  refine ⟨d, fs, hrun, hbehind.screen_eq, fun hreading => ?_⟩
  obtain ⟨hes, hquiet⟩ := hbehind.reading hreading
  exact ⟨hes, hquiet.args, hquiet.dir, hquiet.toServer, hquiet.toClient⟩

theorem session_follows_dialogue_cd :
    ∃ (s : State) (es : List Event) (d : Directories) (fs : List Event), es ≠ [] ∧
      s.client.main = .reading ∧
      Reaches (logged (Dialogue.turn .little) (Dialogue.shows .little))
        (fun u t => Dialogue.Admits .little Honest (Clear .little) u.1 t)
        (beginning (Vector.replicate bufferSize 0), []) (d, fs) ∧ es = fs ∧
      s.server.args = d.server := by
  obtain ⟨s, es, hrun, hsome, hreading⟩ := cd_session
  obtain ⟨d, fs, hdialogue, -, hsame⟩ := session_follows_dialogue .little Honest (Clear .little) []
    (Vector.replicate packetBufferSize 0) (Vector.replicate bufferSize 0) s es hrun
  obtain ⟨hes, hargs, -⟩ := hsame hreading
  exact ⟨s, es, d, fs, hsome, hreading, hdialogue, hes, hargs⟩

/-- Every dialogue whose lines can be typed and whose answers let the client go on is held by the
three threads, with the same on the screen. -/
theorem dialogue_is_held (order : ByteOrder) (honest : Host → Args → Prop)
    (clear : Packet → Wire → Prop) (line : List UInt8)
    (clientBuffer : Vector UInt8 packetBufferSize) (serverBuffer : Vector UInt8 bufferSize)
    (d : Directories) (fs : List Event)
    (h : Reaches (logged (Dialogue.turn order) (Dialogue.shows order))
      (fun u t => Dialogue.Admits order honest clear u.1 t ∧ Dialogue.Typed order u.1 t)
      (beginning serverBuffer, []) (d, fs)) :
    ∃ s, Reaches (logged (step order) (screen order)) (fun u a => Whole honest clear u.1 a)
        (init line clientBuffer serverBuffer, []) (s, fs) ∧ Ready s d := by
  have hstart : HeldBy (beginning serverBuffer, []) (init line clientBuffer serverBuffer, []) :=
    ⟨⟨rfl, rfl, rfl, rfl, rfl, rfl, rfl⟩, rfl⟩
  obtain ⟨⟨s, es⟩, hrun, hready, hes⟩ := h.simulate hstart (by
    rintro u t v u' ⟨hready, hes⟩ ⟨hadmits, htyped⟩ hstep
    obtain ⟨hturn, hlog⟩ := logged_eq_some hstep
    obtain ⟨s', hrun, hready'⟩ := turn_played u'.2 hready hadmits htyped hturn
    exact ⟨(s', _), hrun, hready', by rw [hlog, hes]⟩)
  dsimp only at hes
  exact ⟨s, hes ▸ hrun, hready⟩

theorem dialogue_is_held_cd :
    ∃ d fs s, Reaches (logged (Dialogue.turn .little) (Dialogue.shows .little))
        (fun u t => Dialogue.Admits .little Honest (Clear .little) u.1 t ∧
          Dialogue.Typed .little u.1 t)
        (beginning (Vector.replicate bufferSize 0), []) (d, fs) ∧ fs ≠ [] ∧
      Reaches (logged (step .little) (screen .little))
        (fun u a => Whole Honest (Clear .little) u.1 a)
        (init [] (Vector.replicate packetBufferSize 0) (Vector.replicate bufferSize 0), [])
        (s, fs) ∧ Ready s d := by
  obtain ⟨d, hturn, hadmits, htyped⟩ := turn_xTurn
  have hrun : Reaches (logged (Dialogue.turn .little) (Dialogue.shows .little))
      (fun u t => Dialogue.Admits .little Honest (Clear .little) u.1 t ∧
        Dialogue.Typed .little u.1 t) (beginning (Vector.replicate bufferSize 0), [])
      (d, [] ++ Dialogue.shows .little (beginning (Vector.replicate bufferSize 0)) xTurn) :=
    .single ⟨xTurn, ⟨hadmits, htyped⟩, logged_of_step _ _ hturn⟩
  obtain ⟨s, hs, hready⟩ := dialogue_is_held .little Honest (Clear .little) []
    (Vector.replicate packetBufferSize 0) _ _ _ hrun
  exact ⟨d, _, s, hrun, by simp [Dialogue.shows], hs, hready⟩

end OsaspLabs.Lab8
