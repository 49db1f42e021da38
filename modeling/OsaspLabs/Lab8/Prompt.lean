import OsaspLabs.Lab8.Held

/-! # The prompt of the LAB_8 client

The client knows the directory of its session from directory packets only. -/

namespace OsaspLabs.Lab8

open Memory CString Runs

/-- The two paths as they are before a CD has succeeded. -/
def AtHome (d : Directories) : Prop :=
  stringAt d.server.currentPath 0 = some (ascii ['.']) ∧ d.client = Vector.replicate pathMax 0

theorem turn_exchange {order : ByteOrder} {honest : Host → Args → Prop}
    {clear : Packet → Wire → Prop} {d d' : Directories} {t : Dialogue.Turn}
    (hadmits : Dialogue.Admits order honest clear d t) (h : Dialogue.turn order d t = some d') :
    ∃ x : Exchange, exchange order d x = some d' ∧ honest x.host (x.args d) ∧
      ∀ args b, handleRequest order x.host (x.args d) = some (args, some b) →
        clear x.packet b := by
  obtain ⟨x, hx, hexchange⟩ := Option.bind_eq_some_iff.mp h
  have hparts : x.host = t.host ∧ x.packet = t.packet := by
    obtain ⟨buffer, -, rfl⟩ := Option.map_eq_some_iff.mp hx
    exact ⟨rfl, rfl⟩
  refine ⟨x, hexchange, hparts.1 ▸ hadmits.host x hx, fun args b hb => ?_⟩
  rw [hparts.2]
  apply hadmits.packet
  rw [Dialogue.Turn.response, hx, Option.bind_some, hb, Option.bind_some]

/-- A turn leaves the path of the server and the path of the client alone, or makes them agree. -/
theorem same_or_agree_of_turn {order : ByteOrder} {d d' : Directories} {t : Dialogue.Turn}
    (hadmits : Dialogue.Admits order Honest (Clear order) d t)
    (h : Dialogue.turn order d t = some d') :
    stringAt d'.server.currentPath 0 = stringAt d.server.currentPath 0 ∧ d'.client = d.client ∨
      d'.Agree := by
  obtain ⟨x, hexchange, ⟨hcdHonest, hlistHonest⟩, hclear⟩ := turn_exchange hadmits h
  obtain ⟨args, sent, hinvoke, hserver, hdeliver⟩ := exchange_eq_some hexchange
  have hcommand : (stringAt (x.args d).buffer 0).bind parseRequest = x.command := rfl
  rw [hcommand] at hcdHonest hlistHonest
  cases hc : x.command with
  | none =>
      rw [hc] at hinvoke
      cases hinvoke
      exact .inl ⟨by rw [hserver]; rfl, (Option.some.inj hdeliver).symm⟩
  | some c =>
      rw [hc, invoke_some] at hinvoke
      by_cases hcd : c = .cd
      · subst hcd
        obtain ⟨path, hresolved, hpath, ⟨-, rfl⟩ | ⟨hopen, response, b, hset, rfl, hser⟩⟩ :=
          cmdCd_eq_some hinvoke
        · have hkeep := (cdKeeps_iff order _ _).mpr (hcdHonest hc) args hinvoke
          exact .inl ⟨hserver ▸ hkeep, (Option.some.inj hdeliver).symm⟩
        · have hno := nul_notMem_of_stringAt hpath
          have hnul : x.packet.data[path.length]? = some 0 := by
            obtain ⟨request, hrequest, hparse⟩ := Option.bind_eq_some_iff.mp hc
            have hrequest' : stringAt (x.args d).buffer 0 = some request := hrequest
            have hhandled := handleRequest_of_handler hrequest' hparse hinvoke
            obtain ⟨packet, hdecoded, htype, hsize, -⟩ :=
              deserializePacket_of_serializePacket hser x.packet
            obtain ⟨htype', hsize', -⟩ := setPayloadString_spec hset
            have hdirectory : packet.type = packetDirectory := by
              refine UInt32.toNat_inj.mp (htype.trans ?_)
              rw [htype']
              rfl
            have hzero := hclear _ b hhandled packet hdecoded hdirectory
            rwa [hsize, hsize'] at hzero
          rw [deliver_directory d.client hno hset hser hnul] at hdeliver
          exact .inr ⟨path, hserver ▸ hpath, stringAt_strcpy hdeliver hno⟩
      · have hpath := handler_currentPath hcd hinvoke
        have hdir := deliver_of_sends hcd (fun heq => hlistHonest (heq ▸ hc))
          (handler_sends hinvoke) hdeliver
        exact .inl ⟨by rw [hserver, hpath]; rfl, hdir⟩

/-- A turn prompts with the path that it leaves the client. -/
theorem prompt_of_turn {order : ByteOrder} {d d' : Directories} {t : Dialogue.Turn}
    (h : Dialogue.turn order d t = some d') {dir : List UInt8}
    (hprompt : .prompt dir ∈ Dialogue.shows order d t) : dir = ofArray d'.client := by
  obtain ⟨buffer, sent, -, -, hdeliver, hresponse⟩ := Dialogue.parts_of_turn h
  rw [Dialogue.shows, hresponse] at hprompt
  cases sent with
  | none => simp at hprompt
  | some b =>
      obtain ⟨packet, hdecoded, hupdate⟩ := Option.bind_eq_some_iff.mp hdeliver
      simp only [Option.map_some, Option.getD_some, printedFor, hdecoded, hupdate, printed,
        List.mem_cons, reduceCtorEq, false_or] at hprompt
      split at hprompt
      · split at hprompt
        · simp at hprompt
        · simpa using hprompt
      · split at hprompt <;> simpa using hprompt

/-- Nothing but empty prompts. -/
def NoDirectory (es : List Event) : Prop := ∀ dir, .prompt dir ∈ es → dir = []

/-- The two paths of a dialogue, and what it has shown. -/
structure Kept (u : Directories × List Event) : Prop where
  same : AtHome u.1 ∧ NoDirectory u.2 ∨ u.1.Agree
  start : u.2 = [] → AtHome u.1

theorem kept_beginning (buffer : Vector UInt8 bufferSize) : Kept (beginning buffer, []) := by
  have hhome : AtHome (beginning buffer) :=
    ⟨stringAt_strncpy (by decide) (by decide), by rw [beginning]⟩
  exact { same := .inl ⟨hhome, fun _ hmem => by cases hmem⟩, start := fun _ => hhome }

theorem Kept.turn {order : ByteOrder} {d d' : Directories} {es : List Event} {t : Dialogue.Turn}
    (hadmits : Dialogue.Admits order Honest (Clear order) d t) (hkept : Kept (d, es))
    (h : Dialogue.turn order d t = some d') : Kept (d', es ++ Dialogue.shows order d t) := by
  refine { same := ?_, start := fun hnil => ?_ }
  · rcases same_or_agree_of_turn hadmits h with ⟨hserver, hclient⟩ | hagree
    · rcases hkept.same with ⟨⟨hhome, hzero⟩, hnone⟩ | ⟨path, hpath, hdir⟩
      · refine .inl ⟨⟨hserver.trans hhome, hclient.trans hzero⟩, fun dir hmem => ?_⟩
        rcases List.mem_append.mp hmem with hold | hnew
        · exact hnone dir hold
        · rw [prompt_of_turn h hnew, hclient, hzero]
          exact ofArray_of_stringAt (stringAt_replicate (by decide))
      · exact .inr ⟨path, hserver.trans hpath, hclient ▸ hdir⟩
    · exact .inr hagree
  · exact absurd (List.append_eq_nil_iff.mp hnil).2 (by simp [Dialogue.shows])

theorem kept_of_reaches {order : ByteOrder} {buffer : Vector UInt8 bufferSize} {d : Directories}
    {es : List Event}
    (h : Reaches (logged (Dialogue.turn order) (Dialogue.shows order))
      (fun u t => Dialogue.Admits order Honest (Clear order) u.1 t) (beginning buffer, [])
      (d, es)) : Kept (d, es) := by
  apply h.invariant (I := Kept) (kept_beginning buffer)
  rintro ⟨u, fs⟩ t ⟨v, gs⟩ hu hadmits hstep
  obtain ⟨hturn, rfl⟩ := logged_eq_some hstep
  exact hu.turn hadmits hturn

/-- Whenever the client reads a line, the prompt before it is the path of the session on the
server; or no CD has succeeded yet, that path is "." and every prompt so far was empty. -/
theorem prompt_is_server_path (order : ByteOrder) (line : List UInt8)
    (clientBuffer : Vector UInt8 packetBufferSize) (serverBuffer : Vector UInt8 bufferSize)
    (s : State) (es : List Event)
    (h : Reaches (logged (step order) (screen order))
      (fun u a => Whole Honest (Clear order) u.1 a)
      (init line clientBuffer serverBuffer, []) (s, es))
    (hreading : s.client.main = .reading) :
    ∃ path, stringAt s.server.args.currentPath 0 = some path ∧
      ((∃ fs, es = fs ++ [.prompt path]) ∨
        AtHome ⟨s.server.args, s.client.currentDir⟩ ∧ NoDirectory es ∧
          path = ascii ['.'] ∧ (es = [] ∨ ∃ fs, es = fs ++ [.prompt []])) := by
  obtain ⟨d, fs, hrun, hbehind⟩ := behind_of_reaches h
  obtain ⟨rfl, hquiet⟩ := hbehind.reading hreading
  have hkept := kept_of_reaches hrun
  have hlive : s.client.main ≠ .exited := by simp [hreading]
  have hprompted := hquiet.prompted hlive (.inr (by rw [hreading]; rfl))
  have hstart : NoDirectory [] := fun _ hmem => by cases hmem
  rw [hquiet.args, hquiet.dir]
  rw [hquiet.dir] at hprompted
  rcases hprompted with ⟨rfl, -⟩ | ⟨fs, hes⟩
  · exact ⟨_, (hkept.start rfl).1, .inr ⟨hkept.start rfl, hstart, rfl, .inl rfl⟩⟩
  · rcases hkept.same with ⟨⟨hhome, hzero⟩, hnone⟩ | ⟨path, hpath, hdir⟩
    · refine ⟨_, hhome, .inr ⟨⟨hhome, hzero⟩, hnone, rfl, .inr ⟨fs, ?_⟩⟩⟩
      have hempty : ofArray (Vector.replicate pathMax (0 : UInt8)) = [] :=
        ofArray_of_stringAt (stringAt_replicate (by decide))
      rw [hes, hzero, hempty]
    · exact ⟨path, hpath, .inl ⟨fs, by rw [hes, ofArray_of_stringAt hdir]⟩⟩

theorem prompt_is_server_path_cd :
    ∃ (s : State) (es : List Event) (path : List UInt8), s.client.main = .reading ∧ es ≠ [] ∧
      stringAt s.server.args.currentPath 0 = some path ∧
      ((∃ fs, es = fs ++ [.prompt path]) ∨
        AtHome ⟨s.server.args, s.client.currentDir⟩ ∧ NoDirectory es ∧
          path = ascii ['.'] ∧ (es = [] ∨ ∃ fs, es = fs ++ [.prompt []])) := by
  obtain ⟨s, es, hrun, hsome, hreading⟩ := cd_session
  obtain ⟨path, hpath, hprompt⟩ := prompt_is_server_path .little []
    (Vector.replicate packetBufferSize 0) (Vector.replicate bufferSize 0) s es hrun hreading
  exact ⟨s, es, path, hreading, hsome, hpath, hprompt⟩

end OsaspLabs.Lab8
