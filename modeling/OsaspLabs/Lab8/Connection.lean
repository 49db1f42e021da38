import OsaspLabs.Lab8.Uninitialised

/-! # The end of a LAB_8 connection

The server keeps the result of `recv` in a `size_t` before it compares it with 0. A handler that
leaves its objects is taken to return with any memory. -/

namespace OsaspLabs.Lab8

open Memory CString

/-- A result of `recv` on the socket of a client. -/
inductive Received where
  | bytes (text : List UInt8) (nonempty : text ≠ []) (fits : text.length ≤ bufferSize)
  /-- It returns 0. -/
  | closed
  /-- It returns -1. -/
  | error

def Received.text : Received → List UInt8
  | .bytes text _ _ => text
  | .closed | .error => []

/-- The result as a `size_t`. -/
def Received.readSize : Received → ℕ
  | .bytes text _ _ => text.length
  | .closed => 0
  | .error => 2 ^ 64 - 1

def Received.isRequest : Received → Bool
  | .bytes _ _ _ => true
  | .closed | .error => false

/-- A call of `recv` and what follows it. -/
structure Turn where
  received : Received
  host : Host
  /-- What `parse_request` finds if no NUL ends the buffer. -/
  beyond : Option Cmd
  /-- What memory holds if the handler leaves its objects. -/
  after : Args

/-- `recv` stores what it got over the first bytes of the buffer. -/
def receive (args : Args) (r : Received) : Args :=
  { args with buffer := (store args.buffer 0 r.text).getD args.buffer, readBytes := r.readSize }

/-- What `parse_request` finds in the buffer. -/
def Turn.command (turn : Turn) (buffer : Vector UInt8 bufferSize) : Option Cmd :=
  match stringAt buffer 0 with
  | some request => parseRequest request
  | none => turn.beyond

/-- The buffer after `memset`. -/
def clearBuffer : Vector UInt8 bufferSize := Vector.replicate bufferSize 0

/-- What `handle_server_msg` does besides `recv`. -/
inductive HandlerEffect where
  | invoke (command : Option Cmd) (args : Args)
  /-- `close(client_socket)` -/
  | close

/-- The loop of `handle_server_msg`; without a further result it waits in `recv`. -/
def handleServerMsg (order : ByteOrder) : Args → List Turn → List HandlerEffect
  | _, [] => []
  | args, turn :: turns =>
      if 0 < turn.received.readSize then
        let args := receive args turn.received
        let command := turn.command args.buffer
        let after :=
          match invoke order turn.host command args with
          | some (args, _) => args
          | none => turn.after
        .invoke command args :: handleServerMsg order { after with buffer := clearBuffer } turns
      else [.close]

/-- A round that stays in its objects leaves what `handleRequest` leaves. -/
theorem handleServerMsg_of_handleRequest {order : ByteOrder} {args args' : Args} {turn : Turn}
    {sent : Option Wire} (turns : List Turn) (hpos : 0 < turn.received.readSize)
    (h : handleRequest order turn.host (receive args turn.received) = some (args', sent)) :
    handleServerMsg order args (turn :: turns) =
      .invoke (turn.command (receive args turn.received).buffer) (receive args turn.received) ::
        handleServerMsg order args' turns := by
  simp only [handleRequest, Option.bind_eq_bind, Option.bind_eq_some_iff] at h
  obtain ⟨request, hrequest, ⟨args₁, sent₁⟩, hinvoke, heq⟩ := h
  cases heq
  have hcommand : turn.command (receive args turn.received).buffer = parseRequest request := by
    rw [Turn.command, hrequest]
  rw [handleServerMsg, if_pos hpos]
  simp only [hcommand, hinvoke, clearBuffer]

/-! ## What it should do -/

/-- `invoke` gets the bytes of a request and their number, with the command in the buffer. -/
structure Passes (r : Received) (command : Option Cmd) (args : Args) : Prop where
  readBytes : args.readBytes = r.text.length
  text : args.buffer.toList.take r.text.length = r.text
  found : ∀ request, stringAt args.buffer 0 = some request → command = parseRequest request

/-- The text of a request as the string that it is by itself. -/
def Received.string (r : Received) : List UInt8 := r.text.takeWhile (· != 0)

/-- The command too is the one of the request, whatever else the buffer holds. -/
structure PassesAlone (r : Received) (command : Option Cmd) (args : Args)
    extends passes : Passes r command args where
  own : command = parseRequest r.string

/-- The calls of `invoke`, in order, are those of the requests before the first end of the
connection, and the socket is closed behind them when there is one. -/
def StopsAtEnd (P : Received → Option Cmd → Args → Prop) (results : List Received)
    (effects : List HandlerEffect) : Prop :=
  ∃ calls : List (Option Cmd × Args),
    List.Forall₂ (fun r call => P r call.1 call.2) (results.takeWhile Received.isRequest) calls ∧
    effects = (calls.map fun call => .invoke call.1 call.2) ++
      if results.all Received.isRequest then [] else [.close]

/-- The first result that is 0 or -1. -/
def firstEnd (results : List Received) : Option Received := results.find? (! ·.isRequest)

/-- Nothing that the buffer holds besides a request changes its command. -/
def ReadAlone (buffer : Vector UInt8 bufferSize) : List Turn → Prop
  | [] => True
  | turn :: turns => turn.received.isRequest = true →
      turn.command ((store buffer 0 turn.received.text).getD buffer) =
        parseRequest turn.received.string ∧
      ReadAlone clearBuffer turns

section
variable {P : Received → Option Cmd → Args → Prop}

theorem stopsAtEnd_nil : StopsAtEnd P [] [] := ⟨[], .nil, rfl⟩

/-- At an end of the connection nothing but the close is due. -/
theorem stopsAtEnd_end {r : Received} (hend : r.isRequest = false) (results : List Received)
    (effects : List HandlerEffect) : StopsAtEnd P (r :: results) effects ↔ effects = [.close] := by
  have hnone : (r :: results).takeWhile Received.isRequest = [] := by
    rw [List.takeWhile_cons_of_neg (by simp [hend])]
  have hsome : (r :: results).all Received.isRequest = false := by simp [hend]
  unfold StopsAtEnd
  rw [hnone, hsome]
  constructor
  · rintro ⟨calls, hcalls, rfl⟩
    cases hcalls
    rfl
  · rintro rfl
    exact ⟨[], .nil, rfl⟩

/-- A request is due first. -/
theorem stopsAtEnd_request {r : Received} (hrequest : r.isRequest = true)
    (results : List Received) (command : Option Cmd) (args : Args) (effects : List HandlerEffect) :
    StopsAtEnd P (r :: results) (.invoke command args :: effects) ↔
      P r command args ∧ StopsAtEnd P results effects := by
  have hall : (r :: results).all Received.isRequest = results.all Received.isRequest := by
    rw [List.all_cons, hrequest, Bool.true_and]
  unfold StopsAtEnd
  rw [List.takeWhile_cons_of_pos hrequest, hall]
  constructor
  · rintro ⟨_, hcalls, heffects⟩
    cases hcalls with
    | @cons _ call _ calls hcall hrest =>
        rw [List.map_cons, List.cons_append, List.cons_eq_cons] at heffects
        obtain ⟨hfirst, hlater⟩ := heffects
        cases hfirst
        exact ⟨hcall, calls, hrest, hlater⟩
  · rintro ⟨hcall, calls, hrest, rfl⟩
    exact ⟨(command, args) :: calls, .cons hcall hrest, rfl⟩

end

/-! ## What is passed on -/

/-- There is room for what `recv` got. -/
theorem receive_buffer (args : Args) (r : Received) :
    ∃ buffer, store args.buffer 0 r.text = some buffer ∧ (receive args r).buffer = buffer := by
  have hfits : r.text.length ≤ bufferSize := by
    cases r with
    | bytes text nonempty fits => exact fits
    | closed | error => exact Nat.zero_le _
  obtain ⟨buffer, hstore⟩ := store_isSome args.buffer (k := 0) (v := r.text) (by omega)
  exact ⟨buffer, hstore, by rw [receive, hstore, Option.getD_some]⟩

/-- A request is passed on as it came. -/
theorem passes_receive {r : Received} (hrequest : r.isRequest = true) (args : Args)
    (turn : Turn) : Passes r (turn.command (receive args r).buffer) (receive args r) := by
  obtain ⟨buffer, hstore, hbuffer⟩ := receive_buffer args r
  refine ⟨?_, ?_, fun request hstring => ?_⟩
  · cases r with
    | bytes text nonempty fits => rfl
    | closed | error => cases hrequest
  · rw [hbuffer, toList_store hstore, List.take_zero, List.nil_append, List.take_left' rfl]
  · rw [Turn.command, hstring]

theorem readSize_pos {r : Received} (hrequest : r.isRequest = true) : 0 < r.readSize := by
  cases r with
  | bytes text nonempty fits => exact List.length_pos_iff.mpr nonempty
  | closed | error => cases hrequest

theorem firstEnd_cons_request {r : Received} (hrequest : r.isRequest = true)
    (results : List Received) : firstEnd (r :: results) = firstEnd results := by
  rw [firstEnd, List.find?_cons_of_neg (by simp [hrequest]), firstEnd]

/-- If what `P` asks for beside the bytes is `Q`, the handler keeps to it up to an error. -/
theorem stopsAtEnd_handleServerMsg_iff {P : Received → Option Cmd → Args → Prop}
    {Q : Vector UInt8 bufferSize → List Turn → Prop} (order : ByteOrder)
    (hnil : ∀ buffer, Q buffer [])
    (hend : ∀ buffer turn turns, turn.received.isRequest = false → Q buffer (turn :: turns))
    (hrequest : ∀ args turn turns, turn.received.isRequest = true →
      (Q args.buffer (turn :: turns) ↔
        P turn.received (turn.command (receive args turn.received).buffer)
          (receive args turn.received) ∧ Q clearBuffer turns))
    (args : Args) (turns : List Turn) :
    StopsAtEnd P (turns.map Turn.received) (handleServerMsg order args turns) ↔
      firstEnd (turns.map Turn.received) ≠ some .error ∧ Q args.buffer turns := by
  induction turns generalizing args with
  | nil =>
      have hquiet : firstEnd ([].map Turn.received) ≠ some .error := by simp [firstEnd]
      exact iff_of_true stopsAtEnd_nil ⟨hquiet, hnil args.buffer⟩
  | cons turn turns ih =>
      rw [handleServerMsg, List.map_cons]
      cases hreceived : turn.received with
      | bytes text nonempty fits =>
          have hasked : turn.received.isRequest = true := by rw [hreceived]; rfl
          rw [← hreceived, if_pos (readSize_pos hasked), firstEnd_cons_request hasked,
            stopsAtEnd_request hasked, ih, hrequest args turn turns hasked]
          exact and_left_comm
      | closed =>
          have hquiet : firstEnd (.closed :: turns.map Turn.received) ≠ some .error := by
            simp [firstEnd, Received.isRequest]
          rw [if_neg (by decide), stopsAtEnd_end rfl]
          exact iff_of_true rfl ⟨hquiet, hend args.buffer turn turns (by rw [hreceived]; rfl)⟩
      | error =>
          -- the result passes for a number of bytes, and `invoke` is called
          rw [if_pos (by decide), stopsAtEnd_end rfl]
          exact iff_of_false (fun heffects => by cases heffects) fun h =>
            h.1 (by simp [firstEnd, Received.isRequest])

/-- In a clear buffer a request that leaves a byte free ends in a NUL. -/
theorem stringAt_clearBuffer {text : List UInt8} (hshort : text.length < bufferSize) :
    stringAt ((store clearBuffer 0 text).getD clearBuffer) 0 =
      some (text.takeWhile (· != 0)) := by
  obtain ⟨buffer, hstore⟩ := store_isSome clearBuffer (k := 0) (v := text) (by omega)
  have hlist : buffer.toList = text ++ List.replicate (bufferSize - text.length) 0 := by
    rw [toList_store hstore, clearBuffer, Vector.toList_replicate, List.take_zero,
      List.nil_append, List.drop_replicate, Nat.zero_add]
  have htake : buffer.toList.takeWhile (· != 0) = text.takeWhile (· != 0) := by
    rw [hlist, List.takeWhile_append]
    split
    · rename_i hall
      rw [(List.takeWhile_prefix _).eq_of_length hall, List.takeWhile_replicate,
        if_neg (by decide), List.append_nil]
    · rfl
  have hlt : (text.takeWhile (· != 0)).length < buffer.toList.length := by
    have hle := (List.takeWhile_prefix (· != (0 : UInt8)) (l := text)).length_le
    rw [Vector.length_toList]
    omega
  rw [hstore, Option.getD_some, stringAt, List.drop_zero, htake, if_pos hlt]

/-- Once the buffer is clear, only a request that fills it may be misread. -/
theorem readAlone_clearBuffer {turns : List Turn}
    (hshort : ∀ turn ∈ turns, turn.received.text.length < bufferSize) :
    ReadAlone clearBuffer turns := by
  induction turns with
  | nil => trivial
  | cons turn turns ih =>
      intro _
      refine ⟨?_, ih fun later hlater => hshort later (List.mem_cons_of_mem turn hlater)⟩
      rw [Turn.command, stringAt_clearBuffer (hshort turn List.mem_cons_self)]
      rfl

/-- The handler stops with its connection exactly if the connection ends in good order. Requests
count by their own texts alone exactly if nothing else in the buffer changes a command, which
after the first one takes a request that fills the buffer. -/
theorem stops_at_end_iff (order : ByteOrder) (args : Args) (turns : List Turn) :
    (StopsAtEnd Passes (turns.map Turn.received) (handleServerMsg order args turns) ↔
      firstEnd (turns.map Turn.received) ≠ some .error) ∧
    (StopsAtEnd PassesAlone (turns.map Turn.received) (handleServerMsg order args turns) ↔
      firstEnd (turns.map Turn.received) ≠ some .error ∧ ReadAlone args.buffer turns) ∧
    ((∀ turn ∈ turns, turn.received.text.length < bufferSize) → ReadAlone clearBuffer turns) := by
  refine ⟨?_, ?_, readAlone_clearBuffer⟩
  · have hiff := stopsAtEnd_handleServerMsg_iff (P := Passes) (Q := fun _ _ => True) order
      (fun _ => trivial) (fun _ _ _ _ => trivial)
      (fun args turn _ hasked => iff_of_true trivial ⟨passes_receive hasked args turn, trivial⟩)
      args turns
    rw [hiff, and_iff_left trivial]
  · refine stopsAtEnd_handleServerMsg_iff order (fun _ => trivial) ?_ ?_ args turns
    · intro buffer turn turns hend hasked
      rw [hend] at hasked
      cases hasked
    · intro args turn turns hasked
      constructor
      · intro halone
        obtain ⟨hown, hrest⟩ := halone hasked
        exact ⟨⟨passes_receive hasked args turn, hown⟩, hrest⟩
      · rintro ⟨hpasses, hrest⟩ -
        exact ⟨hpasses.own, hrest⟩

def errorTurn : Turn := ⟨.error, plainHost, none, initialArgs clearBuffer⟩

/-- After an error the handler calls `invoke` and waits in `recv` again. -/
theorem goes_on_after_error :
    (∃ command args, handleServerMsg .little (initialArgs clearBuffer) [errorTurn] =
      [.invoke command args]) ∧
    ¬ StopsAtEnd Passes [.error]
      (handleServerMsg .little (initialArgs clearBuffer) [errorTurn]) := by
  have hrun : ∃ command args, handleServerMsg .little (initialArgs clearBuffer) [errorTurn] =
      [.invoke command args] := by
    rw [handleServerMsg, if_pos (by decide)]
    exact ⟨_, _, rfl⟩
  refine ⟨hrun, ?_⟩
  obtain ⟨command, args, heffects⟩ := hrun
  rw [heffects, stopsAtEnd_end rfl]
  intro hclose
  cases hclose

end OsaspLabs.Lab8
