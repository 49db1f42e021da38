import OsaspLabs.Lab8.Commands

/-! # The grammar of LAB_8 requests

A request is a command and its argument. `parse_request` looks for the names of the commands
anywhere in the request, one after the other. -/

namespace OsaspLabs.Lab8

open Memory CString

/-- The first word of a request, words being separated by blanks. -/
def firstWord (request : List UInt8) : List UInt8 :=
  (request.dropWhile (· == 32)).takeWhile (· != 32)

/-- The command that the first word names. -/
def commandOf (request : List UInt8) : Option Cmd :=
  (cmds.find? fun c => c.2 = firstWord request).map Prod.fst

/-- The first word alone chooses the command and its handler. -/
structure ParsedByFirstWord (request : List UInt8) : Prop where
  command : ∀ c ∈ cmds, parseRequest request = some c.1 ↔ firstWord request = c.2
  other : parseRequest request = none ↔ ∀ c ∈ cmds, firstWord request ≠ c.2
  handler : ∀ (order : ByteOrder) (host : Host) (args : Args),
    invoke order host (parseRequest request) args = invoke order host (commandOf request) args

/-- No name that is looked for before the one of the first word stands in the request. -/
def NamesFirst (request : List UInt8) : Prop :=
  (∀ c ∈ cmds, ¬ c.2 <:+: request) ∨
    ∃ c front back, cmds = front ++ c :: back ∧ firstWord request = c.2 ∧
      ∀ d ∈ front, ¬ d.2 <:+: request

theorem firstWord_infix (request : List UInt8) : firstWord request <:+: request :=
  (List.takeWhile_prefix _).isInfix.trans (List.dropWhile_suffix _).isInfix

/-- The commands and their names determine each other. -/
theorem cmds_inj : ∀ c ∈ cmds, ∀ d ∈ cmds, (c.1 = d.1 ↔ c = d) ∧ (c.2 = d.2 ↔ c = d) := by
  decide

theorem parseRequest_eq_none {request : List UInt8} :
    parseRequest request = none ↔ ∀ c ∈ cmds, ¬ c.2 <:+: request := by
  simp [parseRequest, strstr]

theorem parseRequest_eq_some {request : List UInt8} {c : Cmd × List UInt8} (hc : c ∈ cmds) :
    parseRequest request = some c.1 ↔
      c.2 <:+: request ∧ ∃ front back, cmds = front ++ c :: back ∧
        ∀ d ∈ front, ¬ d.2 <:+: request := by
  rw [parseRequest, Option.map_eq_some_iff]
  constructor
  · rintro ⟨d, hd, heq⟩
    obtain rfl := ((cmds_inj d (List.mem_of_find?_eq_some hd) c hc).1.mp heq)
    simpa [strstr] using List.find?_eq_some_iff_append.mp hd
  · intro h
    exact ⟨c, List.find?_eq_some_iff_append.mpr (by simpa [strstr] using h), rfl⟩

theorem commandOf_eq_some {request : List UInt8} {c : Cmd × List UInt8} (hc : c ∈ cmds)
    (h : firstWord request = c.2) : commandOf request = some c.1 := by
  have hfind : ∀ d ∈ cmds, (cmds.find? fun e => e.2 = d.2).map Prod.fst = some d.1 := by decide
  rw [commandOf, h]
  exact hfind c hc

theorem commandOf_eq_none {request : List UInt8} (h : ∀ c ∈ cmds, firstWord request ≠ c.2) :
    commandOf request = none := by
  rw [commandOf, Option.map_eq_none_iff, List.find?_eq_none]
  exact fun c hc heq => h c hc (of_decide_eq_true heq).symm

/-- The first word alone decides exactly when it names the first command that is found. -/
theorem parsed_by_first_word_iff (request : List UInt8) :
    ParsedByFirstWord request ↔ NamesFirst request := by
  constructor
  · intro h
    cases hparse : parseRequest request with
    | none => exact .inl (parseRequest_eq_none.mp hparse)
    | some command =>
        obtain ⟨c, hfind, rfl⟩ := Option.map_eq_some_iff.mp hparse
        have hc := List.mem_of_find?_eq_some hfind
        obtain ⟨_, front, back, hcmds, hfront⟩ := (parseRequest_eq_some hc).mp hparse
        exact .inr ⟨c, front, back, hcmds, (h.command c hc).mp hparse, hfront⟩
  · intro h
    have hnone : (∀ c ∈ cmds, ¬ c.2 <:+: request) → ∀ c ∈ cmds, firstWord request ≠ c.2 :=
      fun habsent c hc heq => habsent c hc (heq ▸ firstWord_infix request)
    rcases h with habsent | ⟨c, front, back, hcmds, hword, hfront⟩
    · have hparse := parseRequest_eq_none.mpr habsent
      have hother := hnone habsent
      refine ⟨fun d hd => ?_, iff_of_true hparse hother, fun order host args => ?_⟩
      · rw [hparse]
        exact iff_of_false nofun (hother d hd)
      · rw [hparse, commandOf_eq_none hother]
    · have hc : c ∈ cmds := by simp [hcmds]
      have hparse : parseRequest request = some c.1 :=
        (parseRequest_eq_some hc).mpr
          ⟨hword ▸ firstWord_infix request, front, back, hcmds, hfront⟩
      refine ⟨fun d hd => ?_, ?_, fun order host args => ?_⟩
      · rw [hparse, hword, Option.some.injEq, (cmds_inj c hc d hd).1, (cmds_inj c hc d hd).2]
      · rw [hparse]
        exact iff_of_false nofun fun hother => hother c hc hword
      · rw [hparse, commandOf_eq_some hc hword]

/-- "CD ECHOES" is answered by ECHO. -/
theorem echoes_not_a_directory :
    firstWord (ascii ['C', 'D', ' ', 'E', 'C', 'H', 'O', 'E', 'S']) = ascii ['C', 'D'] ∧
      parseRequest (ascii ['C', 'D', ' ', 'E', 'C', 'H', 'O', 'E', 'S']) = some .echo ∧
      ¬ ParsedByFirstWord (ascii ['C', 'D', ' ', 'E', 'C', 'H', 'O', 'E', 'S']) := by
  refine ⟨by decide, by decide, fun h => ?_⟩
  have hcd := (h.command (.cd, ascii ['C', 'D']) (by decide)).mpr (by decide)
  exact absurd hcd (by decide)

end OsaspLabs.Lab8
