import OsaspLabs.Records.Input
import OsaspLabs.Records.Sessions

/-! # LAB_7 p2 on an input that ends

`main` reports that its `fgets` has failed and then runs the line that is still in `input`. -/

namespace OsaspLabs.Records

open Lines Runs

structure Console where
  session : Session
  stdin : List UInt8
  /-- The array of `main`. -/
  input : Buffer
  /-- The command lines that `main` has read, the last one first. -/
  lines : List Line
  /-- The lines that `main` has run, the last one first. -/
  commands : List Line

structure World where
  shared : Shared
  console : Console

/-- A step of `main`, and what it does not control. -/
structure Turn where
  /-- What the other processes have done since the step before. -/
  others : Shared → Shared
  garbage : Record
  /-- The array of `modify_record`. -/
  stack : Buffer

/-- What `modify_record` reads in a step that calls it; the other steps read nothing. -/
def Console.edit (c : Console) (stack : Buffer) : Option (Edit × List UInt8) :=
  match c.session.pc with
  | .addModify | .modModify => readEdit stack c.stdin
  | _ => some (noEdit, c.stdin)

/-- The process starts; its arrays hold anything. -/
def launch (shared : Shared) (session : Record × Record × Record) (input : Buffer)
    (stdin : List UInt8) : World where
  shared := shared
  console :=
    { session := .start session.1 session.2.1 session.2.2
      stdin := stdin
      input := input
      lines := []
      commands := [] }

/-- What a step can do. -/
inductive Consumes (k : ℕ) (s s' : World) (turn : Turn) : Prop where
  /-- A command line is read and run. -/
  | line (line : Line) (sh : Shared) (prompt : s.console.session.pc = .prompt)
      (more : s.console.stdin ≠ [])
      (dispatched : s'.console.session = (dispatch k line sh s.console.session).2)
      (stdin : s'.console.stdin = (takeLine 10 79 s.console.stdin).2)
      (lines : s'.console.lines = line :: s.console.lines)
      (commands : s'.console.commands = line :: s.console.commands)
  /-- The line before is run again. -/
  | stale (line : Line) (sh : Shared) (prompt : s.console.session.pc = .prompt)
      (exhausted : s.console.stdin = [])
      (text : line.text = textOf s.console.input)
      (dispatched : s'.console.session = (dispatch k line sh s.console.session).2)
      (stdin : s'.console.stdin = [])
      (input : textOf s'.console.input = textOf s.console.input)
      (lines : s'.console.lines = s.console.lines)
      (commands : s'.console.commands = line :: s.console.commands)
  /-- A step of a command. -/
  | inner (edit : Edit) (sh sh' : Shared) (busy : s.console.session.pc ≠ .prompt)
      (stepped : sessionStep k edit turn.garbage sh s.console.session =
        some (sh', s'.console.session))
      (stdin : s'.console.stdin.length ≤ s.console.stdin.length)
      (input : s'.console.input = s.console.input)
      (lines : s'.console.lines = s.console.lines)
      (commands : s'.console.commands = s.console.commands)

/-! ## One step -/

/-- The `fgets` of `main` finds a line. -/
def FindsLine (s : World) (_ : Turn) : Prop :=
  s.console.session.pc = .prompt → s.console.stdin ≠ []

instance (s : World) (turn : Turn) : Decidable (FindsLine s turn) :=
  inferInstanceAs (Decidable (s.console.session.pc = .prompt → s.console.stdin ≠ []))

theorem Consumes.length_le {k : ℕ} {s s' : World} {turn : Turn} (h : Consumes k s s' turn)
    (hle : s.console.lines.length ≤ s.console.commands.length) :
    s'.console.lines.length ≤ s'.console.commands.length := by
  cases h with
  | line line sh prompt more dispatched stdin lines commands =>
      rw [lines, commands]
      exact Nat.succ_le_succ hle
  | stale line sh prompt exhausted text dispatched stdin input lines commands =>
      rw [lines, commands]
      exact Nat.le_succ_of_le hle
  | inner edit sh sh' busy stepped stdin input lines commands =>
      rw [lines, commands]
      exact hle

/-- With the condition the commands are the lines, and each line took something of the input. -/
theorem Consumes.keeps {k : ℕ} {s s' : World} {turn : Turn} (h : Consumes k s s' turn)
    (hfinds : FindsLine s turn) (heq : s.console.commands = s.console.lines) :
    s'.console.commands = s'.console.lines ∧
      s'.console.lines.length + s'.console.stdin.length ≤
        s.console.lines.length + s.console.stdin.length := by
  cases h with
  | line line sh prompt more dispatched stdin lines commands =>
      have hless : (takeLine 10 79 s.console.stdin).2.length < s.console.stdin.length :=
        length_rest_lt (by decide) more
      rw [lines, commands, stdin, heq, List.length_cons]
      exact ⟨rfl, by omega⟩
  | stale line sh prompt exhausted text dispatched stdin input lines commands =>
      exact absurd exhausted (hfinds prompt)
  | inner edit sh sh' busy stepped stdin input lines commands =>
      rw [lines, commands]
      exact ⟨heq, Nat.add_le_add_left stdin _⟩

section Runs

variable {k : ℕ} {shared : Shared} {session : Record × Record × Record} {input : Buffer}
  {stdin : List UInt8} {s : World}

end Runs

/-! ## The end of the loop -/

/-- How many steps a command has before it at most. -/
def Pc.rank : Pc → ℕ
  | .prompt | .closed => 0
  | .getRead | .modUnlock _ | .unlock => 1
  | .write _ | .modRead => 2
  | .lseek _ | .modLock => 3
  | .putLock | .modTest | .addModify => 4
  | .putTest | .addLock | .modModify => 5
  | .addTest => 6
  | .list i => 1 + (numRecords - i)
  | .addScan i => 7 + (numRecords - i)

/-- How many steps `main` has before it at most, each `AGAIN` apart. -/
def Console.left (c : Console) : ℕ := 23 * c.stdin.length + c.session.pc.rank

end OsaspLabs.Records
