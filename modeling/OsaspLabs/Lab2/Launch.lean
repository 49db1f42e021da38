import Mathlib.Data.Nat.Digits.Defs
import OsaspLabs.Lab2.Environment
import OsaspLabs.Library.Lines

/-! # The runs of LAB_2

The parent starts a child for each command that is typed. The child prints the variables that are
named in a file, out of the environment that the parent has sorted. -/

namespace OsaspLabs.Lab2

open CString Lines

/-! ## The child -/

/-- What the parent sees of a program that it has started. -/
inductive Answer where
  /-- `execve` returns. -/
  | failed
  /-- Another program runs. -/
  | other (path : List UInt8)
  /-- The child does not have two arguments. -/
  | usage
  | noFile
  /-- The name of the child, and each variable with its value. -/
  | printed (name : List UInt8) (values : List (List UInt8 × Option (List UInt8)))
  deriving DecidableEq

/-- What a path names. -/
inductive Program where
  /-- Nothing that can be executed. -/
  | none
  | child
  | other
  deriving DecidableEq

structure System where
  program : List UInt8 → Program
  /-- What stands in a file that can be opened. -/
  fopen : List UInt8 → Option (List UInt8)
  /-- Whether a call of `fork` succeeds. -/
  fork : ℕ → Bool
  /-- `args` has no null pointer at its end: the strings behind it up to one, if the pointers there
  are valid. -/
  behind : ℕ → Option (List (List UInt8))
  /-- What `child_name` holds first. -/
  stack : Vector UInt8 10

/-- The loop over `fgets(buffer, 256, file)`; the first argument bounds the number of turns. -/
def readNames : ℕ → List UInt8 → List (List UInt8)
  | 0, _ => []
  | _ + 1, [] => []
  | fuel + 1, c :: s =>
      let (line, rest) := takeLine 10 255 (c :: s)
      (line.takeWhile fun c => c != 0 && c != 10) :: readNames fuel rest

def childMain (sys : System) (argv environ : List (List UInt8)) : Answer :=
  match argv with
  | [name, fileEnvp] =>
      match sys.fopen fileEnvp with
      | none => .noFile
      | some content =>
          .printed name
            ((readNames content.length content).map fun buffer => (buffer, getenv environ buffer))
  | _ => .usage

/-- `args` is what `main` has put into its array of that name. -/
def execve (sys : System) (count : ℕ) (childProcess : Option (List UInt8))
    (args envp : List (List UInt8)) : Answer :=
  match childProcess, sys.behind count with
  | some path, some behind =>
      match sys.program path with
      | .none => .failed
      | .child => childMain sys (args ++ behind) envp
      | .other => .other path
  | _, _ => .failed

/-! ## The parent -/

structure Child where
  name : List UInt8
  path : Option (List UInt8)
  answer : Answer
  deriving DecidableEq

inductive Ended where
  /-- `q`, with the keyboard left as `fix_keyboard` has set it. -/
  | quit
  | eof
  | forkFailed
  deriving DecidableEq

/-- `"child_%zu"`. -/
def childName (count : ℕ) : List UInt8 :=
  ascii ['c', 'h', 'i', 'l', 'd', '_'] ++ ascii (Nat.toDigits 10 count)

/-- The loop over the characters that are typed. It has no result if `sprintf` writes past the end
of `child_name`. -/
def runKeys (sys : System) (arg : List UInt8) (envp : List (List UInt8)) :
    ℕ → List Char → Option (List Child × Ended)
  | _, [] => some ([], .eof)
  | count, opt :: keys =>
      if opt = 'q' then some ([], .quit)
      else if opt ≠ '+' ∧ opt ≠ '*' ∧ opt ≠ '&' then runKeys sys arg envp count keys
      else do
        let path := childProcess opt envp envp
        let buffer ← strcpy sys.stack (childName count)
        let name ← stringAt buffer 0
        if sys.fork count then
          let (children, ended) ← runKeys sys arg envp (count + 1) keys
          some (⟨name, path, execve sys count path [name, arg] envp⟩ :: children, ended)
        else some ([], .forkFailed)

structure Run where
  /-- The variables that `print_env` prints. -/
  printed : List (List UInt8)
  children : List Child
  ended : Ended

inductive Outcome where
  /-- The program does not have two arguments. -/
  | usage
  | ran (run : Run)

def parentMain (sys : System) (argv envp : List (List UInt8)) (keys : List Char) :
    Option Outcome :=
  match argv with
  | [_, arg] => do
      let envp := printEnv envp
      let (children, ended) ← runKeys sys arg envp 0 keys
      some (.ran ⟨envp, children, ended⟩)
  | _ => some .usage

/-! ## The sorted environment -/

section Sorted

variable {α : Type*} {r r' : α → α → Prop} [DecidableRel r] [DecidableRel r'] {l : List α}

theorem orderedInsert_congr {a : α} (h : ∀ b ∈ l, r a b ↔ r' a b) :
    l.orderedInsert r a = l.orderedInsert r' a := by
  induction l with
  | nil => rfl
  | cons b l ih =>
      obtain ⟨hb, hl⟩ := List.forall_mem_cons.mp h
      simp only [List.orderedInsert_cons, hb, ih hl]

/-- Only the order of the elements that are there matters. -/
theorem insertionSort_congr (h : ∀ a ∈ l, ∀ b ∈ l, r a b ↔ r' a b) :
    l.insertionSort r = l.insertionSort r' := by
  induction l with
  | nil => rfl
  | cons a l ih =>
      have htail := ih fun b hb c hc =>
        h b (List.mem_cons_of_mem a hb) c (List.mem_cons_of_mem a hc)
      rw [List.insertionSort_cons, List.insertionSort_cons, htail]
      apply orderedInsert_congr
      intro b hb
      exact h a List.mem_cons_self b
        (List.mem_cons_of_mem a ((List.perm_insertionSort r' l).mem_iff.mp hb))

end Sorted

/-- On strings `strcmp` is the lexicographic order. -/
theorem strcmp_nonpos_iff {s : List UInt8} (hs : 0 ∉ s) (t : List UInt8) :
    strcmp s t ≤ 0 ↔ s ≤ t := by
  induction s generalizing t with
  | nil => cases t <;> simp [strcmp]
  | cons c s ih =>
      obtain ⟨hc, hs⟩ := not_or.mp (List.mem_cons.not.mp hs)
      cases t with
      | nil =>
          have hpos : 0 < c.toNat := Nat.pos_of_ne_zero fun h => hc (UInt8.toNat_inj.mp h).symm
          simp [strcmp]
          omega
      | cons d t =>
          rw [strcmp, List.cons_le_cons_iff]
          split
          · rename_i heq
            simp [heq, ih hs]
          · rename_i hne
            have hlt : (c.toNat : ℤ) - d.toNat ≤ 0 ↔ c < d := by
              rw [UInt8.lt_iff_toNat_lt]
              have hnat : c.toNat ≠ d.toNat := fun h => hne (UInt8.toNat_inj.mp h)
              omega
            simp [hlt, hne]

theorem pairwise_printEnv {envp : List (List UInt8)} (h : ∀ s ∈ envp, 0 ∉ s) :
    (printEnv envp).Pairwise (· ≤ ·) := by
  have hsort : printEnv envp = envp.insertionSort (· ≤ ·) :=
    insertionSort_congr fun s hs t _ => strcmp_nonpos_iff (h s hs) t
  rw [hsort]
  exact List.pairwise_insertionSort _ _

/-! ## The names of the variables -/

/-- A line that the child reads whole and can look up. -/
structure Readable (line : List UInt8) : Prop where
  fits : line.length < 255
  newline_notMem : 10 ∉ line
  nul_notMem : 0 ∉ line
  equals_notMem : 61 ∉ line

def unlines (lines : List (List UInt8)) : List UInt8 := lines.flatMap (· ++ [10])

/-- The lines of a file whose last one may lack its newline. -/
def HoldsLines (content : List UInt8) (lines : List (List UInt8)) : Prop :=
  content = unlines lines ∨
    ∃ front last, lines = front ++ [last] ∧ last ≠ [] ∧ content = unlines front ++ last

theorem readNames_succ (fuel : ℕ) {s : List UInt8} (hs : s ≠ []) :
    readNames (fuel + 1) s =
      ((takeLine 10 255 s).1.takeWhile fun c => c != 0 && c != 10) ::
        readNames fuel (takeLine 10 255 s).2 := by
  cases s with
  | nil => exact absurd rfl hs
  | cons c s => rfl

theorem Readable.takeWhile_append {line : List UInt8} (h : Readable line) (s : List UInt8) :
    (line ++ s).takeWhile (fun c => c != 0 && c != 10) =
      line ++ s.takeWhile fun c => c != 0 && c != 10 := by
  apply List.takeWhile_append_of_pos
  intro c hc
  simp [ne_of_mem_of_not_mem hc h.nul_notMem, ne_of_mem_of_not_mem hc h.newline_notMem]

/-- The lines with a newline are read first, and then what is left. -/
theorem readNames_append {lines : List (List UInt8)} (h : ∀ line ∈ lines, Readable line)
    {rest : List UInt8} {fuel : ℕ} (hfuel : (unlines lines ++ rest).length ≤ fuel) :
    ∃ fuel', rest.length ≤ fuel' ∧
      readNames fuel (unlines lines ++ rest) = lines ++ readNames fuel' rest := by
  induction lines generalizing fuel with
  | nil => exact ⟨fuel, hfuel, rfl⟩
  | cons line lines ih =>
      obtain ⟨hline, hlines⟩ := List.forall_mem_cons.mp h
      have hsplit : unlines (line :: lines) ++ rest = line ++ 10 :: (unlines lines ++ rest) := by
        simp [unlines]
      rw [hsplit, List.length_append, List.length_cons] at hfuel
      obtain ⟨fuel, rfl⟩ : ∃ n, fuel = n + 1 := ⟨fuel - 1, by omega⟩
      have htake := takeLine_of_lt hline.newline_notMem hline.fits (unlines lines ++ rest)
      obtain ⟨fuel', hle, hrest⟩ := @ih hlines fuel (by omega)
      refine ⟨fuel', hle, ?_⟩
      rw [hsplit, readNames_succ fuel (by simp), htake, hline.takeWhile_append, hrest]
      simp

/-- The child reads the lines of the file. -/
theorem readNames_of_holdsLines {content : List UInt8} {lines : List (List UInt8)}
    (hcontent : HoldsLines content lines) (h : ∀ line ∈ lines, Readable line) :
    readNames content.length content = lines := by
  rcases hcontent with rfl | ⟨front, last, rfl, hne, rfl⟩
  · obtain ⟨fuel, -, hread⟩ := @readNames_append lines h [] (unlines lines).length
      (Nat.le_of_eq (congrArg List.length (List.append_nil (unlines lines))))
    have hend : readNames fuel [] = [] := by cases fuel <;> rfl
    rwa [List.append_nil, hend, List.append_nil] at hread
  · obtain ⟨hfront, hlast⟩ := List.forall_mem_append.mp h
    have hlast := hlast last (List.mem_singleton_self last)
    obtain ⟨fuel, hle, hread⟩ :=
      readNames_append hfront (Nat.le_refl (unlines front ++ last).length)
    obtain ⟨fuel, rfl⟩ : ∃ n, fuel = n + 1 :=
      ⟨fuel - 1, by have hpos := List.length_pos_iff.mpr hne; omega⟩
    have htake := takeLine_eq_self hlast.newline_notMem (Nat.le_of_lt hlast.fits)
    have hwhole := hlast.takeWhile_append []
    have hend : readNames fuel [] = [] := by cases fuel <;> rfl
    rw [List.append_nil, List.takeWhile_nil, List.append_nil] at hwhole
    rw [hread, readNames_succ fuel hne, htake, hwhole, hend]

/-! ## The launches -/

/-- The commands typed before `q`. -/
def started (keys : List Char) : List Char :=
  (keys.takeWhile (· != 'q')).filter fun opt => opt == '+' || opt == '*' || opt == '&'

theorem started_cons (opt : Char) (keys : List Char) :
    started (opt :: keys) =
      if opt = 'q' then []
      else if opt ≠ '+' ∧ opt ≠ '*' ∧ opt ≠ '&' then started keys
      else opt :: started keys := by
  unfold started
  by_cases hq : opt = 'q'
  · simp [hq]
  · by_cases hopt : opt ≠ '+' ∧ opt ≠ '*' ∧ opt ≠ '&'
    · simp [hq, hopt]
    · rw [if_neg hq, if_neg hopt, List.takeWhile_cons_of_pos (by simpa using hq),
        List.filter_cons_of_pos]
      simp only [Bool.or_eq_true, beq_iff_eq]
      tauto

theorem length_childName_lt_iff (count : ℕ) : (childName count).length < 10 ↔ count < 1000 := by
  have hdigits := Nat.length_toDigits_le_iff (n := count) (k := 3) (by decide : 1 < 10) (by decide)
  simp only [childName, ascii, List.length_append, List.length_map, List.length_cons,
    List.length_nil]
  omega

theorem nul_notMem_childName (count : ℕ) : 0 ∉ childName count := by
  simp only [childName, List.mem_append, not_or]
  refine ⟨by decide, fun hmem => ?_⟩
  obtain ⟨c, hc, hzero⟩ := List.mem_map.mp hmem
  have hdigit : c.isDigit = true := Nat.isDigit_of_mem_toDigits (by decide) (by decide) hc
  have hnat := congrArg UInt8.toNat hzero
  rw [Char.isDigit_iff_toNat] at hdigit
  simp only [UInt8.toNat_ofNat', UInt8.reduceToNat] at hnat
  have hlow : '0'.toNat = 48 := rfl
  have hhigh : '9'.toNat = 57 := rfl
  omega

/-- The name is complete if it is one of the first thousand. -/
theorem childName_of_lt (stack : Vector UInt8 10) {count : ℕ} (h : count < 1000) :
    ∃ buffer, strcpy stack (childName count) = some buffer ∧
      stringAt buffer 0 = some (childName count) := by
  obtain ⟨buffer, hbuffer⟩ :=
    (strcpy_isSome_iff stack (childName count)).mpr ((length_childName_lt_iff count).mpr h)
  exact ⟨buffer, hbuffer, stringAt_strcpy hbuffer (nul_notMem_childName count)⟩

theorem childName_of_ge (stack : Vector UInt8 10) {count : ℕ} (h : 1000 ≤ count) :
    strcpy stack (childName count) = none := by
  rw [Option.eq_none_iff_forall_ne_some]
  intro buffer hbuffer
  have hlt := (strcpy_isSome_iff stack (childName count)).mp ⟨buffer, hbuffer⟩
  exact absurd ((length_childName_lt_iff count).mp hlt) (Nat.not_lt.mpr h)

section Run

variable {sys : System} {arg : List UInt8} {envp : List (List UInt8)}

/-- The child that a command starts. -/
def launch (sys : System) (arg : List UInt8) (envp : List (List UInt8)) (opt : Char) (count : ℕ) :
    Child :=
  let path := childProcess opt envp envp
  ⟨childName count, path, execve sys count path [childName count, arg] envp⟩

def endOf (keys : List Char) : Ended := if 'q' ∈ keys then .quit else .eof

theorem endOf_cons {opt : Char} (h : opt ≠ 'q') (keys : List Char) :
    endOf (opt :: keys) = endOf keys := by
  simp [endOf, Ne.symm h]

/-- The commands number their children. -/
theorem runKeys_eq {keys : List Char} {count : ℕ}
    (hfork : ∀ n < count + (started keys).length, sys.fork n = true)
    (hcount : count + (started keys).length ≤ 1000) :
    runKeys sys arg envp count keys =
      some ((started keys).zipIdx count |>.map fun p => launch sys arg envp p.1 p.2,
        endOf keys) := by
  induction keys generalizing count with
  | nil => rfl
  | cons opt keys ih =>
      rw [started_cons] at hfork hcount ⊢
      rw [runKeys]
      by_cases hq : opt = 'q'
      · simp [hq, endOf]
      · rw [endOf_cons hq]
        simp only [if_neg hq] at hfork hcount ⊢
        by_cases hopt : opt ≠ '+' ∧ opt ≠ '*' ∧ opt ≠ '&'
        · simp only [if_pos hopt] at hfork hcount ⊢
          exact ih hfork hcount
        · simp only [if_neg hopt, List.length_cons] at hfork hcount ⊢
          obtain ⟨buffer, hbuffer, hname⟩ := @childName_of_lt sys.stack count (by omega)
          have hrest := @ih (count + 1) (fun n hn => hfork n (by omega)) (by omega)
          simp only [hbuffer, hname, hfork count (by omega), hrest, Option.bind_eq_bind,
            Option.bind_some, if_true, List.zipIdx_cons, List.map_cons, launch]

/-- The name of the child after the first thousand does not fit. -/
theorem runKeys_eq_none {keys : List Char} {count : ℕ}
    (hfork : ∀ n < count + (started keys).length, sys.fork n = true) (hle : count ≤ 1000)
    (hcount : 1000 < count + (started keys).length) : runKeys sys arg envp count keys = none := by
  induction keys generalizing count with
  | nil => exact absurd hcount (Nat.not_lt.mpr hle)
  | cons opt keys ih =>
      rw [started_cons] at hfork hcount
      rw [runKeys]
      by_cases hq : opt = 'q'
      · simp only [if_pos hq, List.length_nil] at hcount
        omega
      · simp only [if_neg hq] at hfork hcount ⊢
        by_cases hopt : opt ≠ '+' ∧ opt ≠ '*' ∧ opt ≠ '&'
        · simp only [if_pos hopt] at hfork hcount ⊢
          exact ih hfork hle hcount
        · simp only [if_neg hopt, List.length_cons] at hfork hcount ⊢
          by_cases hlt : count < 1000
          · obtain ⟨buffer, hbuffer, hname⟩ := childName_of_lt sys.stack hlt
            have hrest := @ih (count + 1) (fun n hn => hfork n (by omega)) hlt (by omega)
            simp only [hbuffer, hname, hfork count (by omega), hrest, Option.bind_eq_bind,
              Option.bind_some, Option.bind_none, if_true]
          · rw [childName_of_ge sys.stack (Nat.not_lt.mp hlt)]
            rfl

end Run

/-! ## What the children print -/

/-- The child with a number: it has its two arguments only if a null pointer happens to stand behind
`args`. -/
def greeted (sys : System) (env : Environment) (path : List UInt8) (lines : List (List UInt8))
    (count : ℕ) : Child where
  name := childName count
  path := some path
  answer :=
    match sys.behind count with
    | none => .failed
    | some [] => .printed (childName count) (lines.map fun line => (line, env.lookup line))
    | some (_ :: _) => .usage

section Children

variable {sys : System} {env : Environment} {envp : List (List UInt8)} {path arg : List UInt8}
  {lines : List (List UInt8)}

theorem childMain_eq {content : List UInt8} (hfile : sys.fopen arg = some content)
    (hcontent : HoldsLines content lines) (hlines : ∀ line ∈ lines, Readable line)
    (horder : envp.Perm env.texts) (name : List UInt8) :
    childMain sys [name, arg] envp =
      .printed name (lines.map fun line => (line, env.lookup line)) := by
  simp only [childMain, hfile, readNames_of_holdsLines hcontent hlines]
  congr 1
  apply List.map_congr_left
  intro line hline
  rw [getenv_eq_lookup horder (hlines line hline).equals_notMem]

theorem launch_eq_greeted (hunamb : Unambiguous env) (hpath : env.lookup childPath = some path)
    (hchild : sys.program path = .child) {content : List UInt8}
    (hfile : sys.fopen arg = some content) (hcontent : HoldsLines content lines)
    (hlines : ∀ line ∈ lines, Readable line) (horder : envp.Perm env.texts) {opt : Char}
    (hopt : opt ∈ ['+', '*', '&']) (count : ℕ) :
    launch sys arg (printEnv envp) opt count = greeted sys env path lines count := by
  have hprocess := (agree_of_unambiguous hunamb horder).commands_eq opt hopt
  rw [hpath] at hprocess
  simp only [launch, hprocess, greeted, Child.mk.injEq, true_and]
  cases hbehind : sys.behind count with
  | none => simp only [execve, hbehind]
  | some behind =>
      simp only [execve, hbehind, hchild]
      cases behind with
      | nil => exact childMain_eq hfile hcontent hlines ((printEnv_perm envp).trans horder) _
      | cons s behind => rfl

end Children

theorem mem_started {keys : List Char} {opt : Char} (h : opt ∈ started keys) :
    opt ∈ ['+', '*', '&'] := by
  have hopt := (List.mem_filter.mp h).2
  simp only [Bool.or_eq_true, beq_iff_eq] at hopt
  simp only [List.mem_cons, List.not_mem_nil, or_false]
  tauto

/-- The environment is printed in ascending order, and the commands typed before `q` start
`child_0`, `child_1` and so on, all of them the program that `CHILD_PATH` names. Each child that
gets its two arguments prints every variable that the file names with the value that the environment
has for it: one name to a line, each short enough for the buffer, the last one with or without its
newline. With more than a thousand commands the name of a child runs over its array. -/
theorem children_print_environment {env : Environment} (hunamb : Unambiguous env)
    {path : List UInt8} (hpath : env.lookup childPath = some path) {sys : System}
    (hchild : sys.program path = .child) {arg content : List UInt8} {lines : List (List UInt8)}
    (hfile : sys.fopen arg = some content) (hcontent : HoldsLines content lines)
    (hlines : ∀ line ∈ lines, Readable line) {envp : List (List UInt8)}
    (horder : envp.Perm env.texts) {keys : List Char}
    (hfork : ∀ n < (started keys).length, sys.fork n = true) (name : List UInt8) :
    (1000 < (started keys).length → parentMain sys [name, arg] envp keys = none) ∧
    ((started keys).length ≤ 1000 → ∃ run, parentMain sys [name, arg] envp keys =
        some (.ran run) ∧
      run.printed.Perm env.texts ∧ run.printed.Pairwise (· ≤ ·) ∧ run.ended = endOf keys ∧
      run.children = (List.range (started keys).length).map (greeted sys env path lines)) := by
  constructor
  · intro hmany
    have hnone := @runKeys_eq_none sys arg (printEnv envp) keys 0 (by simpa using hfork)
      (Nat.zero_le _) (by simpa using hmany)
    simp only [parentMain, hnone, Option.bind_eq_bind, Option.bind_none]
  · intro hfew
    have hkeys := @runKeys_eq sys arg (printEnv envp) keys 0 (by simpa using hfork)
      (by simpa using hfew)
    refine ⟨_, by simp only [parentMain, hkeys, Option.bind_eq_bind, Option.bind_some]; rfl,
      (printEnv_perm envp).trans horder, ?_, rfl, ?_⟩
    · apply pairwise_printEnv
      intro s hs
      obtain ⟨e, he, rfl⟩ := (mem_order_iff horder).mp hs
      have hnul := e.nul_notMem
      simp only [Entry.text, List.mem_append, List.mem_cons, not_or] at hnul ⊢
      exact ⟨hnul.1, by decide, hnul.2⟩
    · apply List.ext_getElem (by simp)
      intro n hn hn'
      simp only [List.getElem_map, List.getElem_zipIdx, List.getElem_range, Nat.zero_add]
      exact launch_eq_greeted hunamb hpath hchild hfile hcontent hlines horder
        (mem_started (List.getElem_mem _)) n

/-- The environment with `CHILD_PATH=/c` and `B=b`. -/
def withPath : Environment where
  entries := [⟨childPath, [47, 99], by decide, by decide, by decide⟩,
    ⟨[66], [98], by decide, by decide, by decide⟩]
  distinct := List.nodup_cons.mpr ⟨by decide, List.nodup_singleton [66]⟩

/-- Every file holds the lines `B` and `C` without a newline at its end, and a null pointer stands
behind `args` for the first child. -/
def namesBC : System where
  program path := if path = [47, 99] then .child else .none
  fopen _ := some [66, 10, 67]
  fork _ := true
  behind n := if n = 0 then some [] else none
  stack := Vector.replicate 10 0

theorem children_print_environment_plus :
    ∃ run, parentMain namesBC [[112], [102]] withPath.texts ['x', '+', '*', 'q'] =
        some (.ran run) ∧ run.ended = .quit ∧
      run.children = [⟨ascii ['c', 'h', 'i', 'l', 'd', '_', '0'], some [47, 99],
          .printed (ascii ['c', 'h', 'i', 'l', 'd', '_', '0']) [([66], some [98]), ([67], none)]⟩,
        ⟨ascii ['c', 'h', 'i', 'l', 'd', '_', '1'], some [47, 99], .failed⟩] := by
  have hunamb : Unambiguous withPath := by
    unfold Unambiguous
    decide
  have hlines : ∀ line ∈ [[66], [67]], Readable line := by
    refine List.forall_mem_cons.mpr ⟨?_, List.forall_mem_singleton.mpr ?_⟩
    · exact ⟨by decide, by decide, by decide, by decide⟩
    · exact ⟨by decide, by decide, by decide, by decide⟩
  have hcontent : HoldsLines [66, 10, 67] [[66], [67]] :=
    .inr ⟨[[66]], [67], rfl, List.cons_ne_nil _ _, rfl⟩
  obtain ⟨run, hrun, -, -, hended, hchildren⟩ :=
    (@children_print_environment withPath hunamb [47, 99] (by decide) namesBC (by decide) [102]
      [66, 10, 67] [[66], [67]] rfl hcontent hlines withPath.texts (List.Perm.refl _)
      ['x', '+', '*', 'q'] (fun _ _ => rfl) [112]).2 (by decide)
  exact ⟨run, hrun, hended, hchildren⟩

end OsaspLabs.Lab2
