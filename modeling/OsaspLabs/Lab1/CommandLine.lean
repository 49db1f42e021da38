import OsaspLabs.Lab1.Selection
import OsaspLabs.Library.Options

/-! # The command line of LAB_1

`parse_options` reads the flags with `getopt`, which moves them in front of the directory; `main`
then finds the directory by the number of the arguments. -/

namespace OsaspLabs.Lab1

open CString Options
open Lab8 (pathMax)

/-! ## The program -/

def optstring : List UInt8 := ascii ['d', 'f', 'l', 's', '?']

/-- The body of the loop; it leaves the program for a `?`. -/
def parseOption (flags : Flags) (c : UInt8) : Except Unit Flags :=
  if c = 100 then .ok { flags with directories := true }
  else if c = 102 then .ok { flags with files := true }
  else if c = 108 then .ok { flags with symlink := true }
  else if c = 63 then .error ()
  else .ok flags

/-- The flags, and the arguments as they stand afterwards. -/
def parseOptions : List (List UInt8) → Option (Except Unit (Flags × List (List UInt8)))
  | name :: arg :: args =>
      let result := getoptLoop optstring parseOption ((arg :: args).flatten.length + 1)
        (⟨false, false, false⟩, Scan.start (arg :: args))
      result.map fun e => e.map fun (flags, s) => (flags, name :: s.argv)
  | argv => some (.ok (⟨true, true, true⟩, argv))

inductive Outcome where
  /-- The usage is printed. -/
  | usage
  /-- `main` returns 1 and prints nothing. -/
  | refused
  | browsed (log : List Event)

/-- The walk of the directory that `direct` names. -/
def browseDirect (fs : FileSystem) (g : Garbage) (flags : Flags) (direct : Vector UInt8 pathMax) :
    Option Outcome := do
  let dir ← stringAt direct 0
  let log ← directoryBrowsing fs g flags pathMax dir
  some (.browsed log)

/-- The walk that `main` starts; the number of the arguments decides where. -/
def switchArgc (fs : FileSystem) (g : Garbage) (direct : Vector UInt8 pathMax) (flags : Flags) :
    List (List UInt8) → Option Outcome
  | [_] => do
      let direct ← strcpy direct (ascii ['.'])
      browseDirect fs g ⟨true, true, true⟩ direct
  | [_, _] => do
      let direct ←
        if flags.files || flags.directories || flags.symlink then strcpy direct (ascii ['.'])
        else some direct
      browseDirect fs g flags direct
  | [_, _, arg] => browseDirect fs g flags (strncpy pathMax arg)
  | _ => some .refused

/-- `direct` is what the array of that name holds first. -/
def main (fs : FileSystem) (g : Garbage) (direct : Vector UInt8 pathMax)
    (argv : List (List UInt8)) : Option Outcome := do
  match ← parseOptions argv with
  | .error _ => some .usage
  | .ok (flags, argv) => switchArgc fs g direct flags argv

/-! ## What a command line asks for -/

inductive Request where
  | usage
  | refused
  | walk (flags : Flags) (dir : List UInt8)
  /-- There is a walk, but no directory is given. -/
  | unnamed (flags : Flags)
  deriving DecidableEq

/-- The flags among the letters. -/
def flagsOf (ls : List UInt8) : Flags := ⟨108 ∈ ls, 100 ∈ ls, 102 ∈ ls⟩

/-- The directory is the argument that is no option, wherever it stands, or else the last one. -/
def walkFor (flags : Flags) : List (List UInt8) → Request
  | [] => .walk ⟨true, true, true⟩ (ascii ['.'])
  | [_] => if flags = ⟨false, false, false⟩ then .unnamed flags else .walk flags (ascii ['.'])
  | [arg, arg'] => .walk flags (if isOption arg' && !isOption arg then arg else arg')
  | _ => .refused

/-- The letters that give no usage. -/
def isKnown (c : UInt8) : Bool := (ascii ['d', 'f', 'l', 's']).contains c

/-- What the arguments behind the name of the program ask for. -/
def request (args : List (List UInt8)) : Request :=
  if (letters args).all isKnown then
    walkFor (flagsOf (letters args)) args
  else .usage

example : request [ascii ['s', 'r', 'c'], ascii ['-', 'l', 'd']] =
    .walk ⟨true, true, false⟩ (ascii ['s', 'r', 'c']) := by decide

/-- What the program does for a request. A directory whose name fits is walked in every file
system, and the lines are those of its tree if it holds one; a name that does not fit is read past
the end of `direct`. -/
def Served (fs : FileSystem) (g : Garbage) (direct : Vector UInt8 pathMax)
    (outcome : Option Outcome) : Request → Prop
  | .usage => outcome = some .usage
  | .refused => outcome = some .refused
  | .walk flags dir =>
      (∀ t, Holds fs dir t → ∃ log, outcome = some (.browsed log) ∧
        log.filter Event.visible = .opendir dir :: t.browsed g flags dir) ∧
      (0 ∉ dir → dir.length < pathMax →
        outcome = (directoryBrowsing fs g flags pathMax dir).map .browsed) ∧
      (0 ∉ dir → pathMax ≤ dir.length → outcome = none)
  | .unnamed flags => outcome = browseDirect fs g flags direct

/-! ## The flags -/

theorem all_isKnown {ls : List UInt8} :
    ls.all isKnown = true ↔ ∀ c ∈ ls, c ∈ ascii ['d', 'f', 'l', 's'] := by
  simp only [List.all_eq_true, isKnown, List.contains_iff_mem]

theorem mem_known {c : UInt8} :
    c ∈ ascii ['d', 'f', 'l', 's'] ↔ c = 100 ∨ c = 102 ∨ c = 108 ∨ c = 115 := by
  simp only [ascii, List.map_cons, List.map_nil, List.mem_cons, List.not_mem_nil, or_false]
  exact Iff.rfl

theorem parseOption_known {c : UInt8} (h : c ∈ ascii ['d', 'f', 'l', 's']) (flags : Flags) :
    parseOption flags (letter optstring c) =
      .ok ⟨flags.symlink || c = 108, flags.directories || c = 100, flags.files || c = 102⟩ := by
  rcases mem_known.mp h with rfl | rfl | rfl | rfl <;>
    simp [parseOption, letter, optstring, ascii]

theorem parseOption_unknown {c : UInt8} (h : c ∉ ascii ['d', 'f', 'l', 's']) (flags : Flags) :
    parseOption flags (letter optstring c) = .error () := by
  have hquestion : letter optstring c = 63 := by
    unfold letter
    split
    · rename_i hmem
      rw [mem_known] at h
      simp only [optstring, ascii, List.map_cons, List.map_nil, List.mem_cons, List.not_mem_nil,
        or_false] at hmem
      rcases hmem with hd | hf | hl | hs | hq
      · exact absurd (.inl hd) h
      · exact absurd (.inr (.inl hf)) h
      · exact absurd (.inr (.inr (.inl hl))) h
      · exact absurd (.inr (.inr (.inr hs))) h
      · exact hq
    · rfl
  rw [hquestion]
  rfl

/-- The loop sets the flags of the letters. -/
theorem foldlM_parseOption {ls : List UInt8} (h : ∀ c ∈ ls, c ∈ ascii ['d', 'f', 'l', 's'])
    (flags : Flags) :
    (ls.map (letter optstring)).foldlM parseOption flags =
      .ok ⟨flags.symlink || (flagsOf ls).symlink, flags.directories || (flagsOf ls).directories,
        flags.files || (flagsOf ls).files⟩ := by
  induction ls generalizing flags with
  | nil => simp [flagsOf]; rfl
  | cons c ls ih =>
      obtain ⟨hc, hls⟩ := List.forall_mem_cons.mp h
      rw [List.map_cons, List.foldlM_cons, parseOption_known hc]
      refine (ih hls _).trans ?_
      simp [flagsOf, Bool.or_assoc, eq_comm]

/-- The first letter that is not known ends the loop. -/
theorem foldlM_parseOption_unknown {ls : List UInt8}
    (h : ¬∀ c ∈ ls, c ∈ ascii ['d', 'f', 'l', 's']) (flags : Flags) :
    (ls.map (letter optstring)).foldlM parseOption flags = .error () := by
  induction ls generalizing flags with
  | nil => exact absurd (fun c hc => absurd hc List.not_mem_nil) h
  | cons c ls ih =>
      rw [List.map_cons, List.foldlM_cons]
      by_cases hc : c ∈ ascii ['d', 'f', 'l', 's']
      · rw [parseOption_known hc]
        refine ih (fun hall => h ?_) _
        exact List.forall_mem_cons.mpr ⟨hc, hall⟩
      · rw [parseOption_unknown hc]
        rfl

/-- With arguments, the flags are those of their letters and the arguments are put in order. -/
theorem parseOptions_cons (name arg : List UInt8) (args : List (List UInt8)) :
    parseOptions (name :: arg :: args) =
      if (letters (arg :: args)).all isKnown then
        some (.ok (flagsOf (letters (arg :: args)), name :: ordered (arg :: args)))
      else some (.error ()) := by
  obtain ⟨s, hargv, hloop⟩ := @getoptLoop_start _ _ optstring parseOption (arg :: args)
    (⟨false, false, false⟩ : Flags)
  rw [parseOptions]
  simp only [hloop, Option.map_some]
  split
  · rename_i hknown
    rw [foldlM_parseOption (all_isKnown.mp hknown)]
    simp only [Bool.false_or, Except.map, hargv]
  · rename_i hunknown
    rw [foldlM_parseOption_unknown fun hall => hunknown (all_isKnown.mpr hall)]
    rfl

/-! ## The directory -/

/-- Of two arguments the one that is no option is in the second place. -/
theorem ordered_pair (arg arg' : List UInt8) :
    ∃ first, ordered [arg, arg'] =
      [first, if isOption arg' && !isOption arg then arg else arg'] := by
  by_cases hne : arg = dashes
  · exact ⟨arg, by simp [ordered, options, marker, operands, hne, isOption_dashes]⟩
  · cases hopt : isOption arg with
    | true =>
        refine ⟨arg, ?_⟩
        by_cases hne' : arg' = dashes
        · simp [ordered, options, marker, operands, hne, hopt, hne', isOption_dashes]
        · cases hopt' : isOption arg' <;>
            simp [ordered, options, marker, operands, hne, hopt, hne', hopt']
    | false =>
        by_cases hne' : arg' = dashes
        · exact ⟨arg', by
            simp [ordered, options, marker, operands, hne, hopt, hne', isOption_dashes]⟩
        · cases hopt' : isOption arg' with
          | true =>
              exact ⟨arg', by simp [ordered, options, marker, operands, hne, hopt, hne', hopt']⟩
          | false =>
              exact ⟨arg, by simp [ordered, options, marker, operands, hne, hopt, hne', hopt']⟩

theorem ordered_single (arg : List UInt8) : ordered [arg] = [arg] := by
  by_cases hne : arg = dashes
  · simp [ordered, options, marker, operands, hne]
  · cases hopt : isOption arg <;> simp [ordered, options, marker, operands, hne, hopt]

theorem length_ordered (args : List (List UInt8)) : (ordered args).length = args.length := by
  induction args with
  | nil => rfl
  | cons arg args ih =>
      unfold ordered at ih ⊢
      simp only [List.length_append] at ih
      by_cases hne : arg = dashes
      · simp [options, marker, operands, hne]
      · cases hopt : isOption arg <;>
          simp [options, marker, operands, hne, hopt] <;> omega

/-! ## The walk -/

section Walk

variable {fs : FileSystem} {g : Garbage} {flags : Flags} {direct : Vector UInt8 pathMax}

/-- The directory is in `direct`. -/
theorem served_walk {dir : List UInt8} (h : stringAt direct 0 = some dir) :
    Served fs g direct (browseDirect fs g flags direct) (.walk flags dir) := by
  have hwalk : browseDirect fs g flags direct =
      (directoryBrowsing fs g flags pathMax dir).map .browsed := by
    simp only [browseDirect, h, Option.bind_eq_bind, Option.bind_some]
    cases directoryBrowsing fs g flags pathMax dir <;> rfl
  refine ⟨fun t ht => ?_, fun _ _ => hwalk, ?_⟩
  · obtain ⟨log, hlog, hvisible⟩ :=
      @directoryBrowsing_of_holds fs g flags t dir pathMax (Nat.le_refl _) ht
    exact ⟨log, by rw [hwalk, hlog]; rfl, hvisible⟩
  · intro _ hlong
    have hlt := length_lt_of_stringAt h
    omega

/-- The directory is copied into `direct`. -/
theorem served_strncpy (arg : List UInt8) :
    Served fs g direct (browseDirect fs g flags (strncpy pathMax arg)) (.walk flags arg) := by
  have hfits (hlt : arg.length < pathMax) (hnul : 0 ∉ arg) :=
    @served_walk fs g flags (strncpy pathMax arg) arg (stringAt_strncpy hlt hnul)
  refine ⟨fun t ht => ?_, fun hnul hlt => (hfits hlt hnul).2.1 hnul hlt, ?_⟩
  · obtain ⟨names, hopen, -⟩ := ht.lists
    obtain ⟨hlt, hnul⟩ := fs.path_of_opendir hopen
    exact (hfits hlt hnul).1 t ht
  · intro hnul hlong
    rw [browseDirect, stringAt_strncpy_of_le hlong hnul]
    rfl

/-- `strcpy(direct, ".")`. -/
theorem served_dot :
    Served fs g direct ((strcpy direct (ascii ['.'])).bind (browseDirect fs g flags))
      (.walk flags (ascii ['.'])) := by
  obtain ⟨dot, hdot⟩ := (strcpy_isSome_iff direct (ascii ['.'])).mpr (by decide)
  rw [hdot, Option.bind_some]
  exact served_walk (stringAt_strcpy hdot (by decide))

end Walk

theorem anyFlag_iff (flags : Flags) :
    (flags.files || flags.directories || flags.symlink) = true ↔ flags ≠ ⟨false, false, false⟩ := by
  rcases flags with ⟨symlink, directories, files⟩
  cases symlink <;> cases directories <;> cases files <;> decide

/-! ## Every command line -/

section Main

variable {fs : FileSystem} {g : Garbage} {direct : Vector UInt8 pathMax}

theorem main_of_ok {argv argv' : List (List UInt8)} {flags : Flags}
    (h : parseOptions argv = some (.ok (flags, argv'))) :
    main fs g direct argv = switchArgc fs g direct flags argv' := by
  simp only [main, h, Option.bind_eq_bind, Option.bind_some]

theorem main_of_error {argv : List (List UInt8)} (h : parseOptions argv = some (.error ())) :
    main fs g direct argv = some .usage := by
  simp only [main, h, Option.bind_eq_bind, Option.bind_some]

theorem served_switchArgc (flags : Flags) (name arg : List UInt8) (args : List (List UInt8)) :
    Served fs g direct (switchArgc fs g direct flags (name :: ordered (arg :: args)))
      (walkFor flags (arg :: args)) := by
  match args with
  | [] =>
      rw [ordered_single, walkFor]
      by_cases hflags : flags = ⟨false, false, false⟩
      · rw [if_pos hflags, hflags]
        rfl
      · rw [if_neg hflags]
        simp only [switchArgc, if_pos ((anyFlag_iff _).mpr hflags)]
        exact served_dot
  | [arg'] =>
      obtain ⟨first, hordered⟩ := ordered_pair arg arg'
      rw [hordered]
      exact served_strncpy _
  | arg' :: arg'' :: args =>
      have hlen := length_ordered (arg :: arg' :: arg'' :: args)
      match hordered : ordered (arg :: arg' :: arg'' :: args) with
      | [] | [_] | [_, _] => simp [hordered] at hlen
      | _ :: _ :: _ :: _ => rfl

end Main

/-- Every command line is served as it asks: letters that are not known give the usage, the flags
may stand before or behind the directory or in several arguments, and the lines of the directory's
tree are printed. Without a directory and without flags the directory is the one that
happens to stand in memory. -/
theorem command_line_served (fs : FileSystem) (g : Garbage) (direct : Vector UInt8 pathMax)
    (name : List UInt8) (args : List (List UInt8)) :
    Served fs g direct (main fs g direct (name :: args)) (request args) := by
  match args with
  | [] =>
      have hparse : parseOptions [name] = some (.ok (⟨true, true, true⟩, [name])) := rfl
      have hrequest : request [] = .walk ⟨true, true, true⟩ (ascii ['.']) := rfl
      rw [main_of_ok hparse, hrequest, switchArgc]
      exact served_dot
  | arg :: args =>
      have hparse := parseOptions_cons name arg args
      unfold request
      split
      · rename_i hknown
        rw [if_pos hknown] at hparse
        rw [main_of_ok hparse]
        exact served_switchArgc _ name arg args
      · rename_i hunknown
        rw [if_neg hunknown] at hparse
        exact main_of_error hparse

end OsaspLabs.Lab1
