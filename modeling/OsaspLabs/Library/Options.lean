import Mathlib.Data.List.Basic

/-! # Options of a command line

`getopt` takes the letters of the options one by one. Where operands stand in front of an option
it moves the option over them, and `--` ends the options. No option has an argument of its own. -/

namespace OsaspLabs.Options

/-- A string that starts with `-` and goes on. -/
def isOption : List UInt8 → Bool
  | 45 :: _ :: _ => true
  | _ => false

def dashes : List UInt8 := [45, 45]

/-- The arguments behind the name of the program, in the blocks that `getopt` keeps apart. -/
structure Scan where
  /-- The options that stand in front of all operands, from `argv[1]` on. -/
  front : List (List UInt8)
  /-- The operands that were passed over. -/
  passed : List (List UInt8)
  /-- The options that were taken behind them. -/
  taken : List (List UInt8)
  /-- What stands from `argv[optind]` on. -/
  rest : List (List UInt8)
  /-- The letters left of the option `argv[optind]`. -/
  nextchar : List UInt8

namespace Scan

def argv (s : Scan) : List (List UInt8) := s.front ++ s.passed ++ s.taken ++ s.rest

def start (args : List (List UInt8)) : Scan := ⟨[], [], [], args, []⟩

/-- The options taken are exchanged with the operands before them, and the next operands are
passed over. -/
def permute (s : Scan) : Scan :=
  { s with
    front := s.front ++ s.taken
    passed := s.passed ++ s.rest.takeWhile fun arg => !isOption arg
    taken := []
    rest := s.rest.dropWhile fun arg => !isOption arg }

/-- A letter is taken and `letters` are left behind it; `optind` moves on with the last one. -/
def advance (s : Scan) (letters : List UInt8) : Scan :=
  if letters = [] then
    { s with taken := s.taken ++ s.rest.take 1, rest := s.rest.drop 1, nextchar := [] }
  else { s with nextchar := letters }

end Scan

/-- What is returned for a letter: `?` for one that is not known. -/
def letter (optstring : List UInt8) (c : UInt8) : UInt8 := if c ∈ optstring then c else 63

/-- No letter stands for the result -1. -/
def getopt (optstring : List UInt8) (s : Scan) : Option UInt8 × Scan :=
  match s.nextchar with
  | c :: letters => (some (letter optstring c), s.advance letters)
  | [] =>
      let s := s.permute
      match s.rest with
      | [] => (none, s)
      | arg :: rest =>
          if arg = dashes then
            (none,
              { s with front := s.front ++ [arg], passed := s.passed ++ rest, rest := [] })
          else
            match arg.drop 1 with
            | [] => (none, s)
            | c :: letters => (some (letter optstring c), s.advance letters)

/-- `while ((c = getopt(..)) != -1)` around a body that may leave the program. -/
def getoptLoop {σ ε : Type*} (optstring : List UInt8) (body : σ → UInt8 → Except ε σ) :
    ℕ → σ × Scan → Option (Except ε (σ × Scan))
  | 0, _ => none
  | fuel + 1, (st, s) =>
      match getopt optstring s with
      | (none, s) => some (.ok (st, s))
      | (some c, s) =>
          match body st c with
          | .error e => some (.error e)
          | .ok st => getoptLoop optstring body fuel (st, s)

/-! ## What the arguments say -/

/-- The arguments with letters. -/
def options : List (List UInt8) → List (List UInt8)
  | [] => []
  | arg :: args =>
      if arg = dashes then [] else if isOption arg then arg :: options args else options args

/-- The `--` that ends the options, if there is one. -/
def marker : List (List UInt8) → List (List UInt8)
  | [] => []
  | arg :: args => if arg = dashes then [arg] else marker args

def operands : List (List UInt8) → List (List UInt8)
  | [] => []
  | arg :: args =>
      if arg = dashes then args else if isOption arg then operands args else arg :: operands args

/-- The options first, each block in its old order. -/
def ordered (args : List (List UInt8)) : List (List UInt8) :=
  options args ++ marker args ++ operands args

def letters (args : List (List UInt8)) : List UInt8 := (options args).flatMap (List.drop 1)

section Arguments

variable {arg : List UInt8} (args : List (List UInt8))

theorem isOption_dashes : isOption dashes = true := rfl

theorem ne_dashes (h : isOption arg = false) : arg ≠ dashes := by
  rintro rfl
  exact absurd h (by decide)

theorem options_cons (hne : arg ≠ dashes) (h : isOption arg = true) :
    options (arg :: args) = arg :: options args := by
  rw [options, if_neg hne, if_pos h]

theorem marker_cons (hne : arg ≠ dashes) : marker (arg :: args) = marker args := by
  rw [marker, if_neg hne]

theorem operands_cons (hne : arg ≠ dashes) (h : isOption arg = true) :
    operands (arg :: args) = operands args := by
  rw [operands, if_neg hne, if_pos h]

theorem letters_cons (hne : arg ≠ dashes) (h : isOption arg = true) :
    letters (arg :: args) = arg.drop 1 ++ letters args := by
  rw [letters, options_cons args hne h, List.flatMap_cons, letters]

theorem letters_dashes : letters (dashes :: args) = [] := rfl

/-- An option has a letter. -/
theorem drop_one_of_isOption (h : isOption arg = true) :
    ∃ c rest, arg.drop 1 = c :: rest := by
  unfold isOption at h
  split at h
  · exact ⟨_, _, rfl⟩
  · cases h

/-- The operands in front are passed over. -/
theorem dropWhile_operands :
    options (args.dropWhile fun arg => !isOption arg) = options args ∧
      marker (args.dropWhile fun arg => !isOption arg) = marker args ∧
      (args.takeWhile fun arg => !isOption arg) ++
        operands (args.dropWhile fun arg => !isOption arg) = operands args := by
  induction args with
  | nil => exact ⟨rfl, rfl, rfl⟩
  | cons arg args ih =>
      cases h : isOption arg with
      | true => simp [h]
      | false =>
          have hne := ne_dashes h
          obtain ⟨hoptions, hmarker, hoperands⟩ := ih
          simp [options, marker, operands, h, hne, hoptions, hmarker, hoperands]

theorem isOption_of_dropWhile {rest : List (List UInt8)}
    (h : (args.dropWhile fun arg => !isOption arg) = arg :: rest) : isOption arg = true := by
  have hhead := List.head_dropWhile_not (fun arg => !isOption arg) (l := args) (by simp [h])
  simpa [h] using hhead

theorem length_letters_le : (letters args).length ≤ args.flatten.length := by
  induction args with
  | nil => exact Nat.le_refl 0
  | cons arg args ih =>
      rw [List.flatten_cons, List.length_append]
      by_cases hne : arg = dashes
      · rw [hne, letters_dashes]
        exact Nat.zero_le _
      · cases h : isOption arg with
        | true =>
            rw [letters_cons args hne h, List.length_append, List.length_drop]
            omega
        | false =>
            have hskip : letters (arg :: args) = letters args := by
              simp [letters, options, hne, h]
            rw [hskip]
            omega

end Arguments

/-! ## The loop -/

namespace Scan

/-- What the arguments are at the end. -/
def ordered (s : Scan) : List (List UInt8) :=
  s.front ++ s.taken ++ options s.rest ++ marker s.rest ++ (s.passed ++ operands s.rest)

/-- The letters that are still to be taken. -/
def pending (s : Scan) : List UInt8 :=
  s.nextchar ++ letters (if s.nextchar = [] then s.rest else s.rest.drop 1)

/-- The letters left belong to an option at `argv[optind]`. -/
def Ok (s : Scan) : Prop :=
  s.nextchar ≠ [] → ∃ arg rest, s.rest = arg :: rest ∧ arg ≠ dashes ∧ isOption arg = true

theorem pending_of_nil {s : Scan} (h : s.nextchar = []) : s.pending = letters s.rest := by
  rw [pending, h, if_pos rfl, List.nil_append]

theorem taken_permute (s : Scan) : s.permute.taken = [] := rfl

theorem argv_of_rest_nil {s : Scan} (htaken : s.taken = []) (hrest : s.rest = []) :
    s.argv = s.ordered := by
  simp [argv, ordered, htaken, hrest, options, marker, operands]

theorem ordered_permute (s : Scan) : s.permute.ordered = s.ordered := by
  obtain ⟨hoptions, hmarker, hoperands⟩ := dropWhile_operands s.rest
  simp only [ordered, permute, hoptions, hmarker, List.append_nil, List.append_assoc, hoperands]

theorem letters_permute (s : Scan) : letters s.permute.rest = letters s.rest := by
  rw [letters, letters, permute, (dropWhile_operands s.rest).1]

/-- One letter of the option in front of the rest. -/
theorem advance_spec {s : Scan} {arg : List UInt8} {rest : List (List UInt8)}
    (hrest : s.rest = arg :: rest) (hne : arg ≠ dashes) (h : isOption arg = true)
    (ls : List UInt8) :
    (s.advance ls).pending = ls ++ letters rest ∧ (s.advance ls).ordered = s.ordered ∧
      (s.advance ls).Ok := by
  unfold advance
  split
  · rename_i hnil
    rw [hnil]
    refine ⟨by simp [pending, hrest], ?_, fun hpos => absurd rfl hpos⟩
    simp [ordered, hrest, options_cons rest hne h, marker_cons rest hne, operands_cons rest hne h]
  · rename_i hpos
    refine ⟨by simp [pending, hpos, hrest], rfl, fun _ => ⟨arg, rest, hrest, hne, h⟩⟩

end Scan

/-- What a call does: it takes the next letter, or there is none and the arguments are in order. -/
inductive Called (optstring : List UInt8) (s : Scan) : Prop where
  | letter (c : UInt8) (t : Scan) (call : getopt optstring s = (some (letter optstring c), t))
      (pending : s.pending = c :: t.pending) (ordered : t.ordered = s.ordered) (ok : t.Ok)
  | done (t : Scan) (call : getopt optstring s = (none, t)) (pending : s.pending = [])
      (argv : t.argv = s.ordered)

theorem getopt_called (optstring : List UInt8) {s : Scan} (hok : s.Ok) : Called optstring s := by
  cases hnext : s.nextchar with
  | cons c ls =>
      obtain ⟨arg, rest, hrest, hne, hoption⟩ := hok (by simp [hnext])
      obtain ⟨hpending, hordered, hok'⟩ := Scan.advance_spec hrest hne hoption ls
      refine .letter c (s.advance ls) (by simp only [getopt, hnext]) ?_ hordered hok'
      rw [hpending, Scan.pending, hnext, if_neg (by simp), hrest, List.drop_one, List.tail_cons,
        List.cons_append]
  | nil =>
      have hpending := Scan.pending_of_nil hnext
      rw [← s.letters_permute] at hpending
      cases hrest : s.permute.rest with
      | nil =>
          refine .done s.permute (by simp only [getopt, hnext, hrest]) ?_ ?_
          · rw [hpending, hrest]
            rfl
          · rw [← s.ordered_permute, Scan.argv_of_rest_nil rfl hrest]
      | cons arg rest =>
          rw [hrest] at hpending
          by_cases hne : arg = dashes
          · refine .done
              { s.permute with
                front := s.permute.front ++ [arg]
                passed := s.permute.passed ++ rest
                rest := [] }
              (by simp only [getopt, hnext, hrest, if_pos hne]) ?_ ?_
            · rw [hpending, hne, letters_dashes]
            · rw [← s.ordered_permute, Scan.argv_of_rest_nil rfl rfl]
              simp [Scan.ordered, hrest, hne, options, marker, operands, s.taken_permute]
          · have hoption : isOption arg = true := isOption_of_dropWhile s.rest hrest
            obtain ⟨c, ls, hdrop⟩ := drop_one_of_isOption hoption
            obtain ⟨hpending', hordered, hok'⟩ := Scan.advance_spec hrest hne hoption ls
            refine .letter c (s.permute.advance ls)
              (by simp only [getopt, hnext, hrest, if_neg hne, hdrop]) ?_ ?_ hok'
            · rw [hpending, letters_cons rest hne hoption, hdrop, List.cons_append, hpending']
            · rw [hordered, s.ordered_permute]

section Loop

variable {σ ε : Type*} {optstring : List UInt8} {body : σ → UInt8 → Except ε σ}

theorem getoptLoop_eq {fuel : ℕ} {s : Scan} (hok : s.Ok) (hfuel : s.pending.length < fuel)
    (st : σ) :
    ∃ t : Scan, t.argv = s.ordered ∧ getoptLoop optstring body fuel (st, s) =
      some (((s.pending.map (letter optstring)).foldlM body st).map fun st' => (st', t)) := by
  induction fuel generalizing s st with
  | zero => exact absurd hfuel (Nat.not_lt_zero _)
  | succ fuel ih =>
      cases getopt_called optstring hok with
      | letter c t call pending ordered ok =>
          rw [pending, List.length_cons] at hfuel
          rw [pending, List.map_cons, List.foldlM_cons, getoptLoop]
          simp only [call]
          cases hbody : body st (letter optstring c) with
          | error e => exact ⟨⟨[], [], [], s.ordered, []⟩, by simp [Scan.argv], rfl⟩
          | ok st' =>
              obtain ⟨t', hargv, hloop⟩ := ih ok (Nat.lt_of_succ_lt_succ hfuel) st'
              exact ⟨t', hargv.trans ordered, hloop⟩
      | done t call pending argv =>
          refine ⟨t, argv, ?_⟩
          rw [pending, getoptLoop]
          simp only [call]
          rfl

/-- The body runs over the letters of the options, and the options come to stand in front of the
operands. -/
theorem getoptLoop_start (args : List (List UInt8)) (st : σ) :
    ∃ t : Scan, t.argv = ordered args ∧
      getoptLoop optstring body (args.flatten.length + 1) (st, Scan.start args) =
        some ((((letters args).map (letter optstring)).foldlM body st).map
          fun st' => (st', t)) := by
  have hpending : (Scan.start args).pending = letters args := Scan.pending_of_nil rfl
  have hordered : (Scan.start args).ordered = ordered args := by
    simp [Scan.ordered, Scan.start, ordered]
  have hok : (Scan.start args).Ok := fun hpos => absurd rfl hpos
  have hfuel : (Scan.start args).pending.length < args.flatten.length + 1 :=
    Nat.lt_succ_of_le (hpending ▸ length_letters_le args)
  have hloop := @getoptLoop_eq σ ε optstring body _ _ hok hfuel st
  rwa [hpending, hordered] at hloop

end Loop

end OsaspLabs.Options
