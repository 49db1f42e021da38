import OsaspLabs.Library.Lines
import OsaspLabs.Records.Store

/-! # How LAB_7 p2 reads its input

Each line is read by `fgets` into 80 bytes, and what stands behind them in the stream is left
for the next reader. -/

namespace OsaspLabs.Records

open CString Lines

/-- A local array `input`. -/
abbrev Buffer := Vector UInt8 80

/-- `fgets(input, 80, stdin)`; at the end of the stream it leaves the array alone. -/
def fgets (input : Buffer) (stdin : List UInt8) : Bool × Buffer × List UInt8 :=
  if stdin = [] then (false, input, stdin)
  else
    let (line, rest) := takeLine 10 79 stdin
    (true, Vector.ofFn fun i => (line ++ [0])[i.val]?.getD (input.get i), rest)

/-- What stands before the first newline or NUL; `strcspn(input, "\n")` is its length. -/
def textOf (input : Buffer) : List UInt8 := input.toList.takeWhile fun c => c != 0 && c != 10

theorem notMem_textOf {input : Buffer} {c : UInt8} (h : c = 0 ∨ c = 10) : c ∉ textOf input := by
  intro hmem
  have hall := List.all_eq_true.mp List.all_takeWhile c hmem
  rcases h with rfl | rfl <;> simp at hall

/-- A line is read and cut at its newline. Nothing is said about an array without a newline and
without a NUL, as an uninitialised one can be. -/
def readLine (input : Buffer) (stdin : List UInt8) : Option (Line × Buffer × List UInt8) :=
  let (_, input, stdin) := fgets input stdin
  if h : (textOf input).length < 80 then
    let line : Line := ⟨textOf input, h, notMem_textOf (Or.inl rfl), notMem_textOf (Or.inr rfl)⟩
    some (line, input.set (textOf input).length 0, stdin)
  else none

/-- The three lines that `modify_record` reads into its `input`. -/
def readEdit (input : Buffer) (stdin : List UInt8) : Option (Edit × List UInt8) := do
  let (name, input, stdin) ← readLine input stdin
  let (address, input, stdin) ← readLine input stdin
  let (semester, _, stdin) ← readLine input stdin
  some (⟨name, address, semester⟩, stdin)

/-- `modify_record` on `stdin`; `garbage` is what its `input` holds first. -/
def modifyRecordFrom (garbage : Buffer) (record : Record) (stdin : List UInt8) :
    Option (Record × List UInt8) := do
  let (edit, stdin) ← readEdit garbage stdin
  some (modifyRecord record edit, stdin)

/-! ## One line -/

theorem toList_fgets {stdin : List UInt8} (h : stdin ≠ []) (input : Buffer) :
    ∃ tail, (fgets input stdin).2.1.toList = (takeLine 10 79 stdin).1 ++ 0 :: tail := by
  have hlen := length_takeLine_le 10 79 stdin
  refine ⟨input.toList.drop ((takeLine 10 79 stdin).1.length + 1), ?_⟩
  simp only [fgets, if_neg h]
  generalize (takeLine 10 79 stdin).1 = line at hlen
  have hsplit (tail : List UInt8) : line ++ 0 :: tail = line ++ [0] ++ tail := by simp
  have hsucc : (line ++ [(0 : UInt8)]).length = line.length + 1 := by simp
  rw [hsplit (input.toList.drop _), ← hsucc]
  generalize line ++ [(0 : UInt8)] = front at hsucc
  refine List.ext_getElem? fun i => ?_
  rw [Vector.getElem?_toList, Vector.getElem?_ofFn, List.getElem?_append]
  by_cases hi : i < front.length
  · rw [dif_pos (by omega), if_pos hi, List.getElem?_eq_getElem hi, Option.getD_some]
  · rw [if_neg hi, List.getElem?_drop, Nat.add_sub_cancel' (not_lt.mp hi),
      Vector.getElem?_toList]
    split
    · rename_i hin
      rw [List.getElem?_eq_none (not_lt.mp hi), Option.getD_none]
      exact (Vector.getElem?_eq_getElem hin).symm
    · rename_i hout
      exact (Vector.getElem?_eq_none (not_lt.mp hout)).symm

/-- A line that was read is what `fgets` took, up to its first newline or NUL. -/
theorem textOf_fgets {stdin : List UInt8} (h : stdin ≠ []) (input : Buffer) :
    textOf (fgets input stdin).2.1 =
      (takeLine 10 79 stdin).1.takeWhile fun c => c != 0 && c != 10 := by
  obtain ⟨tail, htail⟩ := toList_fgets h input
  rw [textOf, htail, List.takeWhile_append]
  split
  · rename_i hall
    rw [List.takeWhile_cons_of_neg (by decide), List.append_nil]
    exact ((List.takeWhile_prefix _).eq_of_length hall).symm
  · rfl

theorem length_textOf_fgets {stdin : List UInt8} (h : stdin ≠ []) (input : Buffer) :
    (textOf (fgets input stdin).2.1).length < 80 := by
  rw [textOf_fgets h]
  have htake := (List.takeWhile_prefix (fun c => c != (0 : UInt8) && c != 10)
    (l := (takeLine 10 79 stdin).1)).length_le
  have hlen := length_takeLine_le (10 : UInt8) 79 stdin
  omega

/-- A stream that has not ended gives a line. -/
theorem readLine_of_ne_nil {stdin : List UInt8} (h : stdin ≠ []) (input : Buffer) :
    ∃ line input', readLine input stdin = some (line, input', (takeLine 10 79 stdin).2) ∧
      line.text = (takeLine 10 79 stdin).1.takeWhile fun c => c != 0 && c != 10 := by
  have hrest : (fgets input stdin).2.2 = (takeLine 10 79 stdin).2 := by
    simp only [fgets, if_neg h]
  unfold readLine
  simp only [dif_pos (length_textOf_fgets h input), hrest]
  exact ⟨_, _, rfl, textOf_fgets h input⟩

theorem rest_of_readLine {input input' : Buffer} {stdin rest : List UInt8} {line : Line}
    (h : readLine input stdin = some (line, input', rest)) :
    rest = (takeLine 10 79 stdin).2 := by
  by_cases hs : stdin = []
  · subst hs
    unfold readLine at h
    simp only [fgets, if_true] at h
    split at h
    · have hrest := congrArg (fun p => p.2.2) (Option.some.inj h)
      exact hrest.symm
    · cases h
  · obtain ⟨_, _, hread, _⟩ := readLine_of_ne_nil hs input
    rw [hread] at h
    exact (congrArg (fun p => p.2.2) (Option.some.inj h)).symm

/-! ## Three lines -/

/-- A line of the stream, of any length. -/
structure TextLine where
  text : List UInt8
  noNul : 0 ∉ text
  noNewline : 10 ∉ text

/-- The stream that goes on with a line. -/
def TextLine.before (l : TextLine) (rest : List UInt8) : List UInt8 := l.text ++ 10 :: rest

/-- A line that fits is read whole. -/
theorem readLine_of_le (l : TextLine) (h : l.text.length ≤ 78) (input : Buffer)
    (rest : List UInt8) :
    ∃ line input', readLine input (l.before rest) = some (line, input', rest) ∧
      line.text = l.text := by
  have hne : l.before rest ≠ [] := by simp [TextLine.before]
  have htake : takeLine 10 79 (l.before rest) = (l.text ++ [10], rest) :=
    takeLine_of_lt l.noNewline (Nat.lt_succ_of_le h) rest
  obtain ⟨line, input', hread, htext⟩ := readLine_of_ne_nil hne input
  rw [htake] at hread htext
  refine ⟨line, input', hread, ?_⟩
  rw [htext, List.takeWhile_append_of_pos, List.takeWhile_cons_of_neg (by decide),
    List.append_nil]
  intro c hc
  have hnul := ne_of_mem_of_not_mem hc l.noNul
  have hnewline := ne_of_mem_of_not_mem hc l.noNewline
  simp [hnul, hnewline]

/-- A line that does not fit leaves its newline in the stream. -/
theorem count_rest_of_gt (l : TextLine) (h : 78 < l.text.length) (rest : List UInt8) :
    rest.count 10 < (takeLine 10 79 (l.before rest)).2.count 10 := by
  unfold TextLine.before
  rw [takeLine_of_le l.noNewline (by omega), List.count_append, List.count_cons_self]
  omega

/-- What three calls of `fgets` leave of a stream. -/
theorem rest_of_modifyRecordFrom {garbage : Buffer} {record record' : Record}
    {stdin rest : List UInt8}
    (h : modifyRecordFrom garbage record stdin = some (record', rest)) :
    rest = (takeLine 10 79 (takeLine 10 79 (takeLine 10 79 stdin).2).2).2 := by
  obtain ⟨⟨edit, rest'⟩, hedit, hrecord⟩ := Option.bind_eq_some_iff.mp h
  obtain rfl : rest' = rest := congrArg Prod.snd (Option.some.inj hrecord)
  obtain ⟨⟨name, input, stdin'⟩, hname, hedit⟩ := Option.bind_eq_some_iff.mp hedit
  obtain ⟨⟨address, input', stdin''⟩, haddress, hedit⟩ := Option.bind_eq_some_iff.mp hedit
  obtain ⟨⟨semester, input'', stdin'''⟩, hsemester, hedit⟩ := Option.bind_eq_some_iff.mp hedit
  obtain rfl : stdin''' = rest' := congrArg Prod.snd (Option.some.inj hedit)
  rw [rest_of_readLine hsemester, rest_of_readLine haddress, rest_of_readLine hname]

/-- `modify_record` takes the three lines, each field from its own. -/
def TakesThreeLines (garbage : Buffer) (record : Record) (first second third : TextLine)
    (rest : List UInt8) : Prop :=
  modifyRecordFrom garbage record (first.before (second.before (third.before rest))) =
    some ({ record with
        name := strncpy 80 (first.text.take 79)
        address := strncpy 80 (second.text.take 79)
        semester := UInt8.ofNat (strtol third.text % 256).toNat }, rest)

section ThreeLines

variable {garbage : Buffer} {record : Record} {first second third : TextLine}
  {rest : List UInt8}

theorem takesThreeLines_of_le (hfirst : first.text.length ≤ 78)
    (hsecond : second.text.length ≤ 78) (hthird : third.text.length ≤ 78) :
    TakesThreeLines garbage record first second third rest := by
  obtain ⟨name, input, hname, hn⟩ :=
    readLine_of_le first hfirst garbage (second.before (third.before rest))
  obtain ⟨address, input', haddress, ha⟩ :=
    readLine_of_le second hsecond input (third.before rest)
  obtain ⟨semester, input'', hsemester, hs⟩ := readLine_of_le third hthird input' rest
  unfold TakesThreeLines modifyRecordFrom readEdit
  simp only [hname, haddress, hsemester, Option.bind_eq_bind, Option.bind_some]
  rw [List.take_of_length_le (by omega), List.take_of_length_le (by omega), modifyRecord,
    hn, ha, hs]

/-- Three calls of `fgets` get past three newlines only if none of them stops before its own. -/
theorem le_of_takesThreeLines (h : TakesThreeLines garbage record first second third rest) :
    first.text.length ≤ 78 ∧ second.text.length ≤ 78 ∧ third.text.length ≤ 78 := by
  have hrest := rest_of_modifyRecordFrom h
  have hfirst : first.text.length ≤ 78 := by
    by_contra hgt
    have hleft := count_rest_of_gt first (not_le.mp hgt) (second.before (third.before rest))
    generalize (takeLine 10 79 (first.before (second.before (third.before rest)))).2 = stdin
      at hrest hleft
    have hone := count_le_count_rest 10 79 stdin
    have htwo := count_le_count_rest 10 79 (takeLine 10 79 stdin).2
    rw [← hrest] at htwo
    simp only [TextLine.before, List.count_append, List.count_cons_self] at hleft
    omega
  have htake : (takeLine 10 79 (first.before (second.before (third.before rest)))).2 =
      second.before (third.before rest) := by
    rw [TextLine.before, takeLine_of_lt first.noNewline (Nat.lt_succ_of_le hfirst)]
  rw [htake] at hrest
  have hsecond : second.text.length ≤ 78 := by
    by_contra hgt
    have hleft := count_rest_of_gt second (not_le.mp hgt) (third.before rest)
    have hone := count_le_count_rest 10 79 (takeLine 10 79 (second.before (third.before rest))).2
    rw [← hrest] at hone
    simp only [TextLine.before, List.count_append, List.count_cons_self] at hleft hone
    omega
  have htake' : (takeLine 10 79 (second.before (third.before rest))).2 = third.before rest := by
    rw [TextLine.before, takeLine_of_lt second.noNewline (Nat.lt_succ_of_le hsecond)]
  rw [htake'] at hrest
  refine ⟨hfirst, hsecond, ?_⟩
  by_contra hgt
  have hleft := count_rest_of_gt third (not_le.mp hgt) rest
  rw [← hrest] at hleft
  omega

end ThreeLines

/-- `modify_record` stays in step exactly if none of the lines is longer than 78 bytes. -/
theorem takesThreeLines_iff (garbage : Buffer) (record : Record) (first second third : TextLine)
    (rest : List UInt8) :
    TakesThreeLines garbage record first second third rest ↔
      first.text.length ≤ 78 ∧ second.text.length ≤ 78 ∧ third.text.length ≤ 78 := by
  constructor
  · exact le_of_takesThreeLines
  · rintro ⟨hfirst, hsecond, hthird⟩
    exact takesThreeLines_of_le hfirst hsecond hthird

/-- A name of 79 bytes leaves its newline to the address. -/
theorem address_from_name :
    ¬∀ garbage record first second third rest,
      TakesThreeLines garbage record first second third rest := by
  intro h
  have hle := le_of_takesThreeLines (h (Vector.replicate 80 0) Record.zero
    ⟨List.replicate 79 65, by simp, by simp⟩ ⟨[66], by decide, by decide⟩
    ⟨[49], by decide, by decide⟩ [])
  simp at hle

end OsaspLabs.Records
