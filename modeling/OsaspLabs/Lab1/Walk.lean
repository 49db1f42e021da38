import OsaspLabs.Lab1.PathName

/-! # The walk of LAB_1

`directory_browsing` calls itself for each directory that it finds. -/

namespace OsaspLabs.Lab1

open Memory CString
open Lab8 (pathMax FileType)

def nameMax : ℕ := 255

/-- What the system answers. -/
structure FileSystem where
  /-- The names in a directory, in the order of `readdir`, or the text of the error. -/
  opendir : List UInt8 → Except (List UInt8) (List (List UInt8))
  lstat : List UInt8 → Except (List UInt8) FileType
  readlink : List UInt8 → Option (List UInt8)
  path_of_opendir : ∀ {p names}, opendir p = .ok names → p.length < pathMax ∧ 0 ∉ p
  path_of_lstat : ∀ {p type}, lstat p = .ok type → p.length < pathMax
  names : ∀ {p l}, opendir p = .ok l → ∀ name ∈ l, name.length ≤ nameMax ∧ 0 ∉ name
  target : ∀ {p t}, readlink p = some t → t.length ≤ pathMax ∧ 0 ∉ t

/-- What the arrays of a call hold when it starts: `pathName` by the directory, `targetName` by the
link. -/
structure Garbage where
  pathName : List UInt8 → PathBuffer
  targetName : List UInt8 → PathBuffer
  /-- What stands in memory behind `targetName` up to a NUL. -/
  behind : List UInt8 → List UInt8

structure Flags where
  symlink : Bool
  directories : Bool
  files : Bool
  deriving DecidableEq

inductive Event where
  | opendir (path : List UInt8)
  /-- `pathName` holds the path of an entry. -/
  | pathName (dir name path : List UInt8)
  /-- `PRINT_DIR` and the like. -/
  | colour (code : String)
  | line (text : List UInt8)
  deriving DecidableEq

def printDir : Event := .colour "\x1b[1;32m"

def printFile : Event := .colour "\x1b[0;37m"

def printLink : Event := .colour "\x1b[0;36m"

def printOff : Event := .colour "\x1b[0m"

/-- The text of `targetName` for `printf`: `readlink` puts no NUL behind the target. -/
def shownTarget (g : Garbage) (path target : List UInt8) : List UInt8 :=
  (target ++ (g.targetName path).toList.drop target.length ++ g.behind path).takeWhile (· != 0)

def dirLine (path : List UInt8) : Event := .line (path ++ [10])

def fileLine (path : List UInt8) : Event := .line (path ++ [32, 10])

def linkLine (path target : List UInt8) : Event :=
  .line (path ++ ascii [' ', '-', '>', ' '] ++ target ++ [10])

/-- What is done with an entry, once its path is in `pathName`. -/
def browsePath (fs : FileSystem) (g : Garbage) (flags : Flags)
    (browse : List UInt8 → Option (List Event)) (path : List UInt8) : Option (List Event) :=
  match fs.lstat path with
  | .error text =>
      some [.line (ascii ['E', 'r', 'r', 'o', 'r', ' ', 's', 't', 'a', 'r', 't', 'i', 'n', 'g', ' ']
        ++ path ++ ascii [':', ' '] ++ text ++ [10])]
  | .ok .directory => do
      let below ← browse path
      some ((if flags.directories then [printDir, dirLine path, printOff] else []) ++ below)
  | .ok .regular => some (if flags.files then [printFile, fileLine path, printOff] else [])
  | .ok .link =>
      match fs.readlink path with
      | some target =>
          -- only the first of the two statements of the macro and the call is under the `if`
          some ((if flags.symlink then [printLink] else []) ++
            [linkLine path (shownTarget g path target), printOff])
      | none =>
          some (if flags.symlink then
            [.line (path ++ ascii [' ', '-', '>', ' ', '(', 'i', 'n', 'v', 'a', 'l', 'i', 'd', ' ',
              's', 'y', 'm', 'b', 'o', 'l', 'i', 'c', ' ', 'l', 'i', 'n', 'k', '!', ')', '\n'])]
            else [])
  | .ok .other => some []

/-- One turn of the loop. -/
def browseEntry (fs : FileSystem) (g : Garbage) (flags : Flags)
    (browse : List UInt8 → Option (List Event)) (dir : List UInt8)
    (st : PathBuffer × List Event) (name : List UInt8) : Option (PathBuffer × List Event) :=
  if isEntry name then do
    let pathName ← buildPathName st.1 dir name
    let path ← stringAt pathName 0
    let events ← browsePath fs g flags browse path
    some (pathName, st.2 ++ .pathName dir name path :: events)
  else some st

/-- The first argument bounds the depth of the recursion. -/
def directoryBrowsing (fs : FileSystem) (g : Garbage) (flags : Flags) :
    ℕ → List UInt8 → Option (List Event)
  | 0, _ => none
  | fuel + 1, introducedDir =>
      match fs.opendir introducedDir with
      | .error text =>
          some [.opendir introducedDir,
            .line (ascii ['E', 'r', 'r', 'o', 'r', ' ', 'o', 'p', 'e', 'n', 'i', 'n', 'g', ' '] ++
              introducedDir ++ ascii [':', ' '] ++ text)]
      | .ok names => do
          let st ← names.foldlM
            (browseEntry fs g flags (directoryBrowsing fs g flags fuel) introducedDir)
            (g.pathName introducedDir, [.opendir introducedDir])
          some st.2

/-! ## One entry -/

section Entry

variable {fs : FileSystem} {g : Garbage} {flags : Flags}
  {browse : List UInt8 → Option (List Event)} {dir : List UInt8} {names : List (List UInt8)}

/-- What an entry adds to the events, if its path fits. -/
def entryEvents (fs : FileSystem) (g : Garbage) (flags : Flags)
    (browse : List UInt8 → Option (List Event)) (dir name : List UInt8) : Option (List Event) :=
  if isEntry name then
    (browsePath fs g flags browse (joined dir name)).map
      (.pathName dir name (joined dir name) :: ·)
  else some []

/-- What the array held does not matter. -/
theorem browseEntry_eq (hopen : fs.opendir dir = .ok names) {name : List UInt8}
    (hmem : name ∈ names) (hfits : isEntry name = true → PathFits dir name)
    (pathName : PathBuffer) (log : List Event) :
    ∃ pathName', browseEntry fs g flags browse dir (pathName, log) name =
      (entryEvents fs g flags browse dir name).map fun events => (pathName', log ++ events) := by
  obtain ⟨hdir, hnul⟩ := fs.path_of_opendir hopen
  obtain ⟨hname, hnul'⟩ := fs.names hopen name hmem
  have hname : name.length ≤ pathMax := hname.trans (by decide)
  unfold browseEntry entryEvents
  by_cases hentry : isEntry name = true
  · obtain ⟨p, hp⟩ :=
      (buildPathName_isSome_iff hdir hnul hname pathName).mpr (hfits hentry)
    have hstring := stringAt_buildPathName hdir hnul hname hnul' hp
    refine ⟨p, ?_⟩
    simp only [hentry, if_true, hp, hstring, Option.bind_eq_bind, Option.bind_some]
    cases browsePath fs g flags browse (joined dir name) <;> rfl
  · refine ⟨pathName, ?_⟩
    simp [hentry]

/-- An entry whose path does not fit has no result. -/
theorem pathFits_of_browseEntry (hopen : fs.opendir dir = .ok names) {name : List UInt8}
    (hmem : name ∈ names) (hentry : isEntry name = true) {st st' : PathBuffer × List Event}
    (h : browseEntry fs g flags browse dir st name = some st') : PathFits dir name := by
  obtain ⟨hdir, hnul⟩ := fs.path_of_opendir hopen
  have hname := (fs.names hopen name hmem).1
  unfold browseEntry at h
  rw [if_pos hentry] at h
  obtain ⟨p, hp, _⟩ := Option.bind_eq_some_iff.mp h
  exact (buildPathName_isSome_iff hdir hnul (hname.trans (by decide)) st.1).mp ⟨p, hp⟩

/-- What the entries add to the events, one after the other. -/
def loopEvents (fs : FileSystem) (g : Garbage) (flags : Flags)
    (browse : List UInt8 → Option (List Event)) (dir : List UInt8) :
    List (List UInt8) → Option (List Event)
  | [] => some []
  | name :: l => do
      let events ← entryEvents fs g flags browse dir name
      let rest ← loopEvents fs g flags browse dir l
      some (events ++ rest)

/-- The loop over the entries of a directory. -/
theorem browseEntries_eq (hopen : fs.opendir dir = .ok names) {l : List (List UInt8)}
    (hsub : ∀ name ∈ l, name ∈ names)
    (hfits : ∀ name ∈ l, isEntry name = true → PathFits dir name)
    (pathName : PathBuffer) (log : List Event) :
    ∃ pathName', l.foldlM (browseEntry fs g flags browse dir) (pathName, log) =
      (loopEvents fs g flags browse dir l).map fun events => (pathName', log ++ events) := by
  induction l generalizing pathName log with
  | nil => exact ⟨pathName, by simp [loopEvents]⟩
  | cons name l ih =>
      obtain ⟨p, hp⟩ := @browseEntry_eq fs g flags browse dir names hopen name
        (hsub name List.mem_cons_self) (hfits name List.mem_cons_self) pathName log
      rw [List.foldlM_cons, hp]
      cases hevents : entryEvents fs g flags browse dir name with
      | none => exact ⟨pathName, by simp [loopEvents, hevents]⟩
      | some events =>
          obtain ⟨p', hp'⟩ := ih (fun n hn => hsub n (List.mem_cons_of_mem name hn))
            (fun n hn => hfits n (List.mem_cons_of_mem name hn)) p (log ++ events)
          refine ⟨p', ?_⟩
          simp only [Option.map_some, Option.bind_eq_bind, Option.bind_some, hp', loopEvents,
            hevents]
          cases loopEvents fs g flags browse dir l <;> simp

theorem directoryBrowsing_of_error {text : List UInt8} (hopen : fs.opendir dir = .error text)
    (fuel : ℕ) : ∃ text', directoryBrowsing fs g flags (fuel + 1) dir =
      some [.opendir dir, .line text'] := by
  rw [directoryBrowsing, hopen]
  exact ⟨_, rfl⟩

theorem directoryBrowsing_eq (hopen : fs.opendir dir = .ok names)
    (hfits : ∀ name ∈ names, isEntry name = true → PathFits dir name) (fuel : ℕ) :
    directoryBrowsing fs g flags (fuel + 1) dir =
      (loopEvents fs g flags (directoryBrowsing fs g flags fuel) dir names).map
        (.opendir dir :: ·) := by
  obtain ⟨p, hp⟩ := @browseEntries_eq fs g flags (directoryBrowsing fs g flags fuel) dir names
    hopen names (fun _ h => h) hfits (g.pathName dir) [.opendir dir]
  simp only [directoryBrowsing, hopen, hp]
  cases loopEvents fs g flags (directoryBrowsing fs g flags fuel) dir names <;> simp

end Entry

/-! ## The whole walk -/

/-- The directories that the walk of a directory comes to. -/
inductive Walked (fs : FileSystem) : List UInt8 → List UInt8 → Prop where
  | here (dir : List UInt8) : Walked fs dir dir
  | inside {dir name d : List UInt8} {names : List (List UInt8)}
      (opened : fs.opendir dir = .ok names) (mem : name ∈ names) (entry : isEntry name = true)
      (directory : fs.lstat (joined dir name) = .ok .directory)
      (walked : Walked fs (joined dir name) d) : Walked fs dir d

/-- Each path of the walk fits. -/
def AllFit (fs : FileSystem) (dir : List UInt8) : Prop :=
  ∀ d names, Walked fs dir d → fs.opendir d = .ok names →
    ∀ name ∈ names, isEntry name = true → PathFits d name

/-- The walk comes to its end, and each path is the directory, a slash and the name. -/
def WalksRight (fs : FileSystem) (g : Garbage) (flags : Flags) (fuel : ℕ) (dir : List UInt8) :
    Prop :=
  ∃ log, directoryBrowsing fs g flags fuel dir = some log ∧
    ∀ d name path, .pathName d name path ∈ log → path = joined d name

section Walk

variable {fs : FileSystem} {g : Garbage} {flags : Flags} {dir : List UInt8}

theorem AllFit.below {names : List (List UInt8)} {name : List UInt8} (h : AllFit fs dir)
    (hopen : fs.opendir dir = .ok names) (hmem : name ∈ names) (hentry : isEntry name = true)
    (hdirectory : fs.lstat (joined dir name) = .ok .directory) : AllFit fs (joined dir name) :=
  fun d l hwalked => h d l (.inside hopen hmem hentry hdirectory hwalked)

/-- What the walk of the directories below gives is right, so it is for an entry. -/
theorem entryEvents_right {browse : List UInt8 → Option (List Event)} {name : List UInt8}
    (hbrowse : isEntry name = true → fs.lstat (joined dir name) = .ok .directory →
      ∃ log, browse (joined dir name) = some log ∧
        ∀ d n path, .pathName d n path ∈ log → path = joined d n) :
    ∃ events, entryEvents fs g flags browse dir name = some events ∧
      ∀ d n path, .pathName d n path ∈ events → path = joined d n := by
  unfold entryEvents
  by_cases hentry : isEntry name = true
  · rw [if_pos hentry]
    have hpath : ∃ events, browsePath fs g flags browse (joined dir name) = some events ∧
        ∀ d n path, .pathName d n path ∈ events → path = joined d n := by
      unfold browsePath
      cases hstat : fs.lstat (joined dir name) with
      | error text => exact ⟨_, rfl, by simp⟩
      | ok type =>
          cases type with
          | directory =>
              obtain ⟨below, hbelow, hright⟩ := hbrowse hentry hstat
              refine ⟨_, by simp [hbelow]; rfl, ?_⟩
              intro d n path hmem
              apply hright
              split at hmem <;> simpa [printDir, dirLine, printOff] using hmem
          | regular =>
              refine ⟨_, rfl, ?_⟩
              split <;> simp [printFile, fileLine, printOff]
          | link =>
              cases fs.readlink (joined dir name) with
              | none =>
                  refine ⟨_, rfl, ?_⟩
                  split <;> simp
              | some target =>
                  refine ⟨_, rfl, ?_⟩
                  split <;> simp [printLink, linkLine, printOff]
          | other => exact ⟨[], rfl, by simp⟩
    obtain ⟨events, hevents, hright⟩ := hpath
    refine ⟨_, by rw [hevents, Option.map_some], ?_⟩
    intro d n path hmem
    cases List.mem_cons.mp hmem with
    | inl heq => cases heq; rfl
    | inr htail => exact hright d n path htail
  · exact ⟨[], by rw [if_neg hentry], by simp⟩

theorem loopEvents_right {browse : List UInt8 → Option (List Event)} {l : List (List UInt8)}
    (hentry : ∀ name ∈ l, ∃ events, entryEvents fs g flags browse dir name = some events ∧
      ∀ d n path, .pathName d n path ∈ events → path = joined d n) :
    ∃ events, loopEvents fs g flags browse dir l = some events ∧
      ∀ d n path, .pathName d n path ∈ events → path = joined d n := by
  induction l with
  | nil => exact ⟨[], rfl, by simp⟩
  | cons name l ih =>
      obtain ⟨events, hevents, hright⟩ := hentry name List.mem_cons_self
      obtain ⟨rest, hrest, hright'⟩ := ih fun n hn => hentry n (List.mem_cons_of_mem name hn)
      refine ⟨events ++ rest, by simp [loopEvents, hevents, hrest], ?_⟩
      intro d n path hmem
      cases List.mem_append.mp hmem with
      | inl h => exact hright d n path h
      | inr h => exact hright' d n path h

/-- Each call has a longer path than its caller, so the walk ends. -/
theorem walksRight_of_allFit {fuel : ℕ} (hpos : 0 < fuel) (hfuel : pathMax ≤ fuel + dir.length)
    (h : AllFit fs dir) : WalksRight fs g flags fuel dir := by
  induction fuel generalizing dir with
  | zero => exact absurd hpos (Nat.lt_irrefl 0)
  | succ fuel ih =>
      cases hopen : fs.opendir dir with
      | error text =>
          obtain ⟨text', hlog⟩ := directoryBrowsing_of_error hopen fuel
          exact ⟨_, hlog, by simp⟩
      | ok names =>
          have hentries : ∀ name ∈ names, ∃ events,
              entryEvents fs g flags (directoryBrowsing fs g flags fuel) dir name = some events ∧
                ∀ d n path, .pathName d n path ∈ events → path = joined d n := by
            intro name hmem
            apply entryEvents_right
            intro hentry hdirectory
            have hshort := fs.path_of_lstat hdirectory
            have hlonger := length_joined dir name
            exact ih (by omega) (by omega) (h.below hopen hmem hentry hdirectory)
          obtain ⟨events, hevents, hright⟩ := loopEvents_right hentries
          refine ⟨.opendir dir :: events, ?_, by simpa using hright⟩
          rw [directoryBrowsing_eq hopen (h dir names (.here dir) hopen), hevents, Option.map_some]

theorem exists_of_foldlM {α β : Type*} {f : β → α → Option β} {l : List α} {b b' : β}
    (h : l.foldlM f b = some b') : ∀ a ∈ l, ∃ c c', f c a = some c' := by
  induction l generalizing b with
  | nil => simp
  | cons x l ih =>
      rw [List.foldlM_cons] at h
      obtain ⟨c, hc, hrest⟩ := Option.bind_eq_some_iff.mp h
      intro a ha
      cases List.mem_cons.mp ha with
      | inl heq => exact ⟨b, c, heq ▸ hc⟩
      | inr hmem => exact ih hrest a hmem

/-- A walk that comes to its end has built each of its paths. -/
theorem fits_of_walked {d : List UInt8} (hwalked : Walked fs dir d) :
    ∀ {fuel log}, directoryBrowsing fs g flags fuel dir = some log →
      ∀ names, fs.opendir d = .ok names →
        ∀ name ∈ names, isEntry name = true → PathFits d name := by
  have hturn : ∀ {dir : List UInt8} {fuel log names}, fs.opendir dir = .ok names →
      directoryBrowsing fs g flags fuel dir = some log → ∀ name ∈ names,
        ∃ n st st', browseEntry fs g flags (directoryBrowsing fs g flags n) dir st name =
          some st' := by
    intro dir fuel log names hopen hlog name hmem
    cases fuel with
    | zero => cases hlog
    | succ fuel =>
        simp only [directoryBrowsing, hopen, Option.bind_eq_bind] at hlog
        obtain ⟨st, hst, _⟩ := Option.bind_eq_some_iff.mp hlog
        exact ⟨fuel, exists_of_foldlM hst name hmem⟩
  induction hwalked with
  | here dir =>
      intro fuel log hlog names hopen name hmem hentry
      obtain ⟨n, st, st', hst⟩ := hturn hopen hlog name hmem
      exact pathFits_of_browseEntry hopen hmem hentry hst
  | @inside dir name d names opened mem entry directory walked ih =>
      intro fuel log hlog
      obtain ⟨n, st, st', hst⟩ := hturn opened hlog name mem
      have hfits := pathFits_of_browseEntry opened mem entry hst
      obtain ⟨p, hp⟩ := @browseEntry_eq fs g flags (directoryBrowsing fs g flags n) dir names opened
        name mem (fun _ => hfits) st.1 st.2
      rw [hst] at hp
      obtain ⟨events, hevents, _⟩ := Option.map_eq_some_iff.mp hp.symm
      unfold entryEvents at hevents
      rw [if_pos entry] at hevents
      obtain ⟨events', hpath, _⟩ := Option.map_eq_some_iff.mp hevents
      simp only [browsePath, directory, Option.bind_eq_bind] at hpath
      obtain ⟨below, hbelow, _⟩ := Option.bind_eq_some_iff.mp hpath
      exact ih hbelow

theorem walksRight_iff {fuel : ℕ} (hfuel : pathMax ≤ fuel) :
    WalksRight fs g flags fuel dir ↔ AllFit fs dir := by
  constructor
  · rintro ⟨log, hlog, _⟩ d names hwalked hopen
    exact fits_of_walked hwalked hlog names hopen
  · exact walksRight_of_allFit (Nat.lt_of_lt_of_le (by decide) hfuel)
      (hfuel.trans (Nat.le_add_right _ _))

end Walk

/-- The walk of LAB_1 builds its paths right exactly if they all fit into `PATH_MAX` bytes, and so
does a turn of `cmd_list` in LAB_8, whatever `pathName` holds from the turn before. -/
theorem paths_built_iff (fs : FileSystem) (g : Garbage) (flags : Flags) (dir : List UInt8) :
    (∀ fuel, pathMax ≤ fuel → (WalksRight fs g flags fuel dir ↔ AllFit fs dir)) ∧
      ∀ (args : Lab8.Args) (path : List UInt8) (names : List (List UInt8)),
        stringAt args.currentPath 0 = some path →
        (∀ name ∈ names, name.length ≤ nameMax ∧ 0 ∉ name) →
        ((∀ name ∈ names, isEntry name = true → Built path name) ↔
          ∀ name ∈ names, isEntry name = true → PathFits path name) := by
  refine ⟨fun fuel hfuel => walksRight_iff hfuel, ?_⟩
  intro args path names hpath hnames
  have hlen := length_lt_of_stringAt hpath
  rw [Nat.zero_add] at hlen
  refine forall₂_congr fun name hmem => ?_
  obtain ⟨hname, hnul⟩ := hnames name hmem
  rw [built_iff hlen (nul_notMem_of_stringAt hpath) (hname.trans (by decide)) hnul]

/-- A path of 4000 bytes. -/
def longPath : List UInt8 := List.replicate 4000 47

/-- A name of 200 bytes. -/
def longName : List UInt8 := List.replicate 200 97

theorem length_longPath : longPath.length = 4000 := List.length_replicate

theorem length_longName : longName.length = 200 := List.length_replicate

/-- A directory far down with one entry. -/
def deep : FileSystem where
  opendir p := if p = longPath then .ok [longName] else .error []
  lstat _ := .error []
  readlink _ := none
  path_of_opendir := by
    intro p names h
    split at h
    · rename_i hp
      rw [hp, length_longPath]
      exact ⟨by decide, fun hmem => absurd (List.eq_of_mem_replicate hmem) (by decide)⟩
    · cases h
  path_of_lstat := nofun
  names := by
    intro p l h name hmem
    split at h
    · cases h
      rw [List.mem_singleton.mp hmem, length_longName]
      exact ⟨by decide, fun hmem => absurd (List.eq_of_mem_replicate hmem) (by decide)⟩
    · cases h
  target := nofun

theorem path_overflows :
    ¬∀ (fs : FileSystem) (g : Garbage) (flags : Flags) (dir : List UInt8) (fuel : ℕ),
      pathMax ≤ fuel → WalksRight fs g flags fuel dir := by
  intro h
  let zero : PathBuffer := Vector.replicate (pathMax + 1) 0
  have hright := h deep ⟨fun _ => zero, fun _ => zero, fun _ => []⟩ ⟨true, true, true⟩
    longPath pathMax (Nat.le_refl _)
  have hall := (walksRight_iff (Nat.le_refl _)).mp hright
  have hopen : deep.opendir longPath = .ok [longName] := by simp only [deep, if_true]
  have hentry : isEntry longName = true :=
    isEntry_of_length (by rw [length_longName]; decide)
  have hfits := hall longPath [longName] (.here _) hopen longName List.mem_cons_self hentry
  have hmax : pathMax = 4096 := rfl
  rw [PathFits, length_longPath, length_longName] at hfits
  omega

end OsaspLabs.Lab1
