import OsaspLabs.Lab1.Walk

/-! # What the walk of LAB_1 prints

A directory with everything below it is a tree; the walk prints the selected entries before and
after their neighbours in the order of `readdir`. -/

namespace OsaspLabs.Lab1

open Memory CString
open Lab8 (pathMax)

inductive Leaf where
  | regular
  | link (target : List UInt8)
  /-- A device, a socket or a pipe. -/
  | other

/-- The entries of a directory from one of them on. -/
inductive Tree where
  | nil
  | leaf (name : List UInt8) (kind : Leaf) (rest : Tree)
  | directory (name : List UInt8) (content rest : Tree)

namespace Tree

def names : Tree → List (List UInt8)
  | nil => []
  | leaf name _ rest => name :: rest.names
  | directory name _ rest => name :: rest.names

/-- The links of the tree with their paths. -/
def links (dir : List UInt8) : Tree → List (List UInt8 × List UInt8)
  | nil => []
  | leaf name (.link target) rest => (joined dir name, target) :: rest.links dir
  | leaf _ _ rest => rest.links dir
  | directory name content rest => content.links (joined dir name) ++ rest.links dir

/-- The lines of the selected entries, and each directory as it is opened. -/
def selected (flags : Flags) (dir : List UInt8) : Tree → List Event
  | nil => []
  | leaf name .regular rest =>
      (if flags.files then [fileLine (joined dir name)] else []) ++ rest.selected flags dir
  | leaf name (.link target) rest =>
      (if flags.symlink then [linkLine (joined dir name) target] else []) ++
        rest.selected flags dir
  | leaf _ .other rest => rest.selected flags dir
  | directory name content rest =>
      (if flags.directories then [dirLine (joined dir name)] else []) ++
        .opendir (joined dir name) :: content.selected flags (joined dir name) ++
        rest.selected flags dir

end Tree

/-! ## A tree in the file system -/

section Stored

variable (fs : FileSystem)

/-- The directory can be opened and has these entries besides `.` and `..`. -/
def Lists (dir : List UInt8) (entries : List (List UInt8)) : Prop :=
  ∃ names, fs.opendir dir = .ok names ∧ names.filter isEntry = entries

def Leaf.Stored (path : List UInt8) : Leaf → Prop
  | .regular => fs.lstat path = .ok .regular
  | .link target => fs.lstat path = .ok .link ∧ fs.readlink path = some target
  | .other => fs.lstat path = .ok .other

/-- The calls for the entries succeed and tell what the tree says. -/
def Tree.Stored (dir : List UInt8) : Tree → Prop
  | .nil => True
  | .leaf name kind rest => kind.Stored fs (joined dir name) ∧ rest.Stored dir
  | .directory name content rest =>
      fs.lstat (joined dir name) = .ok .directory ∧ Lists fs (joined dir name) content.names ∧
        content.Stored (joined dir name) ∧ rest.Stored dir

/-- The directory holds the tree. -/
structure Holds (dir : List UInt8) (t : Tree) : Prop where
  lists : Lists fs dir t.names
  stored : t.Stored fs dir

end Stored

section Tree

variable {fs : FileSystem} {g : Garbage} {flags : Flags}

theorem Leaf.Stored.short {path : List UInt8} {l : Leaf} (h : l.Stored fs path) :
    path.length < pathMax := by
  cases l with
  | regular => exact fs.path_of_lstat h
  | link target => exact fs.path_of_lstat h.1
  | other => exact fs.path_of_lstat h

theorem Lists.isEntry {dir : List UInt8} {entries : List (List UInt8)} (h : Lists fs dir entries)
    {name : List UInt8} (hmem : name ∈ entries) : isEntry name = true := by
  obtain ⟨names, _, rfl⟩ := h
  exact (List.mem_filter.mp hmem).2

/-- Where every `lstat` succeeds all paths fit. -/
theorem Tree.Stored.fits {dir : List UInt8} {t : Tree} (h : t.Stored fs dir) :
    ∀ name ∈ t.names, PathFits dir name := by
  have hshort : ∀ name, (joined dir name).length < pathMax → PathFits dir name := by
    intro name hlt
    rw [length_joined] at hlt
    exact Nat.le_of_lt hlt
  induction t with
  | nil => simp [Tree.names]
  | leaf name l rest ih =>
      intro n hn
      cases List.mem_cons.mp hn with
      | inl heq => exact heq ▸ hshort name h.1.short
      | inr hrest => exact ih h.2 n hrest
  | directory name content rest _ ih =>
      intro n hn
      cases List.mem_cons.mp hn with
      | inl heq => exact heq ▸ hshort name (fs.path_of_lstat h.1)
      | inr hrest => exact ih h.2.2.2 n hrest

theorem Tree.Stored.target {dir : List UInt8} {t : Tree} (h : t.Stored fs dir) :
    ∀ link ∈ t.links dir, link.2.length ≤ pathMax ∧ 0 ∉ link.2 := by
  induction t generalizing dir with
  | nil => simp [Tree.links]
  | leaf name l rest ih =>
      cases l with
      | regular => exact ih h.2
      | other => exact ih h.2
      | link target =>
          intro link hlink
          cases List.mem_cons.mp hlink with
          | inl heq => exact heq ▸ fs.target h.1.2
          | inr hrest => exact ih h.2 link hrest
  | directory name content rest ihcontent ihrest =>
      intro link hlink
      cases List.mem_append.mp hlink with
      | inl hin => exact ihcontent h.2.2.1 link hin
      | inr hrest => exact ihrest h.2.2.2 link hrest

/-! ## What the code prints for a tree -/

/-- Lines and opened directories, but no colours. -/
def Event.visible : Event → Bool
  | .opendir _ | .line _ => true
  | .pathName .. | .colour _ => false

@[simp] theorem visible_opendir (path : List UInt8) : (Event.opendir path).visible = true := rfl

@[simp] theorem visible_line (text : List UInt8) : (Event.line text).visible = true := rfl

@[simp] theorem visible_pathName (dir name path : List UInt8) :
    (Event.pathName dir name path).visible = false := rfl

@[simp] theorem visible_colour (code : String) : (Event.colour code).visible = false := rfl

/-- What the code prints for the tree: a line for each link. -/
def Tree.browsed (g : Garbage) (flags : Flags) (dir : List UInt8) : Tree → List Event
  | .nil => []
  | .leaf name .regular rest =>
      (if flags.files then [fileLine (joined dir name)] else []) ++ rest.browsed g flags dir
  | .leaf name (.link target) rest =>
      linkLine (joined dir name) (shownTarget g (joined dir name) target) ::
        rest.browsed g flags dir
  | .leaf _ .other rest => rest.browsed g flags dir
  | .directory name content rest =>
      (if flags.directories then [dirLine (joined dir name)] else []) ++
        .opendir (joined dir name) :: content.browsed g flags (joined dir name) ++
        rest.browsed g flags dir

/-- `.` and `..` add nothing. -/
theorem loopEvents_filter {browse : List UInt8 → Option (List Event)} {dir : List UInt8}
    (l : List (List UInt8)) :
    loopEvents fs g flags browse dir (l.filter isEntry) =
      loopEvents fs g flags browse dir l := by
  induction l with
  | nil => rfl
  | cons name l ih =>
      by_cases h : isEntry name = true
      · rw [List.filter_cons_of_pos h, loopEvents, loopEvents, ih]
      · rw [List.filter_cons_of_neg h, ih, loopEvents]
        have hnone : entryEvents fs g flags browse dir name = some [] := by
          rw [entryEvents, if_neg h]
        simp [hnone]

theorem directoryBrowsing_of_lists {dir : List UInt8} {entries : List (List UInt8)}
    (h : Lists fs dir entries) (hfits : ∀ name ∈ entries, PathFits dir name) (fuel : ℕ) :
    directoryBrowsing fs g flags (fuel + 1) dir =
      (loopEvents fs g flags (directoryBrowsing fs g flags fuel) dir entries).map
        (.opendir dir :: ·) := by
  obtain ⟨names, hopen, rfl⟩ := h
  rw [loopEvents_filter, directoryBrowsing_eq hopen]
  intro name hmem hentry
  exact hfits name (List.mem_filter.mpr ⟨hmem, hentry⟩)

theorem loopEvents_cons {browse : List UInt8 → Option (List Event)} {dir name : List UInt8}
    {l : List (List UInt8)} {events rest : List Event} (hentry : isEntry name = true)
    (hpath : browsePath fs g flags browse (joined dir name) = some events)
    (hrest : loopEvents fs g flags browse dir l = some rest) :
    loopEvents fs g flags browse dir (name :: l) =
      some (.pathName dir name (joined dir name) :: events ++ rest) := by
  simp [loopEvents, entryEvents, hentry, hpath, hrest]

/-- The walk of a directory that holds a tree. -/
theorem loopEvents_of_stored {t : Tree} {dir : List UInt8} {fuel : ℕ}
    (hfuel : pathMax ≤ fuel + 1 + dir.length) (h : t.Stored fs dir)
    (hentries : ∀ name ∈ t.names, isEntry name = true) :
    ∃ events, loopEvents fs g flags (directoryBrowsing fs g flags fuel) dir t.names =
      some events ∧ events.filter Event.visible = t.browsed g flags dir := by
  induction t generalizing dir fuel with
  | nil => exact ⟨[], rfl, rfl⟩
  | leaf name l rest ih =>
      obtain ⟨events, hevents, hvisible⟩ :=
        ih hfuel h.2 fun n hn => hentries n (List.mem_cons_of_mem name hn)
      have hentry := hentries name List.mem_cons_self
      cases l with
      | regular =>
          have hstat : fs.lstat (joined dir name) = .ok .regular := h.1
          refine ⟨_, loopEvents_cons hentry (by simp only [browsePath, hstat]; rfl) hevents, ?_⟩
          cases hfiles : flags.files <;>
            simp [List.filter_cons, printFile, fileLine, printOff, Tree.browsed, hvisible, hfiles]
      | link target =>
          obtain ⟨hstat, hlink⟩ : fs.lstat (joined dir name) = .ok .link ∧
            fs.readlink (joined dir name) = some target := h.1
          refine ⟨_, loopEvents_cons hentry (by simp only [browsePath, hstat, hlink]; rfl) hevents,
            ?_⟩
          split <;> simp [List.filter_cons, printLink, linkLine, printOff, Tree.browsed, hvisible]
      | other =>
          have hstat : fs.lstat (joined dir name) = .ok .other := h.1
          refine ⟨_, loopEvents_cons hentry (by simp only [browsePath, hstat]; rfl) hevents, ?_⟩
          simp [Tree.browsed, hvisible]
  | directory name content rest ihcontent ihrest =>
      obtain ⟨hstat, hlists, hcontent, hrest⟩ := h
      obtain ⟨events, hevents, hvisible⟩ :=
        ihrest hfuel hrest fun n hn => hentries n (List.mem_cons_of_mem name hn)
      have hentry := hentries name List.mem_cons_self
      have hshort := fs.path_of_lstat hstat
      have hlonger := length_joined dir name
      -- the call for the directory still has fuel
      obtain ⟨fuel, rfl⟩ : ∃ n, fuel = n + 1 := ⟨fuel - 1, by omega⟩
      obtain ⟨below, hbrowsed, hvisible'⟩ := @ihcontent (joined dir name) fuel (by omega) hcontent
        fun _ hn => hlists.isEntry hn
      have hcall : directoryBrowsing fs g flags (fuel + 1) (joined dir name) =
          some (.opendir (joined dir name) :: below) := by
        rw [directoryBrowsing_of_lists hlists hcontent.fits, hbrowsed, Option.map_some]
      refine ⟨_, loopEvents_cons hentry
        (by simp only [browsePath, hstat, hcall, Option.bind_eq_bind, Option.bind_some]; rfl)
        hevents, ?_⟩
      cases hdirectories : flags.directories <;>
        simp [List.filter_cons, printDir, dirLine, printOff, Tree.browsed, hvisible, hvisible',
          hdirectories]

theorem directoryBrowsing_of_holds {t : Tree} {dir : List UInt8} {fuel : ℕ}
    (hfuel : pathMax ≤ fuel) (h : Holds fs dir t) :
    ∃ log, directoryBrowsing fs g flags fuel dir = some log ∧
      log.filter Event.visible = .opendir dir :: t.browsed g flags dir := by
  obtain ⟨fuel, rfl⟩ : ∃ n, fuel = n + 1 :=
    ⟨fuel - 1, (Nat.succ_pred_eq_of_pos (Nat.lt_of_lt_of_le (by decide) hfuel)).symm⟩
  obtain ⟨events, hevents, hvisible⟩ := @loopEvents_of_stored fs g flags t dir fuel
    (hfuel.trans (Nat.le_add_right _ _)) h.stored fun _ hn => h.lists.isEntry hn
  refine ⟨.opendir dir :: events, ?_, ?_⟩
  · rw [directoryBrowsing_of_lists h.lists h.stored.fits, hevents, Option.map_some]
  · rw [List.filter_cons_of_pos (visible_opendir dir), hvisible]

/-! ## The selected entries -/

/-- A target is shown as it is if a NUL stands right behind it. -/
theorem shownTarget_eq_iff {path target : List UInt8} (hlen : target.length ≤ pathMax)
    (hnul : 0 ∉ target) :
    shownTarget g path target = target ↔ (g.targetName path)[target.length]? = some 0 := by
  have hin : target.length < pathMax + 1 := Nat.lt_succ_of_le hlen
  have hcell : (g.targetName path)[target.length]? = some (g.targetName path)[target.length] :=
    Vector.getElem?_eq_getElem hin
  unfold shownTarget
  rw [drop_of_getElem? hcell, hcell, Option.some.injEq, List.append_assoc,
    List.takeWhile_append_of_pos]
  · by_cases hzero : (g.targetName path)[target.length] = 0
    · simp [hzero]
    · simp [hzero]
  · intro c hc
    simpa using ne_of_mem_of_not_mem hc hnul

theorem linkLine_inj {path target target' : List UInt8} :
    linkLine path target = linkLine path target' ↔ target = target' := by
  simp [linkLine]

/-- The code prints no less than the selected lines. -/
theorem Tree.length_selected_le (t : Tree) (dir : List UInt8) :
    (t.selected flags dir).length ≤ (t.browsed g flags dir).length := by
  induction t generalizing dir with
  | nil => exact Nat.le_refl _
  | leaf name kind rest ih =>
      have hrest := ih dir
      cases kind with
      | regular => simpa only [selected, browsed, List.length_append, Nat.add_le_add_iff_left]
      | link target =>
          simp only [selected, browsed, List.length_append, List.length_cons]
          split <;> simp only [List.length_singleton, List.length_nil] <;> omega
      | other => exact hrest
  | directory name content rest ihcontent ihrest =>
      have hcontent := ihcontent (joined dir name)
      have hrest := ihrest dir
      simp only [selected, browsed, List.length_append, List.length_cons]
      omega

/-- Two lists with the same front part and no shorter halves are equal only half by half. -/
theorem append_eq_append_iff_of_length_le {α : Type*} {a a' b b' : List α}
    (h : a'.length ≤ a.length) (h' : b'.length ≤ b.length) :
    a ++ b = a' ++ b' ↔ a = a' ∧ b = b' := by
  constructor
  · intro heq
    have hlen := congrArg List.length heq
    simp only [List.length_append] at hlen
    exact List.append_inj heq (by omega)
  · rintro ⟨rfl, rfl⟩
    rfl

/-- The code prints the selected lines if each link of the tree is selected and shown as it
is. -/
theorem Tree.browsed_eq_selected_iff (t : Tree) (dir : List UInt8)
    (htarget : ∀ link ∈ t.links dir, link.2.length ≤ pathMax ∧ 0 ∉ link.2) :
    t.browsed g flags dir = t.selected flags dir ↔
      ∀ link ∈ t.links dir,
        flags.symlink = true ∧ (g.targetName link.1)[link.2.length]? = some 0 := by
  induction t generalizing dir with
  | nil => simp [browsed, selected, links]
  | leaf name kind rest ih =>
      cases kind with
      | regular =>
          simp only [browsed, selected, links, List.append_cancel_left_eq]
          exact ih dir htarget
      | other => exact ih dir htarget
      | link target =>
          simp only [links, List.forall_mem_cons] at htarget ⊢
          obtain ⟨⟨hlen, hnul⟩, hrest⟩ := htarget
          rw [← ih dir hrest, browsed, selected]
          cases hsymlink : flags.symlink with
          | true =>
              simp only [if_true, List.singleton_append, List.cons.injEq, linkLine_inj,
                shownTarget_eq_iff hlen hnul, true_and]
          | false =>
              -- one line too many
              have hle := @Tree.length_selected_le g flags rest dir
              simp only [Bool.false_eq_true, if_false, List.nil_append, false_and, iff_false]
              intro heq
              have hlength := congrArg List.length heq
              rw [List.length_cons] at hlength
              omega
  | directory name content rest ihcontent ihrest =>
      simp only [links, List.forall_mem_append] at htarget ⊢
      rw [← ihcontent (joined dir name) htarget.1, ← ihrest dir htarget.2, browsed, selected,
        List.append_assoc, List.append_assoc, List.append_cancel_left_eq, List.cons_append,
        List.cons_append, List.cons.injEq]
      simp only [true_and]
      exact append_eq_append_iff_of_length_le (content.length_selected_le _)
        (rest.length_selected_le dir)

end Tree

/-- The walk prints exactly the selected entries if and only if the tree has no link, or links are
selected and in `targetName` a NUL stands right behind each target. -/
theorem walk_selects_iff {fs : FileSystem} {dir : List UInt8} {t : Tree} (h : Holds fs dir t)
    (g : Garbage) (flags : Flags) {fuel : ℕ} (hfuel : pathMax ≤ fuel) :
    (∃ log, directoryBrowsing fs g flags fuel dir = some log ∧
      log.filter Event.visible = .opendir dir :: t.selected flags dir) ↔
      ∀ link ∈ t.links dir,
        flags.symlink = true ∧ (g.targetName link.1)[link.2.length]? = some 0 := by
  obtain ⟨log, hlog, hvisible⟩ := @directoryBrowsing_of_holds fs g flags t dir fuel hfuel h
  rw [← t.browsed_eq_selected_iff dir h.stored.target]
  constructor
  · rintro ⟨log', hlog', hselected⟩
    obtain rfl := Option.some.inj (hlog.symm.trans hlog')
    exact (List.cons.inj (hvisible.symm.trans hselected)).2
  · intro heq
    exact ⟨log, hlog, by rw [hvisible, heq]⟩

/-- A directory `d` with the one entry `l`, a link to `t`. -/
def oneLink : FileSystem where
  opendir p := if p = [100] then .ok [[46], [108]] else .error []
  lstat p := if p = [100, 47, 108] then .ok .link else .error []
  readlink p := if p = [100, 47, 108] then some [116] else none
  path_of_opendir := by
    intro p names h
    split at h
    · rename_i hp
      rw [hp]
      exact ⟨by decide, by decide⟩
    · cases h
  path_of_lstat := by
    intro p type h
    split at h
    · rename_i hp
      rw [hp]
      decide
    · cases h
  names := by
    intro p l h
    split at h
    · cases h
      decide
    · cases h
  target := by
    intro p t h
    split at h
    · cases h
      decide
    · cases h

theorem holds_oneLink : Holds oneLink [100] (.leaf [108] (.link [116]) .nil) where
  lists := ⟨[[46], [108]], rfl, by decide⟩
  stored := ⟨⟨rfl, rfl⟩, trivial⟩

/-- The link is selected, and the array holds zeros. -/
theorem walk_selects_iff_oneLink :
    ∃ log, directoryBrowsing oneLink
        ⟨fun _ => Vector.replicate (pathMax + 1) 1, fun _ => Vector.replicate (pathMax + 1) 0,
          fun _ => []⟩ ⟨true, false, false⟩ pathMax [100] = some log ∧
      log.filter Event.visible = [.opendir [100], linkLine [100, 47, 108] [116]] := by
  apply (walk_selects_iff holds_oneLink _ _ (Nat.le_refl _)).mpr
  intro link hlink
  have hzero : ∀ n < pathMax + 1,
      (Vector.replicate (pathMax + 1) (0 : UInt8))[n]? = some 0 := by
    intro n hn
    simp [hn]
  cases List.mem_singleton.mp hlink
  exact ⟨rfl, hzero _ (by decide)⟩

/-- Links are not selected, and there is one. -/
theorem link_printed :
    ¬∀ (fs : FileSystem) (dir : List UInt8) (t : Tree) (g : Garbage) (flags : Flags),
      Holds fs dir t → ∃ log, directoryBrowsing fs g flags pathMax dir = some log ∧
        log.filter Event.visible = .opendir dir :: t.selected flags dir := by
  intro h
  let zero : PathBuffer := Vector.replicate (pathMax + 1) 0
  let g : Garbage := ⟨fun _ => zero, fun _ => zero, fun _ => []⟩
  obtain ⟨log, hlog, hselected⟩ := h oneLink [100] _ g ⟨false, true, true⟩ holds_oneLink
  obtain ⟨log', hlog', hvisible⟩ := @directoryBrowsing_of_holds oneLink g ⟨false, true, true⟩ _ _
    pathMax (Nat.le_refl _) holds_oneLink
  obtain rfl := Option.some.inj (hlog.symm.trans hlog')
  have hlength := congrArg List.length (hvisible.symm.trans hselected)
  exact absurd hlength (by decide)

end OsaspLabs.Lab1
