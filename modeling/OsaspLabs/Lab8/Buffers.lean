import OsaspLabs.Lab1.PathName
import OsaspLabs.Lab8.Connection
import OsaspLabs.Lab8.Directory

/-! # The buffers of CD and LIST

CD appends its argument to the path of the session. LIST formats one line for each entry of a
directory and appends it to the payload of its packet. No call knows how much room is left. -/

namespace OsaspLabs.Lab8

open Memory CString Runs
open Lab1 (buildPathName joined PathFits isEntry)

/-- The command that the request in the buffer asks for. -/
def Args.command (args : Args) : Option Cmd := (stringAt args.buffer 0).bind parseRequest

/-- What C promises of the strings that the system returns. -/
structure Host.WellFormed (host : Host) : Prop where
  names : ∀ path names, host.opendir path = some names →
    ∀ name ∈ names, name.length ≤ 255 ∧ 0 ∉ name
  errors : ∀ path text, host.lstat path = .error text → 0 ∉ text

/-- A turn of the loop of `handle_server_msg`. -/
def serve (order : ByteOrder) (args : Args) (x : Received × Host) : Option Args :=
  if 0 < x.1.readSize then (handleRequest order x.2 (receive args x.1)).map Prod.fst else none

/-! ## What the handlers should do -/

/-- Both appends of CD stay in `current_path`. -/
def CdInBounds (host : Host) (args : Args) : Prop :=
  ∃ currentPath, processPath host args.currentPath args.buffer = some currentPath

/-- The loop of LIST stays in its arrays, and `size` is the length of the payload it leaves. -/
structure Listed (host : Host) (path : List UInt8) (names : List (List UInt8)) (l : Listing)
    (payload : List UInt8) : Prop where
  run : names.foldlM (listEntry host path)
    ⟨host.response, host.responseBuffer, host.pathName⟩ = some l
  data : stringAt l.response.data 0 = some payload
  size : l.response.size.toNat = payload.length

def ListInBounds (host : Host) (args : Args) : Prop :=
  ∀ path names, stringAt args.currentPath 0 = some path → host.opendir path = some names →
    ∃ l payload, Listed host path names l payload

structure InBounds (host : Host) (args : Args) : Prop where
  cd : args.command = some .cd → CdInBounds host args
  list : args.command = some .list → ListInBounds host args

/-! ## When they do it -/

/-- The path, a slash, the argument and the NUL are at most `PATH_MAX` bytes. -/
def CdFits (args : Args) : Prop :=
  ∃ old arg, stringAt args.currentPath 0 = some old ∧ stringAt args.buffer 3 = some arg ∧
    old.length + 1 + arg.length < pathMax

/-- The text of an entry: its line, or what the array held if no line is formatted. -/
def entryText (host : Host) (path : List UInt8) (responseBuffer : Vector UInt8 128) :
    Option (List UInt8) :=
  match host.lstat path with
  | .error text =>
      some (ascii ['E', 'r', 'r', 'o', 'r', ' ', 's', 't', 'a', 'r', 't', 'i', 'n', 'g', ' '] ++
        path ++ ascii [':', ' '] ++ text ++ [10])
  | .ok .directory => some (path ++ ascii ['/'] ++ [10])
  | .ok .regular => some (path ++ ascii [' '] ++ [10])
  | .ok .link =>
      match host.readlink path with
      | none => stringAt responseBuffer 0
      | some targetName => (stringAt targetName 0).map fun target =>
          path ++ ascii [' ', '-', '>', ' '] ++ target ++ [10]
  | .ok .other => stringAt responseBuffer 0

/-- The texts of the entries; the array is cleared after each of them. -/
def entryTexts (host : Host) (path : List UInt8) :
    Vector UInt8 128 → List (List UInt8) → Option (List (List UInt8))
  | _, [] => some []
  | responseBuffer, name :: names => do
      let text ← entryText host (joined path name) responseBuffer
      let texts ← entryTexts host path (Vector.replicate 128 0) names
      some (text :: texts)

/-- Every path fits, every text fits, and all of them fit behind `old`. -/
structure EntriesFit (host : Host) (path : List UInt8) (responseBuffer : Vector UInt8 128)
    (old : List UInt8) (entries : List (List UInt8)) (texts : List (List UInt8)) : Prop where
  formatted : entryTexts host path responseBuffer entries = some texts
  paths : ∀ name ∈ entries, PathFits path name
  lines : ∀ text ∈ texts, text.length < 128
  payload : old.length + texts.flatten.length < bufferSize

/-- The packet, which nothing initialises, holds a payload of the size it holds, and the entries
fit. -/
def ListFits (host : Host) (args : Args) : Prop :=
  ∀ path names, stringAt args.currentPath 0 = some path → host.opendir path = some names →
    ∃ old texts, stringAt host.response.data 0 = some old ∧
      host.response.size.toNat = old.length ∧
      EntriesFit host path host.responseBuffer old (names.filter isEntry) texts

structure RequestFits (host : Host) (args : Args) : Prop where
  cd : args.command = some .cd → CdFits args
  list : args.command = some .list → ListFits host args

/-! ## CD -/

theorem cdInBounds_iff (host : Host) (args : Args) : CdInBounds host args ↔ CdFits args := by
  have hlength (old arg : List UInt8) :
      (old ++ ascii ['/'] ++ arg).length = old.length + 1 + arg.length := by
    simp only [List.length_append, ascii, List.map_cons, List.map_nil, List.length_singleton]
  constructor
  · rintro ⟨currentPath, h⟩
    obtain ⟨old, arg, hold, harg, hlt, _⟩ := processPath_eq_some_iff.mp h
    rw [hlength] at hlt
    exact ⟨old, arg, hold, harg, hlt⟩
  · rintro ⟨old, arg, hold, harg, hlt⟩
    rw [← hlength] at hlt
    exact ⟨_, processPath_eq_some_iff.mpr ⟨old, arg, hold, harg, hlt, rfl⟩⟩

/-! ## One line -/

section Line

variable {host : Host} {path : List UInt8} {responseBuffer : Vector UInt8 128}

theorem nul_notMem_entryText (hhost : host.WellFormed) (hpath : 0 ∉ path) {text : List UInt8}
    (h : entryText host path responseBuffer = some text) : 0 ∉ text := by
  unfold entryText at h
  split at h
  · rename_i error herror
    cases h
    have herror := hhost.errors path error herror
    simp [hpath, herror, ascii]
  · cases h
    simp [hpath, ascii]
  · cases h
    simp [hpath, ascii]
  · split at h
    · exact nul_notMem_of_stringAt h
    · obtain ⟨target, htarget, rfl⟩ := Option.map_eq_some_iff.mp h
      have htarget := nul_notMem_of_stringAt htarget
      simp [hpath, htarget, ascii]
  · exact nul_notMem_of_stringAt h

/-- A copy of a string without NUL is read back as it is. -/
theorem strcpy_line_iff {s text : List UInt8} (hs : 0 ∉ s) :
    (∃ b, strcpy responseBuffer s = some b ∧ stringAt b 0 = some text) ↔
      s = text ∧ text.length < 128 := by
  constructor
  · rintro ⟨b, hb, htext⟩
    rw [stringAt_strcpy hb hs] at htext
    obtain rfl := Option.some.inj htext
    exact ⟨rfl, (strcpy_isSome_iff responseBuffer s).mp ⟨b, hb⟩⟩
  · rintro ⟨rfl, hlt⟩
    obtain ⟨b, hb⟩ := (strcpy_isSome_iff responseBuffer s).mpr hlt
    exact ⟨b, hb, stringAt_strcpy hb hs⟩

/-- An array that is left alone holds its own text. -/
theorem kept_line_iff {text : List UInt8} :
    (∃ b, some responseBuffer = some b ∧ stringAt b 0 = some text) ↔
      stringAt responseBuffer 0 = some text ∧ text.length < 128 := by
  constructor
  · rintro ⟨b, heq, htext⟩
    cases heq
    have hlt := length_lt_of_stringAt htext
    exact ⟨htext, by omega⟩
  · rintro ⟨htext, _⟩
    exact ⟨responseBuffer, rfl, htext⟩

/-- `response_buffer` gets the text of the entry exactly if the text fits. -/
theorem formatEntry_iff (hhost : host.WellFormed) (hpath : 0 ∉ path) {text : List UInt8} :
    (∃ b, formatEntry host path responseBuffer = some b ∧ stringAt b 0 = some text) ↔
      entryText host path responseBuffer = some text ∧ text.length < 128 := by
  have hnul : ∀ t, entryText host path responseBuffer = some t → 0 ∉ t :=
    fun _ => nul_notMem_entryText hhost hpath
  unfold formatEntry
  unfold entryText at hnul ⊢
  cases hstat : host.lstat path with
  | error error =>
      simp only [hstat] at hnul ⊢
      rw [strcpy_line_iff (hnul _ rfl), Option.some.injEq]
  | ok type =>
      cases type with
      | directory | regular =>
          simp only [hstat] at hnul ⊢
          rw [strcpy_line_iff (hnul _ rfl), Option.some.injEq]
      | other =>
          simp only
          exact kept_line_iff
      | link =>
          cases hlink : host.readlink path with
          | none =>
              simp only
              exact kept_line_iff
          | some targetName =>
              cases htarget : stringAt targetName 0 with
              | none => simp [htarget]
              | some target =>
                  simp only [hstat, hlink, htarget, Option.map_some] at hnul
                  simp only [htarget, Option.bind_eq_bind, Option.bind_some, Option.map_some]
                  rw [strcpy_line_iff (hnul _ rfl), Option.some.injEq]

end Line

/-! ## One entry -/

/-- A turn of the loop of LIST has appended a text to the payload. -/
structure Appended (old text : List UInt8) (l l' : Listing) : Prop where
  data : stringAt l'.response.data 0 = some (old ++ text)
  size : l'.response.size = l.response.size + UInt16.ofNat text.length
  cleared : l'.responseBuffer = Vector.replicate 128 0

section Entry

variable {host : Host} {path name old text : List UInt8} {l l' : Listing}

theorem listEntry_of_fits (hhost : host.WellFormed) (hlen : path.length < pathMax)
    (hpath : 0 ∉ path) (hname : name.length ≤ 255 ∧ 0 ∉ name) (hentry : isEntry name = true)
    (hold : stringAt l.response.data 0 = some old) (hfits : PathFits path name)
    (htext : entryText host (joined path name) l.responseBuffer = some text)
    (hline : text.length < 128) (hdata : old.length + text.length < bufferSize) :
    ∃ l', listEntry host path l name = some l' ∧ Appended old text l l' := by
  have hmax : name.length ≤ pathMax := Nat.le_trans hname.1 (by decide)
  have hnul : 0 ∉ joined path name := Lab1.nul_notMem_joined hpath hname.2
  obtain ⟨pathName, hbuild⟩ := (Lab1.buildPathName_isSome_iff hlen hpath hmax l.pathName).mpr hfits
  have hstring := Lab1.stringAt_buildPathName hlen hpath hmax hname.2 hbuild
  obtain ⟨responseBuffer, hformat, hread⟩ := (formatEntry_iff hhost hnul).mpr ⟨htext, hline⟩
  obtain ⟨data, hcat⟩ := (strcat_isSome_iff hold text).mpr hdata
  rw [Lab1.listEntry_eq, if_pos hentry]
  simp only [hbuild, hstring, hformat, hread, hcat, Option.bind_eq_bind, Option.bind_some]
  refine ⟨_, rfl, stringAt_strcat_of hold hcat ?_, rfl, rfl⟩
  exact nul_notMem_of_stringAt hread

theorem fits_of_listEntry (hhost : host.WellFormed) (hlen : path.length < pathMax)
    (hpath : 0 ∉ path) (hname : name.length ≤ 255 ∧ 0 ∉ name) (hentry : isEntry name = true)
    (hold : stringAt l.response.data 0 = some old) (h : listEntry host path l name = some l') :
    PathFits path name ∧ ∃ text, entryText host (joined path name) l.responseBuffer = some text ∧
      text.length < 128 ∧ Appended old text l l' := by
  have hmax : name.length ≤ pathMax := Nat.le_trans hname.1 (by decide)
  have hnul : 0 ∉ joined path name := Lab1.nul_notMem_joined hpath hname.2
  rw [Lab1.listEntry_eq, if_pos hentry] at h
  simp only [Option.bind_eq_bind, Option.bind_eq_some_iff] at h
  obtain ⟨pathName, hbuild, built, hbuilt, responseBuffer, hformat, text, hread, data, hcat, heq⟩ :=
    h
  rw [Lab1.stringAt_buildPathName hlen hpath hmax hname.2 hbuild] at hbuilt
  obtain rfl := Option.some.inj hbuilt
  obtain ⟨htext, hline⟩ := (formatEntry_iff hhost hnul).mp ⟨responseBuffer, hformat, hread⟩
  cases heq
  refine ⟨(Lab1.buildPathName_isSome_iff hlen hpath hmax l.pathName).mp ⟨pathName, hbuild⟩, text,
    htext, hline, stringAt_strcat_of hold hcat ?_, rfl, rfl⟩
  exact nul_notMem_of_stringAt hread

/-- `.` and `..` are skipped. -/
theorem listEntry_skip (hentry : isEntry name = false) : listEntry host path l name = some l := by
  rw [Lab1.listEntry_eq, hentry, if_neg Bool.false_ne_true]

/-- A turn that returns has found a string in the payload. -/
theorem held_of_listEntry {payload : List UInt8} (h : listEntry host path l name = some l')
    (hpayload : stringAt l'.response.data 0 = some payload) :
    ∃ old, stringAt l.response.data 0 = some old := by
  cases hentry : isEntry name with
  | false =>
      rw [listEntry_skip hentry] at h
      cases h
      exact ⟨payload, hpayload⟩
  | true =>
      rw [Lab1.listEntry_eq, if_pos hentry] at h
      simp only [Option.bind_eq_bind, Option.bind_eq_some_iff] at h
      obtain ⟨_, _, _, _, _, _, _, _, data, hcat, _⟩ := h
      obtain ⟨old, hold, _⟩ := Option.bind_eq_some_iff.mp hcat
      exact ⟨old, hold⟩

end Entry

/-! ## The loop -/

section Loop

variable {host : Host} {path old : List UInt8} {names : List (List UInt8)} {l l' : Listing}

theorem entriesFit_nil {responseBuffer : Vector UInt8 128} {texts : List (List UInt8)} :
    EntriesFit host path responseBuffer old [] texts ↔ texts = [] ∧ old.length < bufferSize := by
  constructor
  · intro h
    obtain rfl := Option.some.inj h.formatted
    exact ⟨rfl, h.payload⟩
  · rintro ⟨rfl, hlt⟩
    exact ⟨rfl, nofun, nofun, hlt⟩

/-- The first entry fits behind the payload, and the others fit behind its text. -/
theorem entriesFit_cons {name : List UInt8} {entries texts : List (List UInt8)}
    {responseBuffer : Vector UInt8 128} :
    EntriesFit host path responseBuffer old (name :: entries) texts ↔
      PathFits path name ∧ ∃ text rest, texts = text :: rest ∧
        entryText host (joined path name) responseBuffer = some text ∧ text.length < 128 ∧
          EntriesFit host path (Vector.replicate 128 0) (old ++ text) entries rest := by
  constructor
  · rintro ⟨hformatted, hpaths, hlines, hpayload⟩
    simp only [entryTexts, Option.bind_eq_bind, Option.bind_eq_some_iff] at hformatted
    obtain ⟨text, htext, rest, hrest, heq⟩ := hformatted
    cases heq
    rw [List.forall_mem_cons] at hpaths hlines
    rw [List.flatten_cons, List.length_append] at hpayload
    refine ⟨hpaths.1, text, rest, rfl, htext, hlines.1, hrest, hpaths.2, hlines.2, ?_⟩
    rw [List.length_append]
    omega
  · rintro ⟨hpath, text, rest, rfl, htext, hline, hrest, hpaths, hlines, hpayload⟩
    rw [List.length_append] at hpayload
    refine ⟨?_, List.forall_mem_cons.mpr ⟨hpath, hpaths⟩, List.forall_mem_cons.mpr ⟨hline, hlines⟩,
      ?_⟩
    · simp only [entryTexts, htext, hrest, Option.bind_eq_bind, Option.bind_some]
    · rw [List.flatten_cons, List.length_append]
      omega

theorem length_le_flatten {text : List UInt8} {texts : List (List UInt8)} :
    text.length ≤ (text :: texts).flatten.length := by
  rw [List.flatten_cons, List.length_append]
  exact Nat.le_add_right _ _

/-- The loop has appended the texts one after the other. -/
structure AppendedAll (old : List UInt8) (texts : List (List UInt8)) (l l' : Listing) : Prop where
  data : stringAt l'.response.data 0 = some (old ++ texts.flatten)
  size : l'.response.size = l.response.size + UInt16.ofNat texts.flatten.length

theorem AppendedAll.nil (hold : stringAt l.response.data 0 = some old) :
    AppendedAll old [] l l := by
  constructor
  · rw [hold, List.flatten_nil, List.append_nil]
  · exact (UInt16.add_zero _).symm

theorem Appended.cons {text : List UInt8} {texts : List (List UInt8)} {l₁ : Listing}
    (h : Appended old text l l₁) (hrest : AppendedAll (old ++ text) texts l₁ l') :
    AppendedAll old (text :: texts) l l' := by
  constructor
  · rw [hrest.data, List.flatten_cons, List.append_assoc]
  · rw [hrest.size, h.size, List.flatten_cons, List.length_append, UInt16.ofNat_add,
      UInt16.add_assoc]

theorem listEntries_of_fit (hhost : host.WellFormed) (hlen : path.length < pathMax)
    (hpath : 0 ∉ path) (hnames : ∀ name ∈ names, name.length ≤ 255 ∧ 0 ∉ name)
    (hold : stringAt l.response.data 0 = some old) {texts : List (List UInt8)}
    (hfit : EntriesFit host path l.responseBuffer old (names.filter isEntry) texts) :
    ∃ l', names.foldlM (listEntry host path) l = some l' ∧ AppendedAll old texts l l' := by
  induction names generalizing l old texts with
  | nil =>
      obtain ⟨rfl, _⟩ := entriesFit_nil.mp hfit
      exact ⟨l, rfl, .nil hold⟩
  | cons name names ih =>
      rw [List.forall_mem_cons] at hnames
      rw [List.foldlM_cons]
      cases hentry : isEntry name with
      | false =>
          rw [List.filter_cons_of_neg (by rw [hentry]; decide)] at hfit
          rw [listEntry_skip hentry]
          exact ih hnames.2 hold hfit
      | true =>
          rw [List.filter_cons_of_pos hentry] at hfit
          obtain ⟨hfits, text, rest, rfl, htext, hline, hrest⟩ := entriesFit_cons.mp hfit
          have hdata : old.length + text.length < bufferSize := by
            have hle : text.length ≤ (text :: rest).flatten.length := length_le_flatten
            have hlt := hfit.payload
            omega
          obtain ⟨l₁, hl₁, happ⟩ :=
            listEntry_of_fits hhost hlen hpath hnames.1 hentry hold hfits htext hline hdata
          rw [← happ.cleared] at hrest
          obtain ⟨l', hl', hall⟩ := ih hnames.2 happ.data hrest
          refine ⟨l', ?_, happ.cons hall⟩
          rw [hl₁]
          exact hl'

theorem fit_of_listEntries (hhost : host.WellFormed) (hlen : path.length < pathMax)
    (hpath : 0 ∉ path) (hnames : ∀ name ∈ names, name.length ≤ 255 ∧ 0 ∉ name)
    (hold : stringAt l.response.data 0 = some old)
    (h : names.foldlM (listEntry host path) l = some l') :
    ∃ texts, EntriesFit host path l.responseBuffer old (names.filter isEntry) texts ∧
      AppendedAll old texts l l' := by
  induction names generalizing l old with
  | nil =>
      cases h
      have hlt := length_lt_of_stringAt hold
      rw [Nat.zero_add] at hlt
      exact ⟨[], entriesFit_nil.mpr ⟨rfl, hlt⟩, .nil hold⟩
  | cons name names ih =>
      rw [List.forall_mem_cons] at hnames
      rw [List.foldlM_cons] at h
      obtain ⟨l₁, hl₁, hrun⟩ := Option.bind_eq_some_iff.mp h
      cases hentry : isEntry name with
      | false =>
          rw [List.filter_cons_of_neg (by rw [hentry]; decide)]
          rw [listEntry_skip hentry] at hl₁
          cases hl₁
          exact ih hnames.2 hold hrun
      | true =>
          rw [List.filter_cons_of_pos hentry]
          obtain ⟨hfits, text, htext, hline, happ⟩ :=
            fits_of_listEntry hhost hlen hpath hnames.1 hentry hold hl₁
          obtain ⟨rest, hrest, hall⟩ := ih hnames.2 happ.data hrun
          rw [happ.cleared] at hrest
          exact ⟨text :: rest, entriesFit_cons.mpr ⟨hfits, text, rest, rfl, htext, hline, hrest⟩,
            happ.cons hall⟩

/-- The payload is a string from the first turn on. -/
theorem held_of_listEntries {payload : List UInt8}
    (h : names.foldlM (listEntry host path) l = some l')
    (hpayload : stringAt l'.response.data 0 = some payload) :
    ∃ old, stringAt l.response.data 0 = some old := by
  induction names generalizing l with
  | nil =>
      cases h
      exact ⟨payload, hpayload⟩
  | cons name names ih =>
      rw [List.foldlM_cons] at h
      obtain ⟨l₁, hl₁, hrun⟩ := Option.bind_eq_some_iff.mp h
      obtain ⟨old₁, hold₁⟩ := ih hrun
      exact held_of_listEntry hl₁ hold₁

/-- The size is right at the end exactly if it was at the start. -/
theorem AppendedAll.size_iff {texts : List (List UInt8)} (h : AppendedAll old texts l l') :
    l'.response.size.toNat = (old ++ texts.flatten).length ↔
      l.response.size.toNat = old.length := by
  have hlt := length_lt_of_stringAt h.data
  have hmax : bufferSize = 4096 := rfl
  have hsize := l.response.size.toNat_lt
  rw [List.length_append] at hlt
  rw [h.size, UInt16.toNat_add, UInt16.toNat_ofNat', List.length_append]
  omega

end Loop

/-! ## LIST -/

theorem listInBounds_iff {host : Host} (hhost : host.WellFormed) (args : Args) :
    ListInBounds host args ↔ ListFits host args := by
  constructor
  · intro h path names hpath hopen
    obtain ⟨l, payload, hrun, hdata, hsize⟩ := h path names hpath hopen
    have hlen := length_lt_of_stringAt hpath
    rw [Nat.zero_add] at hlen
    obtain ⟨old, hold⟩ := held_of_listEntries hrun hdata
    obtain ⟨texts, hfit, hall⟩ := fit_of_listEntries hhost hlen (nul_notMem_of_stringAt hpath)
      (hhost.names path names hopen) hold hrun
    rw [hall.data] at hdata
    obtain rfl := Option.some.inj hdata
    exact ⟨old, texts, hold, hall.size_iff.mp hsize, hfit⟩
  · intro h path names hpath hopen
    obtain ⟨old, texts, hold, hsize, hfit⟩ := h path names hpath hopen
    have hlen := length_lt_of_stringAt hpath
    rw [Nat.zero_add] at hlen
    obtain ⟨l, hrun, hall⟩ := listEntries_of_fit (l := ⟨host.response, host.responseBuffer,
      host.pathName⟩) hhost hlen (nul_notMem_of_stringAt hpath) (hhost.names path names hopen)
      hold hfit
    exact ⟨l, _, hrun, hall.data, hall.size_iff.mpr hsize⟩

/-! ## Every sequence of requests -/

/-- A handler that returns leaves a string for the path of the session. -/
theorem exists_path_of_serve {order : ByteOrder} {args args' : Args} {x : Received × Host}
    (hpath : ∃ path, stringAt args.currentPath 0 = some path)
    (h : serve order args x = some args') :
    ∃ path, stringAt args'.currentPath 0 = some path := by
  unfold serve at h
  split at h
  · obtain ⟨⟨args₁, sent⟩, hhandle, rfl⟩ := Option.map_eq_some_iff.mp h
    simp only [handleRequest, Option.bind_eq_bind, Option.bind_eq_some_iff] at hhandle
    obtain ⟨request, _, ⟨args₂, sent₂⟩, hinvoke, heq⟩ := hhandle
    cases heq
    cases hparse : parseRequest request with
    | none =>
        rw [hparse] at hinvoke
        cases hinvoke
        exact hpath
    | some c =>
        rw [hparse, invoke_some] at hinvoke
        by_cases hcd : c = .cd
        · subst hcd
          obtain ⟨path, _, hleft, _⟩ := cmdCd_eq_some hinvoke
          exact ⟨path, hleft⟩
        · obtain ⟨path, hpath⟩ := hpath
          refine ⟨path, ?_⟩
          rw [handler_currentPath hcd hinvoke]
          exact hpath
  · cases h

theorem requestFits_iff {host : Host} (hhost : host.WellFormed) (args : Args) :
    InBounds host args ↔ RequestFits host args := by
  constructor
  · rintro ⟨hcd, hlist⟩
    exact ⟨fun hc => (cdInBounds_iff host args).mp (hcd hc),
      fun hc => (listInBounds_iff hhost args).mp (hlist hc)⟩
  · rintro ⟨hcd, hlist⟩
    exact ⟨fun hc => (cdInBounds_iff host args).mpr (hcd hc),
      fun hc => (listInBounds_iff hhost args).mpr (hlist hc)⟩

/-- After every sequence of requests the path of the session is a string inside its array, and
the next request stays in the buffers of its handler exactly if it fits. -/
theorem in_bounds_iff (order : ByteOrder) (buffer : Vector UInt8 bufferSize) (args : Args)
    (h : Reaches (serve order) anything (initialArgs buffer) args) :
    (∃ path, stringAt args.currentPath 0 = some path ∧ path.length < pathMax) ∧
    ∀ (host : Host) (r : Received), host.WellFormed →
      (InBounds host (receive args r) ↔ RequestFits host (receive args r)) := by
  have hdot : stringAt (initialArgs buffer).currentPath 0 = some (ascii ['.']) :=
    stringAt_strncpy (by decide) (by decide)
  have hpath : ∃ path, stringAt args.currentPath 0 = some path :=
    h.invariant ⟨_, hdot⟩ fun _ _ _ hu _ hstep => exists_path_of_serve hu hstep
  obtain ⟨path, hpath⟩ := hpath
  have hlt := length_lt_of_stringAt hpath
  rw [Nat.zero_add] at hlt
  exact ⟨⟨path, hpath, hlt⟩, fun host r hhost => requestFits_iff hhost (receive args r)⟩

/-- Every directory holds one regular file. -/
def oneFileHost (name : List UInt8) : Host :=
  { plainHost with
    opendir := fun _ => some [name]
    lstat := fun _ => .ok .regular }

def listRequest : Request :=
  ⟨ascii ['L', 'I', 'S', 'T'], by decide, by decide, by decide⟩

def listReceived : Received := .bytes listRequest.text listRequest.nonempty (by decide)

/-- The first request of a session over a clear buffer. -/
def listArgs : Args := receive (initialArgs (Vector.replicate bufferSize 0)) listReceived

theorem command_listArgs : listArgs.command = some .list := by
  obtain ⟨buffer, hstore⟩ := store_request
    (initialArgs (Vector.replicate bufferSize 0)).buffer listRequest
  have hstring := stringAt_of_terminated hstore (terminated_replicate listRequest)
    (Nat.zero_le _)
  have hbuffer : listArgs.buffer = buffer := by
    simp only [listArgs, receive, listReceived, Received.text, hstore, Option.getD_some]
  rw [Args.command, hbuffer, hstring]
  decide

section OneFile

variable {name : List UInt8}

theorem wellFormed_oneFile (hlen : name.length ≤ 255) (hnul : 0 ∉ name) :
    (oneFileHost name).WellFormed := by
  refine ⟨?_, nofun⟩
  intro path names hnames n hn
  cases hnames
  obtain rfl := List.mem_singleton.mp hn
  exact ⟨hlen, hnul⟩

/-- "./", the name, a blank and the newline are 127 bytes at most. -/
theorem requestFits_oneFile_iff (hentry : isEntry name = true) (hlen : name.length ≤ 255) :
    RequestFits (oneFileHost name) listArgs ↔ name.length + 4 < 128 := by
  have hdot : stringAt listArgs.currentPath 0 = some (ascii ['.']) :=
    stringAt_strncpy (by decide) (by decide)
  have hempty : stringAt (oneFileHost name).response.data 0 = some [] :=
    stringAt_replicate (by decide)
  have htext (b : Vector UInt8 128) : entryText (oneFileHost name) (joined (ascii ['.']) name) b =
      some (joined (ascii ['.']) name ++ ascii [' '] ++ [10]) := rfl
  have hlength : (joined (ascii ['.']) name ++ ascii [' '] ++ [10]).length = name.length + 4 := by
    simp only [List.length_append, Lab1.length_joined, ascii, List.map_cons, List.map_nil,
      List.length_singleton]
    omega
  constructor
  · intro h
    obtain ⟨old, texts, _, _, hfit⟩ := h.list command_listArgs _ _ hdot rfl
    rw [List.filter_cons_of_pos hentry] at hfit
    obtain ⟨_, text, _, _, heq, hline, _⟩ := entriesFit_cons.mp hfit
    rw [htext] at heq
    obtain rfl := Option.some.inj heq
    rwa [hlength] at hline
  · intro hlt
    refine ⟨fun hcd => ?_, fun _ path names hpath hopen => ?_⟩
    · rw [command_listArgs] at hcd
      cases hcd
    · rw [hdot] at hpath
      cases hpath
      cases hopen
      refine ⟨[], [joined (ascii ['.']) name ++ ascii [' '] ++ [10]], hempty, rfl, ?_⟩
      rw [List.filter_cons_of_pos hentry]
      refine entriesFit_cons.mpr ⟨?_, _, [], rfl, htext _, hlength ▸ hlt, ?_⟩
      · have hmax : pathMax = 4096 := rfl
        have hdot₁ : (ascii ['.']).length = 1 := rfl
        unfold PathFits
        omega
      · refine entriesFit_nil.mpr ⟨rfl, ?_⟩
        rw [List.nil_append, hlength]
        exact Nat.lt_trans hlt (by decide)

end OneFile

/-- LIST of a directory with the file "a" stays in its buffers. -/
theorem in_bounds_iff_short : InBounds (oneFileHost (ascii ['a'])) listArgs := by
  have hfits : RequestFits (oneFileHost (ascii ['a'])) listArgs :=
    (requestFits_oneFile_iff (by decide) (by decide)).mpr (by decide)
  exact ((in_bounds_iff .little (Vector.replicate bufferSize 0) _ .refl).2 _ listReceived
    (wellFormed_oneFile (by decide) (by decide))).mpr hfits

/-- The name of the file has 124 bytes: the NUL of its line does not fit. -/
theorem long_name_overflows :
    (oneFileHost (List.replicate 124 97)).WellFormed ∧
      Reaches (serve .little) anything (initialArgs (Vector.replicate bufferSize 0))
        (initialArgs (Vector.replicate bufferSize 0)) ∧
      ¬ InBounds (oneFileHost (List.replicate 124 97)) listArgs := by
  have hlen : (List.replicate 124 (97 : UInt8)).length = 124 := List.length_replicate
  have hshort : (List.replicate 124 (97 : UInt8)).length ≤ 255 := by omega
  have hentry : isEntry (List.replicate 124 97) = true := Lab1.isEntry_of_length (by omega)
  have hhost : (oneFileHost (List.replicate 124 97)).WellFormed :=
    wellFormed_oneFile hshort (by simp)
  refine ⟨hhost, .refl, ?_⟩
  intro h
  have hfits := (requestFits_oneFile_iff hentry hshort).mp ((requestFits_iff hhost _).mp h)
  omega

end OsaspLabs.Lab8
