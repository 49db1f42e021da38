import Mathlib.Data.List.Basic
import Mathlib.Data.List.Sort
import OsaspLabs.Library.CString

/-! # The launch commands of LAB_2

`get_child_path` looks for the name anywhere in an entry, `getenv` compares names. -/

namespace OsaspLabs.Lab2

open CString

/-- A `NAME=VALUE` string of the environment. -/
structure Entry where
  name : List UInt8
  value : List UInt8
  name_ne_nil : name ≠ []
  equals_notMem : 61 ∉ name
  nul_notMem : 0 ∉ name ++ value

def Entry.text (e : Entry) : List UInt8 := e.name ++ 61 :: e.value

structure Environment where
  entries : List Entry
  distinct : (entries.map Entry.name).Nodup

namespace Environment

def texts (env : Environment) : List (List UInt8) := env.entries.map Entry.text

/-- The value of the entry with a name. -/
def lookup (env : Environment) (name : List UInt8) : Option (List UInt8) :=
  (env.entries.find? fun e => decide (e.name = name)).map Entry.value

theorem eq_of_name_eq {env : Environment} {e e' : Entry} (he : e ∈ env.entries)
    (he' : e' ∈ env.entries) (h : e.name = e'.name) : e = e' :=
  List.inj_on_of_nodup_map env.distinct he he' h

theorem lookup_of_mem {env : Environment} {e : Entry} (he : e ∈ env.entries) :
    env.lookup e.name = some e.value := by
  unfold lookup
  cases hfind : env.entries.find? fun e' => decide (e'.name = e.name) with
  | none => simpa using List.find?_eq_none.mp hfind e he
  | some e' =>
      have hname : e'.name = e.name := by simpa using List.find?_some hfind
      rw [eq_of_name_eq (List.mem_of_find?_eq_some hfind) he hname, Option.map_some]

theorem lookup_eq_none {env : Environment} {name : List UInt8}
    (h : ∀ e ∈ env.entries, e.name ≠ name) : env.lookup name = none := by
  have hfind : env.entries.find? (fun e => decide (e.name = name)) = none := by
    apply List.find?_eq_none.mpr
    intro e he
    simpa using h e he
  rw [lookup, hfind, Option.map_none]

end Environment

/-! ## Functions of the C library -/

def strcmp : List UInt8 → List UInt8 → ℤ
  | [], [] => 0
  | [], d :: _ => -d.toNat
  | c :: _, [] => c.toNat
  | c :: s, d :: t => if c = d then strcmp s t else c.toNat - d.toNat

def getenv (environ : List (List UInt8)) (name : List UInt8) : Option (List UInt8) :=
  (environ.find? fun s => decide (name ++ [61] <+: s)).map (List.drop (name.length + 1))

/-! ## The program -/

def childPath : List UInt8 := ascii ['C', 'H', 'I', 'L', 'D', '_', 'P', 'A', 'T', 'H']

def qsortCmp (str1 str2 : List UInt8) : ℤ := strcmp str1 str2

/-- The environment as `print_env` leaves it; `envp` and `environ` are one array. -/
def printEnv (envp : List (List UInt8)) : List (List UInt8) :=
  envp.insertionSort fun str1 str2 => qsortCmp str1 str2 ≤ 0

def getChildPath : List (List UInt8) → Option (List UInt8)
  | [] => none
  | s :: strArr =>
      if strstr s childPath then
        -- the head of the string moves past the name and the equal sign
        some (s.drop (childPath.length + 1))
      else getChildPath strArr

/-- The program that `main` starts for a character that it has read. -/
def childProcess (opt : Char) (envp environ : List (List UInt8)) : Option (List UInt8) :=
  match opt with
  | '+' => getenv environ childPath
  | '*' => getChildPath envp
  | '&' => getChildPath environ
  | _ => none

/-! ## Lookup by name -/

section Lookup

variable {env : Environment} {order : List (List UInt8)}

theorem prefix_text_iff {e : Entry} {name : List UInt8} (hname : 61 ∉ name) :
    name ++ [61] <+: e.text ↔ e.name = name := by
  constructor
  · rintro ⟨rest, hrest⟩
    rw [List.append_assoc, List.singleton_append] at hrest
    have htake := congrArg (List.takeWhile (· != (61 : UInt8))) hrest
    unfold Entry.text at htake
    rw [List.takeWhile_append_of_pos, List.takeWhile_append_of_pos] at htake
    · simpa using htake.symm
    · intro c hc
      simpa using ne_of_mem_of_not_mem hc e.equals_notMem
    · intro c hc
      simpa using ne_of_mem_of_not_mem hc hname
  · rintro rfl
    exact ⟨e.value, by simp [Entry.text]⟩

theorem drop_text (e : Entry) : e.text.drop (e.name.length + 1) = e.value := by
  simp [Entry.text]

theorem mem_order_iff (h : order.Perm env.texts) {s : List UInt8} :
    s ∈ order ↔ ∃ e ∈ env.entries, e.text = s := by
  rw [h.mem_iff, Environment.texts, List.mem_map]

/-- `getenv` finds the entry with the name, whatever the order is. -/
theorem getenv_eq_lookup (h : order.Perm env.texts) {name : List UInt8} (hname : 61 ∉ name) :
    getenv order name = env.lookup name := by
  unfold getenv
  cases hfind : order.find? fun s => decide (name ++ [61] <+: s) with
  | none =>
      rw [Environment.lookup_eq_none, Option.map_none]
      intro e he heq
      have hs := List.find?_eq_none.mp hfind e.text ((mem_order_iff h).mpr ⟨e, he, rfl⟩)
      exact hs (by simpa using (prefix_text_iff hname).mpr heq)
  | some s =>
      obtain ⟨e, he, rfl⟩ := (mem_order_iff h).mp (List.mem_of_find?_eq_some hfind)
      have hpre : name ++ [61] <+: e.text := by simpa using List.find?_some hfind
      have heq := (prefix_text_iff hname).mp hpre
      rw [Option.map_some, ← heq, drop_text, Environment.lookup_of_mem he]

end Lookup

/-! ## Lookup by substring -/

section Substring

variable {env : Environment} {order : List (List UInt8)}

theorem strstr_of_name {e : Entry} (h : e.name = childPath) :
    strstr e.text childPath = true :=
  decide_eq_true ⟨[], 61 :: e.value, by simp [Entry.text, h]⟩

theorem getChildPath_eq_none (h : ∀ s ∈ order, strstr s childPath = false) :
    getChildPath order = none := by
  induction order with
  | nil => rfl
  | cons s order ih =>
      rw [getChildPath, if_neg (by simp [h s List.mem_cons_self])]
      exact ih fun t ht => h t (List.mem_cons_of_mem s ht)

/-- The first string with the name in it decides. -/
theorem getChildPath_eq_some {result : Option (List UInt8)}
    (h : ∀ s ∈ order, strstr s childPath = true → result = some (s.drop (childPath.length + 1)))
    (hsome : ∃ s ∈ order, strstr s childPath = true) : getChildPath order = result := by
  induction order with
  | nil => simp at hsome
  | cons s order ih =>
      by_cases hs : strstr s childPath = true
      · rw [getChildPath, if_pos hs, h s List.mem_cons_self hs]
      · rw [getChildPath, if_neg hs]
        apply ih
        · intro t ht
          exact h t (List.mem_cons_of_mem s ht)
        · obtain ⟨t, ht, hfound⟩ := hsome
          cases List.mem_cons.mp ht with
          | inl heq => exact absurd (heq ▸ hfound) hs
          | inr hmem => exact ⟨t, hmem, hfound⟩

/-- Each entry with the name somewhere in it is the variable, or has the variable's value from
its twelfth byte on. -/
def Unambiguous (env : Environment) : Prop :=
  ∀ e ∈ env.entries, strstr e.text childPath = true →
    e.name = childPath ∨ env.lookup childPath = some (e.text.drop (childPath.length + 1))

theorem lookup_of_unambiguous (h : Unambiguous env) {e : Entry} (he : e ∈ env.entries)
    (hs : strstr e.text childPath = true) :
    env.lookup childPath = some (e.text.drop (childPath.length + 1)) := by
  cases h e he hs with
  | inl hname => rw [← hname, drop_text, Environment.lookup_of_mem he]
  | inr hvalue => exact hvalue

theorem getChildPath_of_unambiguous (h : Unambiguous env) (horder : order.Perm env.texts) :
    getChildPath order = env.lookup childPath := by
  by_cases hsome : ∃ s ∈ order, strstr s childPath = true
  · apply getChildPath_eq_some _ hsome
    intro s hmem hs
    obtain ⟨e, he, rfl⟩ := (mem_order_iff horder).mp hmem
    exact lookup_of_unambiguous h he hs
  · rw [getChildPath_eq_none, Environment.lookup_eq_none]
    · intro e he hname
      exact hsome ⟨e.text, (mem_order_iff horder).mpr ⟨e, he, rfl⟩, strstr_of_name hname⟩
    · intro s hmem
      by_contra hs
      exact hsome ⟨s, hmem, by simpa using hs⟩

end Substring

/-! ## The three commands -/

/-- The three commands take the variable's value from an array with the environment's strings. -/
structure Agree (env : Environment) (order : List (List UInt8)) : Prop where
  getChildPath_eq : getChildPath order = env.lookup childPath
  getenv_eq : getenv order childPath = env.lookup childPath
  commands_eq : ∀ opt ∈ ['+', '*', '&'],
    childProcess opt (printEnv order) (printEnv order) = env.lookup childPath

theorem printEnv_perm (envp : List (List UInt8)) : (printEnv envp).Perm envp :=
  List.perm_insertionSort _ envp

theorem agree_of_unambiguous {env : Environment} {order : List (List UInt8)}
    (h : Unambiguous env) (horder : order.Perm env.texts) : Agree env order := by
  have hsorted := (printEnv_perm order).trans horder
  constructor
  · exact getChildPath_of_unambiguous h horder
  · exact getenv_eq_lookup horder (by decide)
  · intro opt hopt
    simp only [List.mem_cons, List.not_mem_nil, or_false] at hopt
    rcases hopt with rfl | rfl | rfl
    · exact getenv_eq_lookup hsorted (by decide)
    · exact getChildPath_of_unambiguous h hsorted
    · exact getChildPath_of_unambiguous h hsorted

/-- The commands agree on every order exactly if no other entry has the name in it, unless it has
the right value at the right place by chance. -/
theorem agree_iff (env : Environment) :
    (∀ order, order.Perm env.texts → Agree env order) ↔ Unambiguous env := by
  constructor
  · intro h e he hs
    apply Or.inr
    -- an order with this entry in front
    have hmem : e.text ∈ env.texts := List.mem_map_of_mem he
    rw [← (h _ (List.perm_cons_erase hmem).symm).getChildPath_eq, getChildPath, if_pos hs]
  · intro h order horder
    exact agree_of_unambiguous h horder

/-- The environment with the one entry `A=CHILD_PATH`. -/
def aliased : Environment where
  entries := [⟨[65], childPath, by decide, by decide, by decide⟩]
  distinct := by simp

/-- There is no variable of the name, and `*` starts the program `H`. -/
theorem alias_started : ¬∀ order, order.Perm aliased.texts → Agree aliased order := by
  intro h
  have hpath := (h aliased.texts (List.Perm.refl _)).getChildPath_eq
  exact absurd hpath (by decide)

end OsaspLabs.Lab2
