import Deai.TwinTables
import Deai.Value

/-!
# File watches

`di_file_add_watch`, `di_file_add_many_watch` and `di_file_rm_watch` of the module `file`. A watch
keeps its entries in two hash tables, one for the paths and one for the descriptors of inotify.
-/
namespace Deai.FileWatch
open TwinTables Value

/-- `struct di_file_watch_entry`. No two allocations have the same `id`. -/
structure Entry where
  fname : String
  wd : UInt32
  id : ℕ
  deriving DecidableEq

/-- `HASH_FIND` gives one of the entries with the key. Which one it is, if there are more, depends
on the order in which they lie in their bucket. -/
structure HashFind where
  find : (Entry → Bool) → List Entry → Option Entry
  found : ∀ {p l e}, find p l = some e → e ∈ l ∧ p e = true
  missing : ∀ {p l}, find p l = none → ∀ e ∈ l, p e = false

/-- The inode that a path leads to, and a descriptor that is offered for a new watch. -/
structure Target where
  inode : ℕ
  offer : UInt32

structure State where
  byname : List Entry := []
  bywd : List Entry := []
  /-- The watches of the kernel: inodes with their descriptors. -/
  active : List (ℕ × UInt32) := []
  created : ℕ := 0
  -- history: the paths that were removed, and have not been added since
  removed : List String := []

def einval : ℤ := -22
def enoent : ℤ := -2

/-! ## The functions -/

/-- An inode that is watched keeps its descriptor, and a descriptor in use is not given again. -/
def inotifyAddWatch (x : Option Target) (active : List (ℕ × UInt32)) :
    Option (UInt32 × List (ℕ × UInt32)) :=
  match x with
  | none => none
  | some x =>
      match active.find? fun p => p.1 = x.inode with
      | some p => some (p.2, active)
      | none =>
          if x.offer ∈ active.map Prod.snd then none
          else some (x.offer, (x.inode, x.offer) :: active)

def inotifyRmWatch (wd : UInt32) (active : List (ℕ × UInt32)) : List (ℕ × UInt32) :=
  active.filter fun p => p.2 ≠ wd

/-- A path without data is `none`. There is no file at `x` when the kernel refuses the path. -/
def diFileAddWatch (path : Option String) (x : Option Target) (s : State) : ℤ × State :=
  match path with
  | none => (einval, s)
  | some path =>
      -- `di_string_to_chars_alloc` returns NULL for an empty string
      let x := if path = "" then none else x
      match inotifyAddWatch x s.active with
      | none => (-1, s)
      | some (wd, active) =>
          let we := ⟨path, wd, s.created⟩
          (0, {s with
            byname := s.byname ++ [we]
            bywd := s.bywd ++ [we]
            active := active
            created := s.created + 1
            removed := s.removed.filter (· ≠ path)})

/-- The argument of `add`, with what the kernel finds at each path. -/
inductive Paths where
  | strings (l : List (Option String × Option Target))
  | literals (l : List (String × Option Target))
  | other (elemType : DiType) (length : ℕ)

def addAll : List (Option String × Option Target) → State → ℤ × State
  | [], s => (0, s)
  | (path, x) :: rest, s =>
      let (ret, s) := diFileAddWatch path x s
      if ret ≠ 0 then (ret, s) else addAll rest s

def diFileAddManyWatch (paths : Paths) (s : State) : ℤ × State :=
  match paths with
  | .strings l => addAll l s
  | .literals l => addAll (l.map fun p => (some p.1, p.2)) s
  | .other _ n => if n = 0 then (0, s) else (einval, s)

/-- An entry leaves both tables and is freed. -/
def freeEntry (s : State) (we : Entry) : State :=
  {s with bywd := s.bywd.erase we, byname := s.byname.erase we}

def diFileRmWatch (F : HashFind) (path : Option String) (s : State) : ℤ × State :=
  match path with
  | none => (einval, s)
  | some path =>
      match F.find (fun e => e.fname = path) s.byname with
      | none => (enoent, s)
      | some we =>
          (0, {freeEntry s we with
            active := inotifyRmWatch we.wd s.active
            removed := path :: s.removed})

inductive Op where
  | addOne (path : Option String) (x : Option Target)
  | add (paths : Paths)
  | remove (path : Option String)

/-- The loop over the entries when the watch goes. -/
def stopFileWatcher (s : State) : State :=
  s.bywd.foldl freeEntry {s with active := []}

def exec (F : HashFind) (s : State) : Op → ℤ × State
  | .addOne path x => diFileAddWatch path x s
  | .add paths => diFileAddManyWatch paths s
  | .remove path => diFileRmWatch F path s

/-- A run, with its calls and the states before them, the last one first. -/
inductive Run (F : HashFind) : List (Op × State) → State → Prop
  | init : Run F [] {}
  | step {l : List (Op × State)} {s : State} (a : Op) :
      Run F l s → Run F ((a, s) :: l) (exec F s a).2

/-! ## The index -/

/-- The tables hold the same entries, no two of which share a path or a descriptor, the descriptors
are those that are active in the kernel, and a path that was removed is not there. -/
structure Indexed (s : State) : Prop where
  tables : Twin Entry.fname Entry.wd s.byname s.bywd
  active : ∀ wd, wd ∈ s.bywd.map Entry.wd ↔ wd ∈ s.active.map Prod.snd
  removed : ∀ path ∈ s.removed, path ∉ s.byname.map Entry.fname

/-- The call adds no file that is watched already, and no path that is there already. -/
def New (path : Option String) (x : Option Target) (s : State) : Prop :=
  ∀ p ∈ path, p ≠ "" → ∀ t ∈ x, t.inode ∉ s.active.map Prod.fst ∧
    (t.offer ∉ s.active.map Prod.snd → p ∉ s.byname.map Entry.fname)

def AllNew : List (Option String × Option Target) → State → Prop
  | [], _ => True
  | (path, x) :: rest, s => New path x s ∧
      ((diFileAddWatch path x s).1 = 0 → AllNew rest (diFileAddWatch path x s).2)

def Unaliased (s : State) : Op → Prop
  | .addOne path x => New path x s
  | .add (.strings l) => AllNew l s
  | .add (.literals l) => AllNew (l.map fun p => (some p.1, p.2)) s
  | _ => True

variable {F : HashFind} {s : State} {path : Option String} {x : Option Target}

/-- The state after an entry has been added. -/
def added (p : String) (wd : UInt32) (active : List (ℕ × UInt32)) (s : State) : State :=
  {s with
    byname := s.byname ++ [⟨p, wd, s.created⟩]
    bywd := s.bywd ++ [⟨p, wd, s.created⟩]
    active := active
    created := s.created + 1
    removed := s.removed.filter (· ≠ p)}

theorem inotifyAddWatch_cases {t : Target} {active active' : List (ℕ × UInt32)} {wd : UInt32}
    (h : inotifyAddWatch (some t) active = some (wd, active')) :
    (t.inode ∈ active.map Prod.fst ∧ wd ∈ active.map Prod.snd ∧ active' = active) ∨
      (t.inode ∉ active.map Prod.fst ∧ t.offer ∉ active.map Prod.snd ∧ wd = t.offer ∧
        active' = (t.inode, t.offer) :: active) := by
  simp only [inotifyAddWatch] at h
  cases hfind : active.find? fun p => p.1 = t.inode with
  | some p =>
      rw [hfind] at h
      cases h
      have hmem := List.mem_of_find?_eq_some hfind
      have hinode := List.find?_some hfind
      simp only [decide_eq_true_eq] at hinode
      exact .inl ⟨hinode ▸ List.mem_map_of_mem hmem, List.mem_map_of_mem hmem, rfl⟩
  | none =>
      simp only [hfind] at h
      split_ifs at h with hoffer
      cases h
      refine .inr ⟨fun hmem => ?_, hoffer, rfl, rfl⟩
      obtain ⟨p, hp, hinode⟩ := List.mem_map.mp hmem
      have hnot := List.find?_eq_none.mp hfind p hp
      simp only [decide_eq_true_eq] at hnot
      exact hnot hinode

/-- What a call of `di_file_add_watch` can do. -/
theorem addWatch_cases (path : Option String) (x : Option Target) (s : State) :
    ((diFileAddWatch path x s).1 ≠ 0 ∧ (diFileAddWatch path x s).2 = s) ∨
      ∃ p t wd active, path = some p ∧ p ≠ "" ∧ x = some t ∧
        inotifyAddWatch (some t) s.active = some (wd, active) ∧
        diFileAddWatch path x s = (0, added p wd active s) := by
  cases path with
  | none => exact .inl ⟨by simp [diFileAddWatch, einval], rfl⟩
  | some p =>
      simp only [diFileAddWatch]
      by_cases hp : p = ""
      · rw [if_pos hp]
        exact .inl ⟨by simp [inotifyAddWatch], rfl⟩
      · rw [if_neg hp]
        cases hwatch : inotifyAddWatch x s.active with
        | none => exact .inl ⟨by simp, rfl⟩
        | some r =>
            obtain ⟨wd, active⟩ := r
            cases x with
            | none => cases hwatch
            | some t => exact .inr ⟨p, t, wd, active, rfl, hp, rfl, hwatch, rfl⟩

/-! ## The entries -/

/-- The tables hold the same entries, and every entry is in them once. -/
structure Linked (s : State) : Prop where
  tables : s.byname = s.bywd
  nodup : (s.byname.map Entry.id).Nodup
  bound : ∀ e ∈ s.byname, e.id < s.created

theorem linked_init : Linked {} := ⟨rfl, List.nodup_nil, nofun⟩

theorem Linked.addWatch (h : Linked s) (path : Option String) (x : Option Target) :
    Linked (diFileAddWatch path x s).2 := by
  rcases addWatch_cases path x s with ⟨-, hsame⟩ | ⟨p, t, wd, active, -, -, -, -, hrun⟩
  · rw [hsame]
    exact h
  · rw [hrun]
    refine ⟨congrArg (· ++ _) h.tables, nodup_map_append_singleton h.nodup ?_, ?_⟩
    · intro hmem
      obtain ⟨e, he, hid⟩ := List.mem_map.mp hmem
      exact (h.bound e he).ne hid
    · intro e he
      rcases List.mem_append.mp he with he | he
      · exact Nat.lt_succ_of_lt (h.bound e he)
      · rw [List.mem_singleton.mp he]
        exact Nat.lt_succ_self _

theorem Linked.addAll (h : Linked s) (l : List (Option String × Option Target)) :
    Linked (addAll l s).2 := by
  induction l generalizing s with
  | nil => exact h
  | cons q rest ih =>
      obtain ⟨path, x⟩ := q
      simp only [FileWatch.addAll]
      split_ifs
      · exact h.addWatch path x
      · exact ih (h.addWatch path x)

theorem Linked.freeEntry (h : Linked s) (we : Entry) (active : List (ℕ × UInt32))
    (removed : List String) : Linked {freeEntry s we with active := active, removed := removed} :=
  ⟨congrArg (·.erase we) h.tables, h.nodup.sublist (List.erase_sublist.map Entry.id),
    fun e he => h.bound e (List.mem_of_mem_erase he)⟩

theorem Linked.exec (h : Linked s) (a : Op) : Linked (exec F s a).2 := by
  cases a with
  | addOne path x => exact h.addWatch path x
  | add paths =>
      cases paths with
      | strings l => exact h.addAll l
      | literals l => exact h.addAll _
      | other elemType n =>
          simp only [FileWatch.exec, diFileAddManyWatch]
          split_ifs
          · exact h
          · exact h
  | remove path =>
      cases path with
      | none => exact h
      | some p =>
          simp only [FileWatch.exec, diFileRmWatch]
          cases F.find (fun e => e.fname = p) s.byname with
          | none => exact h
          | some we => exact h.freeEntry we _ _

theorem Run.linked {l : List (Op × State)} (h : Run F l s) : Linked s := by
  induction h with
  | init => exact linked_init
  | step a _ ih => exact ih.exec a

/-- When the watch goes, every entry is freed. -/
theorem stopFileWatcher_spec (h : Linked s) :
    (stopFileWatcher s).byname = [] ∧ (stopFileWatcher s).bywd = [] := by
  have hloop : ∀ (l : List Entry) (s : State), s.byname = l → s.bywd = l →
      (l.foldl freeEntry s).byname = [] ∧ (l.foldl freeEntry s).bywd = [] := by
    intro l
    induction l with
    | nil => exact fun s hname hwd => ⟨hname, hwd⟩
    | cons we l ih =>
        intro s hname hwd
        refine ih (freeEntry s we) ?_ ?_
        · rw [freeEntry, hname, List.erase_cons_head]
        · rw [freeEntry, hwd, List.erase_cons_head]
  exact hloop s.bywd _ h.tables rfl

/-! ## The index in every run -/

theorem indexed_init : Indexed {} := ⟨.nil, fun _ => Iff.rfl, nofun⟩

theorem Indexed.addWatch (h : Indexed s) (hnew : New path x s) :
    Indexed (diFileAddWatch path x s).2 := by
  rcases addWatch_cases path x s with ⟨-, hsame⟩ | ⟨p, t, wd, active, rfl, hp, rfl, hwatch, hrun⟩
  · rw [hsame]
    exact h
  · rw [hrun]
    obtain ⟨hinode, hname⟩ := hnew p rfl hp t rfl
    rcases inotifyAddWatch_cases hwatch with ⟨hold, -⟩ | ⟨-, hoffer, rfl, rfl⟩
    · exact absurd hold hinode
    · refine ⟨h.tables.insert (hname hoffer) fun hmem => hoffer ((h.active _).mp hmem), ?_, ?_⟩
      · intro wd
        simp only [added, List.map_append, List.map_cons, List.map_nil, List.mem_append,
          List.mem_cons, List.not_mem_nil, or_false, h.active]
        exact or_comm
      · intro q hq
        obtain ⟨hq, hne⟩ := List.mem_filter.mp hq
        simp only [ne_eq, decide_not, Bool.not_eq_true', decide_eq_false_iff_not] at hne
        simp only [added, List.map_append, List.map_cons, List.map_nil, List.mem_append,
          List.mem_singleton, not_or]
        exact ⟨h.removed q hq, hne⟩

/-- Entries are only added, so tables that are right were right before. -/
theorem twin_of_addWatch (path : Option String) (x : Option Target)
    (h : Twin Entry.fname Entry.wd (diFileAddWatch path x s).2.byname
      (diFileAddWatch path x s).2.bywd) :
    Twin Entry.fname Entry.wd s.byname s.bywd := by
  rcases addWatch_cases path x s with ⟨-, hsame⟩ | ⟨p, t, wd, active, -, -, -, -, hrun⟩
  · rwa [hsame] at h
  · rw [hrun] at h
    exact h.of_append

theorem twin_of_addAll (l : List (Option String × Option Target))
    (h : Twin Entry.fname Entry.wd (addAll l s).2.byname (addAll l s).2.bywd) :
    Twin Entry.fname Entry.wd s.byname s.bywd := by
  induction l generalizing s with
  | nil => exact h
  | cons q rest ih =>
      obtain ⟨path, x⟩ := q
      simp only [addAll] at h
      split_ifs at h with hret
      · exact twin_of_addWatch path x h
      · exact twin_of_addWatch path x (ih h)

theorem new_of_addWatch (h : Indexed s)
    (hafter : Twin Entry.fname Entry.wd (diFileAddWatch path x s).2.byname
      (diFileAddWatch path x s).2.bywd) : New path x s := by
  rintro p ⟨⟩ hp t ⟨⟩
  rcases addWatch_cases (some p) (some t) s with
    ⟨hret, -⟩ | ⟨q, t', wd, active, hq, -, ht, hwatch, hrun⟩
  · refine ⟨fun hmem => hret ?_, fun hoffer => ?_⟩
    · obtain ⟨r, hr, hinode⟩ := List.mem_map.mp hmem
      have hsome : (s.active.find? fun p => p.1 = t.inode).isSome := by
        rw [List.find?_isSome]
        exact ⟨r, hr, by simpa using hinode⟩
      obtain ⟨r', hr'⟩ := Option.isSome_iff_exists.mp hsome
      simp [diFileAddWatch, if_neg hp, inotifyAddWatch, hr']
    · by_contra hname
      apply hret
      simp only [diFileAddWatch, if_neg hp, inotifyAddWatch]
      cases s.active.find? fun p => p.1 = t.inode with
      | some r => rfl
      | none => simp only [if_neg hoffer]
  · cases hq
    cases ht
    rw [hrun] at hafter
    obtain ⟨hname, hwd⟩ := hafter.of_insert
    rcases inotifyAddWatch_cases hwatch with ⟨-, hold, -⟩ | ⟨hinode, -⟩
    · exact absurd ((h.active wd).mpr hold) hwd
    · exact ⟨hinode, fun _ => hname⟩

theorem Indexed.addAll (h : Indexed s) {l : List (Option String × Option Target)}
    (hnew : AllNew l s) : Indexed (addAll l s).2 := by
  induction l generalizing s with
  | nil => exact h
  | cons q rest ih =>
      obtain ⟨path, x⟩ := q
      simp only [FileWatch.addAll]
      split_ifs with hret
      · exact h.addWatch hnew.1
      · exact ih (h.addWatch hnew.1) (hnew.2 (not_not.mp hret))

theorem allNew_of_addAll (h : Indexed s) {l : List (Option String × Option Target)}
    (hafter : Twin Entry.fname Entry.wd (addAll l s).2.byname (addAll l s).2.bywd) :
    AllNew l s := by
  induction l generalizing s with
  | nil => trivial
  | cons q rest ih =>
      obtain ⟨path, x⟩ := q
      simp only [addAll] at hafter
      split_ifs at hafter with hret
      · exact ⟨new_of_addWatch h hafter, fun hzero => absurd hzero hret⟩
      · have hnew := new_of_addWatch h (twin_of_addAll rest hafter)
        exact ⟨hnew, fun _ => ih (h.addWatch hnew) hafter⟩

theorem Indexed.rmWatch (h : Indexed s) (path : Option String) :
    Indexed (diFileRmWatch F path s).2 := by
  cases path with
  | none => exact h
  | some p =>
      simp only [diFileRmWatch]
      cases hfind : F.find (fun e => e.fname = p) s.byname with
      | none => exact h
      | some we =>
          obtain ⟨hmem, hname⟩ := F.found hfind
          simp only [decide_eq_true_eq] at hname
          refine ⟨h.tables.erase we, ?_, ?_⟩
          · intro wd
            change wd ∈ (s.bywd.erase we).map Entry.wd ↔
              wd ∈ (inotifyRmWatch we.wd s.active).map Prod.snd
            rw [h.tables.symm.mem_map_erase (h.tables.perm.mem_iff.mp hmem), h.active]
            simp only [inotifyRmWatch, List.mem_map, List.mem_filter, ne_eq, decide_not,
              Bool.not_eq_true', decide_eq_false_iff_not]
            constructor
            · rintro ⟨⟨r, hr, rfl⟩, hne⟩
              exact ⟨r, ⟨hr, hne⟩, rfl⟩
            · rintro ⟨r, ⟨hr, hne⟩, rfl⟩
              exact ⟨⟨r, hr, rfl⟩, hne⟩
          · intro q hq
            change q ∉ (s.byname.erase we).map Entry.fname
            rw [h.tables.mem_map_erase hmem]
            rcases List.mem_cons.mp hq with rfl | hq
            · exact fun hleft => hleft.2 hname.symm
            · exact fun hleft => h.removed q hq hleft.1

/-- One call. -/
theorem exec_indexed_iff (h : Indexed s) (a : Op) : Indexed (exec F s a).2 ↔ Unaliased s a := by
  cases a with
  | addOne path x => exact ⟨fun h' => new_of_addWatch h h'.tables, h.addWatch⟩
  | add paths =>
      cases paths with
      | strings l => exact ⟨fun h' => allNew_of_addAll h h'.tables, h.addAll⟩
      | literals l => exact ⟨fun h' => allNew_of_addAll h h'.tables, h.addAll⟩
      | other elemType n =>
          refine iff_of_true ?_ trivial
          simp only [exec, diFileAddManyWatch]
          split_ifs
          · exact h
          · exact h
  | remove path => exact iff_of_true (h.rmWatch path) trivial

/-- In every run, the index is right in all states if and only if no call adds what is there. -/
theorem index_kept_iff {l : List (Op × State)} (h : Run F l s) :
    (Indexed s ∧ ∀ p ∈ l, Indexed p.2) ↔ ∀ p ∈ l, Unaliased p.2 p.1 := by
  induction h with
  | init => exact iff_of_true ⟨indexed_init, nofun⟩ nofun
  | @step l s a hrun ih =>
      rw [List.forall_mem_cons, List.forall_mem_cons, ← ih]
      constructor
      · rintro ⟨hafter, hs, hall⟩
        exact ⟨(exec_indexed_iff hs a).mp hafter, hs, hall⟩
      · rintro ⟨hunaliased, hs, hall⟩
        exact ⟨(exec_indexed_iff hs a).mpr hunaliased, hs, hall⟩

/-- The entry that was added last comes first. -/
def firstFound : HashFind where
  find p l := l.reverse.find? p
  found h := ⟨List.mem_reverse.mp (List.mem_of_find?_eq_some h), List.find?_some h⟩
  missing h e he := by simpa using List.find?_eq_none.mp h e (List.mem_reverse.mpr he)

/-- Two files are added, and one of them is removed. -/
theorem index_kept_two_files : ∃ l s, Run firstFound l s ∧ s.byname.map Entry.fname = ["b"] ∧
    Indexed s := by
  have hrun := ((Run.init (F := firstFound)).step (.add (.strings [(some "a", some ⟨1, 1⟩),
    (some "b", some ⟨2, 2⟩)]))).step (.remove (some "a"))
  refine ⟨_, _, hrun, rfl, ((index_kept_iff hrun).mpr ?_).1⟩
  simp [Unaliased, AllNew, New, diFileAddWatch, inotifyAddWatch]

/-- The same path is added twice. After it has been removed it is still there, with a descriptor
that is not active any more. -/
theorem index_lost : ∃ l s, Run firstFound l s ∧ (∃ p ∈ l, p.1 = .remove (some "a") ∧
    (exec firstFound p.2 p.1).1 = 0) ∧ s.byname.map Entry.fname = ["a"] ∧ s.active = [] ∧
    ¬ Indexed s := by
  have hrun := (((Run.init (F := firstFound)).step (.addOne (some "a") (some ⟨1, 1⟩))).step
    (.addOne (some "a") (some ⟨1, 2⟩))).step (.remove (some "a"))
  refine ⟨_, _, hrun, ⟨_, List.mem_cons_self, rfl, rfl⟩, rfl, rfl, fun h => ?_⟩
  exact h.removed "a" List.mem_cons_self List.mem_cons_self

end Deai.FileWatch
