import Constructions.Session
import Mathlib.Data.List.Basic
import Mathlib.Data.List.Induction
import Mathlib.Logic.Relation

/-!
# The nearest configuration file

The search for a configuration file tries the file names in one directory after the other, from the
start up to the root.

* `Path.Normal` -- a path without detours; `Path.Shortens` -- a detour is left out;
  `Path.Normal.foldl_enter` -- names lead to what is written less its detours.
* `Config.firstIn` -- the first choice among the files of one directory.
* `Config.Climb` -- the search as a sequence of steps; `Config.climb_iff` -- every search ends, with
  what `Config.find` answers.
* `Config.IsNearest` -- the file that should be found, without a word on the search;
  `Config.Climb.answers`, `Config.find_eq_iff` -- a search ends with it, or there is none.
* `SessionM.findConfig_nearest` -- **the nearest file of the highest priority is found**.
-/

namespace Constructions

/-! ## 1. Paths -/

namespace Path

/-- A name that stands for a place of its own, and neither stays nor goes up. -/
def Plain (name : String) : Prop := name ≠ "" ∧ name ≠ "." ∧ name ≠ ".."

/-- A path without detours. -/
def Normal (p : Path) : Prop := ∀ name ∈ p, Plain name

/-- One detour is left out: a name that stays, a plain name with the step back after it, or a step
    up from the root. -/
inductive Shortens : Path → Path → Prop
  | stay {name : String} (h : name = "" ∨ name = ".") (a b : Path) :
      Shortens (a ++ name :: b) (a ++ b)
  | back {name : String} (h : Plain name) (a b : Path) : Shortens (a ++ name :: ".." :: b) (a ++ b)
  | root (b : Path) : Shortens (".." :: b) b

section

variable {p : Path} (h : p.Normal)
include h

theorem Normal.origin (text : String) : (p.origin text).Normal := by
  unfold Path.origin
  split
  · exact fun _ hname => absurd hname List.not_mem_nil
  · exact h

theorem Normal.enter (name : String) : (p.enter name).Normal := by
  unfold Path.enter
  split
  · exact h
  · rename_i hstay
    split
    · exact fun other hother => h other (List.dropLast_subset p hother)
    · rename_i hup
      intro other hother
      rcases List.mem_append.mp hother with hold | hnew
      · exact h other hold
      · rw [List.mem_singleton.mp hnew]
        exact ⟨fun he => hstay (.inl he), fun he => hstay (.inr he), hup⟩

/-- To enter a name is to write it down and to leave out the detour that it may make. -/
theorem Normal.shortens_enter (name : String) (rest : Path) :
    Relation.ReflGen Shortens (p ++ name :: rest) (p.enter name ++ rest) := by
  unfold Path.enter
  split
  · rename_i hstay
    exact .single (.stay hstay p rest)
  · split
    · rename_i hup
      subst hup
      rcases p.eq_nil_or_concat with rfl | ⟨around, last, rfl⟩
      · exact .single (.root rest)
      · have hlast : Plain last := h last (by simp)
        rw [List.concat_eq_append, List.dropLast_concat, List.append_assoc]
        exact .single (.back hlast around rest)
    · rw [List.append_assoc]
      exact .refl

end

/-- Names lead to a path without detours, which is what is written less its detours. -/
theorem Normal.foldl_enter {p : Path} (h : p.Normal) (ns : List String) :
    (ns.foldl Path.enter p).Normal
      ∧ Relation.ReflTransGen Shortens (p ++ ns) (ns.foldl Path.enter p) := by
  induction ns generalizing p with
  | nil => exact ⟨h, by rw [List.append_nil]; exact .refl⟩
  | cons name rest ih =>
    obtain ⟨hnormal, hshort⟩ := ih (h.enter name)
    exact ⟨hnormal, (h.shortens_enter name rest).to_reflTransGen.trans hshort⟩

theorem upward_nil : upward [] = [[]] := rfl

/-- Upward from a place come the place and what is upward from the directory around it. -/
theorem upward_concat (p : Path) (name : String) :
    upward (p ++ [name]) = (p ++ [name]) :: upward p := by
  unfold upward
  rw [List.length_append, List.length_singleton, List.range_succ, List.reverse_append,
    List.reverse_singleton, List.singleton_append, List.map_cons]
  congr 1
  · exact List.take_of_length_le (by simp)
  · refine List.map_congr_left fun n hn => ?_
    rw [List.mem_reverse, List.mem_range] at hn
    exact List.take_append_of_le_length (by omega)

end Path

namespace Config

variable {t : Tree} {start dir p q : Path} {r : Option Path}

/-! ## 2. The search, directory by directory -/

/-- The first choice among the configuration files of a directory. -/
def firstIn (t : Tree) (dir : Path) : Option Path := (fileNames.map (dir ++ [·])).find? t.isFile

/-- A search from a directory: it ends with a file of this directory, or else at the root, and
    otherwise goes on in the directory around it. -/
inductive Climb (t : Tree) : Path → Option Path → Prop
  | found {dir p : Path} (h : firstIn t dir = some p) : Climb t dir (some p)
  | root {dir : Path} (h : firstIn t dir = none) (htop : dir.dropLast = dir) : Climb t dir none
  | up {dir : Path} {r : Option Path} (h : firstIn t dir = none) (hup : dir.dropLast ≠ dir)
      (hrest : Climb t dir.dropLast r) : Climb t dir r

theorem find_nil (t : Tree) : find t [] = firstIn t [] := by
  simp [find, candidates, Path.upward_nil, firstIn]

theorem find_concat (t : Tree) (dir : Path) (name : String) :
    find t (dir ++ [name]) = (firstIn t (dir ++ [name])).or (find t dir) := by
  rw [find, candidates, Path.upward_concat, List.flatMap_cons, List.find?_append]
  rfl

/-- Every search ends, with what `find` answers.  The induction is on the start, from the root
    down. -/
theorem climb_find (t : Tree) (start : Path) : Climb t start (find t start) := by
  induction start using List.reverseRecOn with
  | nil =>
    rw [find_nil]
    cases h : firstIn t [] with
    | none => exact .root h rfl
    | some p => exact .found h
  | append_singleton dir name ih =>
    rw [find_concat]
    cases h : firstIn t (dir ++ [name]) with
    | none =>
      refine .up h ?_ ?_
      · simp
      · rw [List.dropLast_concat]
        exact ih
    | some p => exact .found h

/-- A search has one end only: no two rules of `Climb` fit the same directory. -/
theorem Climb.unique {r' : Option Path} (h : Climb t start r) (h' : Climb t start r') : r = r' := by
  induction h generalizing r' with
  | found h =>
    cases h' with
    | found h₁ => rw [← h, ← h₁]
    | root h₁ => simp [h] at h₁
    | up h₁ => simp [h] at h₁
  | root h htop =>
    cases h' with
    | found h₁ => simp [h] at h₁
    | root => rfl
    | up _ hup => exact absurd htop hup
  | up h hup _ ih =>
    cases h' with
    | found h₁ => simp [h] at h₁
    | root _ htop => exact absurd htop hup
    | up _ _ hrest => exact ih hrest

theorem climb_iff : Climb t start r ↔ find t start = r :=
  ⟨fun h => (climb_find t start).unique h, fun h => h ▸ climb_find t start⟩

/-! ## 3. The nearest file -/

/-- A directory with a configuration file in it. -/
def Holds (t : Tree) (dir : Path) : Prop := ∃ name ∈ fileNames, t.isFile (dir ++ [name]) = true

/-- `p` is the configuration file that counts, seen from `start`. -/
def IsNearest (t : Tree) (start p : Path) : Prop :=
  ∃ dir before name after, dir <+: start ∧ fileNames = before ++ name :: after ∧ p = dir ++ [name]
    ∧ t.isFile p = true
    -- no file of a higher priority in the same directory
    ∧ (∀ other ∈ before, t.isFile (dir ++ [other]) = false)
    -- no file at all in a directory that is nearer
    ∧ ∀ d, d <+: start → dir.length < d.length → ¬ Holds t d

theorem firstIn_eq_none_iff : firstIn t dir = none ↔ ¬ Holds t dir := by
  simp [firstIn, Holds]

theorem firstIn_eq_some_iff :
    firstIn t dir = some p ↔ ∃ before name after, fileNames = before ++ name :: after
      ∧ p = dir ++ [name] ∧ t.isFile p = true
      ∧ ∀ other ∈ before, t.isFile (dir ++ [other]) = false := by
  rw [firstIn, List.find?_map, Option.map_eq_some_iff]
  constructor
  · rintro ⟨name, hname, rfl⟩
    obtain ⟨hfile, before, after, hsplit, hbefore⟩ := List.find?_eq_some_iff_append.mp hname
    exact ⟨before, name, after, hsplit, rfl, hfile, by simpa using hbefore⟩
  · rintro ⟨before, name, after, hsplit, rfl, hfile, hbefore⟩
    refine ⟨name, List.find?_eq_some_iff_append.mpr ⟨hfile, before, after, hsplit, ?_⟩, rfl⟩
    simpa using hbefore

/-- What is above a directory is the directory itself or above the directory around it. -/
theorem prefix_dropLast {d : Path} (h : d <+: dir) : d = dir ∨ d <+: dir.dropLast := by
  induction dir using List.reverseRecOn with
  | nil => exact .inr h
  | append_singleton dir name =>
    rw [List.dropLast_concat]
    exact List.prefix_concat_iff.mp h

/-- The right answer to a search from `start`. -/
def Answers (t : Tree) (start : Path) : Option Path → Prop
  | none => ∀ d, d <+: start → ¬ Holds t d
  | some p => IsNearest t start p

/-- A file of the directory itself is the nearest. -/
theorem answers_of_firstIn (h : firstIn t dir = some p) : Answers t dir (some p) := by
  obtain ⟨before, name, after, hsplit, hp, hfile, hbefore⟩ := firstIn_eq_some_iff.mp h
  refine ⟨dir, before, name, after, List.prefix_rfl, hsplit, hp, hfile, hbefore, ?_⟩
  exact fun d hd hlen => absurd hd.length_le (Nat.not_le_of_lt hlen)

/-- Where a directory holds no file, the right answer is the one of the directory around it. -/
theorem Answers.of_dropLast (h : firstIn t dir = none) (ha : Answers t dir.dropLast r) :
    Answers t dir r := by
  have hnone : ¬ Holds t dir := firstIn_eq_none_iff.mp h
  cases r with
  | none =>
    intro d hd
    rcases prefix_dropLast hd with rfl | hup
    · exact hnone
    · exact ha d hup
  | some p =>
    obtain ⟨top, before, name, after, htop, hsplit, hp, hfile, hbefore, hnearer⟩ := ha
    refine ⟨top, before, name, after, htop.trans ( List.dropLast_prefix dir), hsplit, hp, hfile,
      hbefore, fun d hd hlen => ?_⟩
    rcases prefix_dropLast hd with rfl | hup
    · exact hnone
    · exact hnearer d hup hlen

/-- **A search ends with the right answer**, since each of its steps keeps it. -/
theorem Climb.answers (h : Climb t start r) : Answers t start r := by
  induction h with
  | found h => exact answers_of_firstIn h
  | @root dir h htop =>
    have hnil : dir = [] := by
      rcases dir.eq_nil_or_concat with rfl | ⟨around, name, rfl⟩
      · rfl
      · simp at htop
    subst hnil
    intro d hd
    rw [List.prefix_nil.mp hd]
    exact firstIn_eq_none_iff.mp h
  | up h _ _ ih => exact Answers.of_dropLast h ih

/-- There is one nearest file at most. -/
theorem IsNearest.unique (h : IsNearest t start p) (h' : IsNearest t start q) : p = q := by
  obtain ⟨dir, before, name, after, hdir, hsplit, hp, hfile, hbefore, hnearer⟩ := h
  obtain ⟨dir', before', name', after', hdir', hsplit', hq, hfile', hbefore', hnearer'⟩ := h'
  have hholds : Holds t dir := ⟨name, by simp [hsplit], hp ▸ hfile⟩
  have hholds' : Holds t dir' := ⟨name', by simp [hsplit'], hq ▸ hfile'⟩
  have hlen : dir.length = dir'.length :=
    Nat.le_antisymm (Nat.le_of_not_lt fun hlt => hnearer' dir hdir hlt hholds)
      (Nat.le_of_not_lt fun hlt => hnearer dir' hdir' hlt hholds')
  have hpre : dir <+: dir' := List.prefix_of_prefix_length_le hdir hdir' (Nat.le_of_eq hlen)
  have heq : dir = dir' := hpre.eq_of_length hlen
  subst heq
  have h₁ := firstIn_eq_some_iff.mpr ⟨before, name, after, hsplit, hp, hfile, hbefore⟩
  have h₂ := firstIn_eq_some_iff.mpr ⟨before', name', after', hsplit', hq, hfile', hbefore'⟩
  exact Option.some.inj (h₁.symm.trans h₂)

theorem IsNearest.exists_holds (h : IsNearest t start p) : ∃ d, d <+: start ∧ Holds t d := by
  obtain ⟨dir, before, name, after, hdir, hsplit, hp, hfile, -⟩ := h
  exact ⟨dir, hdir, name, by simp [hsplit], hp ▸ hfile⟩

/-- There is one right answer only. -/
theorem Answers.unique {r' : Option Path} (h : Answers t start r) (h' : Answers t start r') :
    r = r' := by
  cases r with
  | none =>
    cases r' with
    | none => rfl
    | some q =>
      obtain ⟨d, hd, hholds⟩ := IsNearest.exists_holds h'
      exact absurd hholds (h d hd)
  | some p =>
    cases r' with
    | none =>
      obtain ⟨d, hd, hholds⟩ := IsNearest.exists_holds h
      exact absurd hholds (h' d hd)
    | some q => rw [IsNearest.unique h h']

theorem find_eq_iff : find t start = r ↔ Answers t start r :=
  ⟨fun h => (climb_iff.mpr h).answers, fun h => (climb_find t start).answers.unique h⟩

end Config

/-! ## 4. Main statement -/

/-- **The nearest file of the highest priority is found.**  From any directory of any tree, however
    the start is written: the search ends, in one way only, and leaves the session as it was; what
    it ends with is a file, in the start directory or above it, with no file of an earlier name
    beside it and no configuration file in a directory that is nearer, and there is only one such
    file; it ends without a file if and only if no directory from the start up to the root holds
    one.  The start directory is what is written, after the current directory or the root, less all
    detours. -/
theorem SessionM.findConfig_nearest (s : Session) (start : String) :
    ∃ r, (findConfig start).run.run s = some (.ok r, s)
      ∧ (∀ r', Config.Climb s.tree (s.cwd.resolve start) r' ↔ r' = r)
      ∧ (∀ p, r = some p ↔ Config.IsNearest s.tree (s.cwd.resolve start) p)
      ∧ (r = none ↔ ∀ d, d <+: s.cwd.resolve start → ¬ Config.Holds s.tree d)
      ∧ (s.cwd.Normal → (s.cwd.resolve start).Normal
          ∧ Relation.ReflTransGen Path.Shortens (s.cwd.origin start ++ Path.names start)
              (s.cwd.resolve start)) := by
  refine ⟨Config.find s.tree (s.cwd.resolve start), rfl, fun r' => ?_, fun p => ?_, ?_, ?_⟩
  · rw [Config.climb_iff, eq_comm]
  · exact Config.find_eq_iff
  · exact Config.find_eq_iff
  · exact fun h => (h.origin start).foldl_enter (Path.names start)

/-- A directory with a configuration file's name is passed over. -/
example :
    let t := ((Tree.empty.addDir ["a", "b", ".fluxorc.yml"]).write ["a", "fluxo.config.json"] []
      |>.write ["a", ".fluxorc.json"] []).write [".fluxorc.yml"] []
    Config.find t (Path.resolve ["a"] "./b/../b/c/..") = some ["a", ".fluxorc.json"] := by decide

end Constructions
