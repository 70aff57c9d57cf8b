import Mathlib.Data.List.Nodup
import StackLisp.Command.Input
import StackLisp.Disk
import StackLisp.Proofs.Separators

/-! Where the files of a project lie. A path is a walk: it goes up some steps and then down through
names. The check for repeated files compares the walks before it is known where they start, so two
entries of a project can still lead to one place. -/
namespace StackLisp

namespace Path

/-- What can stand between the slashes of a cleaned path besides steps up. -/
structure IsName (part : Bytes) : Prop where
  nonempty : part ≠ []
  whole : slash ∉ part
  notDot : part ≠ dot
  notDotDot : part ≠ dotDot

/-- A path as a walk: first some steps up, then down through names, of which the last one stands
first. -/
@[ext] structure Walk where
  ups : Nat := 0
  names : Location := []

namespace Walk

/-- Goes on by one part of a path. -/
def add (w : Walk) (part : Bytes) : Walk :=
  if part = [] ∨ part = dot then w
  else if part = dotDot then
    match w.names with
    | [] => { w with ups := w.ups + 1 }
    | _ :: rest => { w with names := rest }
  else { w with names := part :: w.names }

/-- All names are such. -/
def Named (w : Walk) : Prop := ∀ name ∈ w.names, IsName name

theorem Named.add {w : Walk} (h : w.Named) {part : Bytes} (hpart : slash ∉ part) :
    (w.add part).Named := by
  unfold Walk.add
  split
  · exact h
  · next hkept =>
    obtain ⟨hnonempty, hdot⟩ := not_or.1 hkept
    split
    · split
      · exact h
      · next hnames =>
        intro name hname
        exact h name (hnames ▸ List.mem_cons_of_mem _ hname)
    · next hdotDot =>
      intro name hname
      rcases List.mem_cons.1 hname with rfl | hname
      · exact ⟨hnonempty, hpart, hdot, hdotDot⟩
      · exact h name hname

theorem Named.not_mem {w : Walk} (h : w.Named) : dotDot ∉ w.names :=
  fun hmem => (h dotDot hmem).notDotDot rfl

end Walk

/-- What a walk has below its names, by the number of its steps up. -/
def Base (absolute : Bool) (below : Nat → List Bytes) : Prop :=
  ∀ k, addPart absolute (below k) dotDot = below (k + 1)

/-- From an unknown start the steps up are kept. -/
theorem base_relative : Base false fun k => List.replicate k dotDot := by
  intro k
  cases k with
  | zero => rfl
  | succ k => rfl

/-- From a known place every step up leaves a directory; above the root there is none. -/
theorem base_absolute {place : Location} (h : dotDot ∉ place) : Base true fun k => place.drop k := by
  intro k
  dsimp only
  rw [← List.drop_drop]
  cases hleft : place.drop k with
  | nil => rfl
  | cons last rest =>
    have hlast : last ≠ dotDot := fun heq =>
      h (heq ▸ List.mem_of_mem_drop (hleft ▸ List.mem_cons_self))
    exact if_neg hlast

theorem addPart_add {absolute : Bool} {below : Nat → List Bytes} (hbase : Base absolute below)
    {w : Walk} (h : dotDot ∉ w.names) (part : Bytes) :
    addPart absolute (w.names ++ below w.ups) part =
      (w.add part).names ++ below (w.add part).ups := by
  by_cases hkept : part = [] ∨ part = dot
  · unfold addPart Walk.add
    rw [if_pos hkept, if_pos hkept]
  by_cases hup : part = dotDot
  · subst hup
    obtain ⟨ups, names⟩ := w
    cases names with
    | nil => exact hbase ups
    | cons name rest =>
      have hname : name ≠ dotDot := fun heq => h (heq ▸ List.mem_cons_self)
      exact if_neg hname
  · unfold addPart Walk.add
    rw [if_neg hkept, if_neg hup, if_neg hkept, if_neg hup]
    rfl

/-- The walk of a path. -/
def walk (p : Bytes) : Walk := (Text.split slash p).foldl Walk.add {}

theorem foldl_add {parts : List Bytes} (hparts : ∀ part ∈ parts, slash ∉ part) {w : Walk}
    (hw : w.Named) : (parts.foldl Walk.add w).Named ∧
      ∀ absolute below, Base absolute below →
        parts.foldl (addPart absolute) (w.names ++ below w.ups) =
          (parts.foldl Walk.add w).names ++ below (parts.foldl Walk.add w).ups := by
  induction parts generalizing w with
  | nil => exact ⟨hw, fun _ _ _ => rfl⟩
  | cons part parts ih =>
    obtain ⟨hpart, hparts⟩ := List.forall_mem_cons.1 hparts
    obtain ⟨hnamed, hrest⟩ := ih hparts (hw.add hpart)
    refine ⟨hnamed, fun absolute below hbase => ?_⟩
    rw [List.foldl_cons, List.foldl_cons, addPart_add hbase hw.not_mem, hrest _ _ hbase]

theorem foldl_split (p : Bytes) : (walk p).Named ∧ ∀ absolute below, Base absolute below →
    (Text.split slash p).foldl (addPart absolute) (below 0) =
      (walk p).names ++ below (walk p).ups :=
  foldl_add (w := {}) (fun _ => Text.not_mem_of_mem_split) fun _ h => absurd h List.not_mem_nil

theorem named_walk (p : Bytes) : (walk p).Named := (foldl_split p).1

theorem foldl_relative (p : Bytes) : (Text.split slash p).foldl (addPart false) [] =
    (walk p).names ++ List.replicate (walk p).ups dotDot := (foldl_split p).2 _ _ base_relative

theorem foldl_absolute (p : Bytes) {place : Location} (h : dotDot ∉ place) :
    (Text.split slash p).foldl (addPart true) place =
      (walk p).names ++ place.drop (walk p).ups := (foldl_split p).2 _ _ (base_absolute h)

theorem clean_eq_pathOf {p : Bytes} (h : isAbsolute p = true) :
    clean p = Disk.pathOf ((Text.split slash p).foldl (addPart true) []) := by
  unfold clean
  rw [h]
  rfl

theorem clean_absolute {p : Bytes} (h : isAbsolute p = true) :
    clean p = Disk.pathOf (walk p).names := by
  rw [clean_eq_pathOf h, foldl_absolute p List.not_mem_nil, List.drop_nil, List.append_nil]

/-- Relative paths with the same walk are cleaned to the same text. -/
theorem clean_eq_of_walk {p p' : Bytes} (h : isAbsolute p = false) (h' : isAbsolute p' = false)
    (hwalk : walk p = walk p') : clean p = clean p' := by
  unfold clean
  dsimp only
  rw [h, h', foldl_relative, foldl_relative, hwalk]

theorem add_of_isName {part : Bytes} (h : IsName part) (w : Walk) :
    w.add part = { w with names := part :: w.names } := by
  rw [Walk.add, if_neg (not_or.2 ⟨h.nonempty, h.notDot⟩), if_neg h.notDotDot]

theorem names_foldl_add {parts : List Bytes} (h : ∀ part ∈ parts, IsName part) (w : Walk) :
    (parts.foldl Walk.add w).names = parts.reverse ++ w.names := by
  induction parts generalizing w with
  | nil => rfl
  | cons part parts ih =>
    obtain ⟨hpart, hparts⟩ := List.forall_mem_cons.1 h
    rw [List.foldl_cons, ih hparts, add_of_isName hpart, List.reverse_cons, List.append_assoc]
    rfl

/-- The path of a place leads there. -/
theorem names_walk_pathOf {place : Location} (h : ∀ name ∈ place, IsName name) :
    (walk (Disk.pathOf place)).names = place := by
  cases place with
  | nil => rfl
  | cons name rest =>
    have hnames : ∀ part ∈ (name :: rest).reverse, IsName part :=
      fun part hpart => h part (List.mem_reverse.1 hpart)
    have hsplit := Text.split_join (by simp) fun part hpart => (hnames part hpart).whole
    rw [walk, Disk.pathOf, Text.split_cons_sep, hsplit, List.foldl_cons, names_foldl_add hnames,
      List.reverse_reverse]
    exact List.append_nil _

theorem pathOf_inj {place place' : Location} (h : ∀ name ∈ place, IsName name)
    (h' : ∀ name ∈ place', IsName name) (heq : Disk.pathOf place = Disk.pathOf place') :
    place = place' := by
  rw [← names_walk_pathOf h, heq, names_walk_pathOf h']

/-- The place that a path leads to from a directory. -/
def landing (dir p : Bytes) : Location :=
  if isAbsolute p then (walk p).names else (walk p).names ++ (walk dir).names.drop (walk p).ups

theorem isName_of_mem_landing {dir p name : Bytes} (h : name ∈ landing dir p) : IsName name := by
  unfold landing at h
  split at h
  · exact named_walk p name h
  · rcases List.mem_append.1 h with h | h
    · exact named_walk p name h
    · exact named_walk dir name (List.mem_of_mem_drop h)

theorem ne_nil_of_isAbsolute {p : Bytes} (h : isAbsolute p = true) : p ≠ [] := by
  rintro rfl
  cases h

theorem isAbsolute_append {p : Bytes} (h : isAbsolute p = true) (rest : Bytes) :
    isAbsolute (p ++ rest) = true := by
  cases p with
  | nil => cases h
  | cons b p => exact h

/-- A relative path behind an absolute one. -/
theorem join_absolute {dir : Bytes} (hdir : isAbsolute dir = true) (p : Bytes) :
    join [dir, p] = Disk.pathOf ((walk p).names ++ (walk dir).names.drop (walk p).ups) := by
  have hne := ne_nil_of_isAbsolute hdir
  unfold join
  by_cases hp : p = []
  · subst hp
    have hfilter : [dir, []].filter (· ≠ []) = [dir] := by simp [hne]
    rw [hfilter]
    exact (congrArg clean List.intercalate_singleton).trans (clean_absolute hdir)
  · have hfilter : [dir, p].filter (· ≠ []) = [dir, p] := by simp [hne, hp]
    have hjoin : Text.join [slash] [dir, p] = dir ++ slash :: p := by
      rw [Text.join, List.intercalate_cons_cons, List.intercalate_singleton, List.append_assoc]
      rfl
    rw [hfilter]
    dsimp only
    rw [hjoin, clean_eq_pathOf (isAbsolute_append hdir _), Text.split_append, List.foldl_append,
      foldl_absolute dir List.not_mem_nil, List.drop_nil, List.append_nil,
      foldl_absolute p (named_walk dir).not_mem]

theorem clean_within {dir : Bytes} (hdir : isAbsolute dir = true) (p : Bytes) :
    clean (within dir p) = Disk.pathOf (landing dir p) := by
  by_cases hp : isAbsolute p = true
  · rw [within, landing, if_pos hp, if_pos hp, clean_absolute hp]
  · have hplace : within dir p = Disk.pathOf (landing dir p) := by
      rw [within, landing, if_neg hp, if_neg hp, join_absolute hdir]
    rw [hplace, clean_absolute rfl, names_walk_pathOf fun _ => isName_of_mem_landing]

theorem isAbsolute_absolute {cwd : Bytes} (hcwd : isAbsolute cwd = true) (dir : Bytes) :
    isAbsolute (absolute cwd dir) = true := by
  unfold absolute
  split
  · next hdir =>
    rw [clean_absolute hdir]
    rfl
  · rw [join_absolute hcwd]
    rfl

/-- Two entries of a project that lead to one place although they differ as walks: an absolute one
and a relative one, or relative ones of which the second climbs further up and comes back down
through the directories it has left. -/
inductive Meets (dir f g : Bytes) : Prop where
  | absolute : isAbsolute f = true → isAbsolute g = false →
      (walk f).names = (walk g).names ++ (walk dir).names.drop (walk g).ups → Meets dir f g
  | climbing : isAbsolute f = false → isAbsolute g = false → (walk f).ups < (walk g).ups →
      (walk g).names = (walk f).names ++
        ((walk dir).names.drop (walk f).ups).take ((walk g).ups - (walk f).ups) → Meets dir f g

variable {dir f g : Bytes}

theorem landing_of_climbing (hf : isAbsolute f = false) (hg : isAbsolute g = false)
    (hups : (walk f).ups ≤ (walk g).ups) :
    landing dir f = landing dir g ↔ (walk g).names = (walk f).names ++
      ((walk dir).names.drop (walk f).ups).take ((walk g).ups - (walk f).ups) := by
  have hdrop : (walk dir).names.drop (walk f).ups =
      ((walk dir).names.drop (walk f).ups).take ((walk g).ups - (walk f).ups) ++
        (walk dir).names.drop (walk g).ups := by
    have hsum : (walk g).ups = (walk f).ups + ((walk g).ups - (walk f).ups) := by omega
    conv => rhs; rhs; rw [hsum, ← List.drop_drop]
    exact (List.take_append_drop _ _).symm
  unfold landing
  rw [if_neg (Bool.eq_false_iff.1 hf), if_neg (Bool.eq_false_iff.1 hg)]
  conv => lhs; lhs; rw [hdrop, ← List.append_assoc]
  rw [List.append_cancel_right_eq]
  exact eq_comm

theorem Meets.landing_eq (h : Meets dir f g) : landing dir f = landing dir g := by
  cases h with
  | absolute hf hg hnames => rw [landing, if_pos hf, landing, if_neg (Bool.eq_false_iff.1 hg), hnames]
  | climbing hf hg hups hnames => exact (landing_of_climbing hf hg (Nat.le_of_lt hups)).2 hnames

theorem Meets.ne (h : Meets dir f g) : f ≠ g := by
  rintro rfl
  cases h with
  | absolute hf hg _ => exact Bool.noConfusion (hf.symm.trans hg)
  | climbing _ _ hups _ => exact Nat.lt_irrefl _ hups

/-- Entries that lead to one place meet, or have the same walk. -/
theorem meets_or_clean_eq (h : landing dir f = landing dir g) :
    Meets dir f g ∨ Meets dir g f ∨ clean f = clean g := by
  cases hf : isAbsolute f <;> cases hg : isAbsolute g
  · rcases Nat.lt_trichotomy (walk f).ups (walk g).ups with hlt | heq | hlt
    · exact .inl (.climbing hf hg hlt ((landing_of_climbing hf hg (Nat.le_of_lt hlt)).1 h))
    · have hnames := (landing_of_climbing hf hg (Nat.le_of_eq heq)).1 h
      rw [heq, Nat.sub_self, List.take_zero, List.append_nil] at hnames
      exact .inr (.inr (clean_eq_of_walk hf hg (Walk.ext heq hnames.symm)))
    · exact .inr (.inl (.climbing hg hf hlt ((landing_of_climbing hg hf (Nat.le_of_lt hlt)).1 h.symm)))
  · refine .inr (.inl (.absolute hg hf ?_))
    rwa [landing, if_neg (Bool.eq_false_iff.1 hf), landing, if_pos hg, eq_comm] at h
  · refine .inl (.absolute hf hg ?_)
    rwa [landing, if_pos hf, landing, if_neg (Bool.eq_false_iff.1 hg)] at h
  · rw [landing, if_pos hf, landing, if_pos hg] at h
    exact .inr (.inr (by rw [clean_absolute hf, clean_absolute hg, h]))

end Path

namespace Project

theorem firstRepeated?_eq_none {seen files : List Bytes} (h : firstRepeated? seen files = none) :
    (files.map Path.clean).Nodup ∧ ∀ f ∈ files, Path.clean f ∉ seen := by
  induction files generalizing seen with
  | nil => exact ⟨.nil, fun f hf => absurd hf List.not_mem_nil⟩
  | cons f files ih =>
    rw [firstRepeated?] at h
    split at h
    · cases h
    · next hnew =>
      obtain ⟨hnodup, hseen⟩ := ih h
      have hrest (g : Bytes) (hg : g ∈ files) := not_or.1 (List.mem_cons.not.1 (hseen g hg))
      refine ⟨List.nodup_cons.2 ⟨fun hmem => ?_, hnodup⟩, ?_⟩
      · obtain ⟨g, hg, heq⟩ := List.mem_map.1 hmem
        exact (hrest g hg).1 heq
      · intro g hg
        rcases List.mem_cons.1 hg with rfl | hg
        · exact hnew
        · exact (hrest g hg).2

theorem nodup_of_validate {p : Project} (h : p.validate = .ok ()) :
    (p.files.map Path.clean).Nodup := by
  unfold validate at h
  cases hrepeated : firstRepeated? [] p.files with
  | none => exact (firstRepeated?_eq_none hrepeated).1
  | some f =>
    rw [hrepeated] at h
    cases hempty : p.files.isEmpty <;> rw [hempty] at h <;> cases h

theorem validate_of_parse {text : Bytes} {p : Project} (h : parse text = .ok p) :
    p.validate = .ok () := by
  unfold parse at h
  split at h
  · split at h
    · next p' _ =>
      dsimp only at h
      split at h
      · cases h
      · cases hvalid : p'.validate with
        | error fault =>
          rw [hvalid] at h
          cases h
        | ok _ =>
          rw [hvalid] at h
          cases h
          exact hvalid
    · cases h
  · cases h

end Project

namespace Machine

variable {α β ε : Type} {machine after : Machine}

theorem exists_of_bind_eq_ok {x : ExceptT ε (StateM Machine) α}
    {k : α → ExceptT ε (StateM Machine) β} {b : β} (h : (x >>= k) machine = (.ok b, after)) :
    ∃ a between, x machine = (.ok a, between) ∧ k a between = (.ok b, after) := by
  change ExceptT.bindCont k (x machine).1 (x machine).2 = _ at h
  rcases hx : x machine with ⟨answer, between⟩
  rw [hx] at h
  cases answer with
  | error fault => cases h
  | ok a => exact ⟨a, between, rfl, h⟩

theorem bind_of_eq_ok {x : ExceptT ε (StateM Machine) α} (k : α → ExceptT ε (StateM Machine) β)
    {a : α} {between : Machine} (h : x machine = (.ok a, between)) :
    (x >>= k) machine = k a between := by
  change ExceptT.bindCont k (x machine).1 (x machine).2 = _
  rw [h]
  rfl

/-- Reading changes nothing. -/
theorem readFile_snd (path : Bytes) (machine : Machine) :
    (Host.readFile (m := StateM Machine) path machine).2 = machine := by
  have hread : (liftM (Host.read path : StateM Machine (Except FileCause Bytes)) :
      ExceptT FileFault (StateM Machine) (Except FileCause Bytes)) machine =
        (.ok (machine.disk.read machine.workingDir path), machine) := rfl
  rw [Host.readFile, bind_of_eq_ok _ hread]
  cases machine.disk.read machine.workingDir path with
  | ok data => rfl
  | error cause => cases cause <;> rfl

end Machine

namespace Input

/-- Loading reads the file of the directory and puts the project there. -/
theorem exists_parse_of_loadProject {machine after : Machine} {dir : Bytes} {p : Project}
    (h : loadProject (m := StateM Machine) dir machine = (.ok p, after)) :
    ∃ text read, Project.parse text = .ok read ∧
      p = read.locate (Path.absolute machine.workingDir dir) := by
  obtain ⟨answer, between, hread, h⟩ := Machine.exists_of_bind_eq_ok h
  have hsame : between = machine := by
    have hfile := Machine.readFile_snd (Path.join [dir, Project.fileName]) machine
    cases hread
    exact hfile
  subst hsame
  cases answer with
  | error fault => cases h
  | ok text =>
    dsimp only at h
    cases hparse : Project.parse text with
    | error fault =>
      rw [hparse] at h
      cases h
    | ok read =>
      rw [hparse] at h
      cases h
      exact ⟨text, read, hparse, rfl⟩

end Input

namespace Project

open Text (lit)

theorem clean_sourcePaths {p : Project} (hdir : Path.isAbsolute p.dir = true) :
    p.sourcePaths.map Path.clean = p.files.map fun f => Disk.pathOf (Path.landing p.dir f) := by
  rw [sourcePaths, List.map_map]
  exact List.map_congr_left fun f _ => Path.clean_within hdir f

theorem nodup_sourcePaths {p : Project} (hdir : Path.isAbsolute p.dir = true)
    (hfiles : (p.files.map Path.clean).Nodup) :
    (p.sourcePaths.map Path.clean).Nodup ↔
      ∀ f ∈ p.files, ∀ g ∈ p.files, ¬ Path.Meets p.dir f g := by
  rw [clean_sourcePaths hdir]
  constructor
  · intro hnodup f hf g hg hmeets
    exact hmeets.ne (List.inj_on_of_nodup_map hnodup hf hg (by rw [hmeets.landing_eq]))
  · intro hapart
    refine List.pairwise_map.2 ((List.pairwise_map.1 hfiles).imp_of_mem ?_)
    intro f g hf hg hclean hplace
    have hlanding := Path.pathOf_inj (fun _ => Path.isName_of_mem_landing)
      (fun _ => Path.isName_of_mem_landing) hplace
    rcases Path.meets_or_clean_eq hlanding with hmeets | hmeets | heq
    · exact hapart f hf g hg hmeets
    · exact hapart g hg f hf hmeets
    · exact hclean heq

/-- The files of a project that is loaded have their paths in the order in which it lists them. No
path comes twice exactly if no two entries meet; so it is if all entries are absolute, and if none is
and none climbs out of the directory of the project. -/
theorem loaded_sourcePaths {machine after : Machine} {dir : Bytes} {p : Project}
    (hcwd : Path.isAbsolute machine.workingDir = true)
    (hload : Input.loadProject (m := StateM Machine) dir machine = (.ok p, after)) :
    p.sourcePaths.map Path.clean = p.files.map (fun f => Disk.pathOf (Path.landing p.dir f)) ∧
      ((p.sourcePaths.map Path.clean).Nodup ↔
        ∀ f ∈ p.files, ∀ g ∈ p.files, ¬ Path.Meets p.dir f g) ∧
      ((∀ f ∈ p.files, Path.isAbsolute f = true) ∨
          (∀ f ∈ p.files, Path.isAbsolute f = false ∧ (Path.walk f).ups = 0) →
        (p.sourcePaths.map Path.clean).Nodup) := by
  obtain ⟨text, read, hparse, rfl⟩ := Input.exists_parse_of_loadProject hload
  have hdir : Path.isAbsolute (read.locate (Path.absolute machine.workingDir dir)).dir = true :=
    Path.isAbsolute_absolute hcwd dir
  have hfiles : (read.files.map Path.clean).Nodup := nodup_of_validate (validate_of_parse hparse)
  have hexact := nodup_sourcePaths hdir hfiles
  refine ⟨clean_sourcePaths hdir, hexact, fun hplain => hexact.2 fun f hf g hg hmeets => ?_⟩
  cases hmeets with
  | absolute hfixed hfree _ =>
    rcases hplain with hplain | hplain
    · exact Bool.noConfusion ((hplain g hg).symm.trans hfree)
    · exact Bool.noConfusion (hfixed.symm.trans (hplain f hf).1)
  | climbing hfree _ hups _ =>
    rcases hplain with hplain | hplain
    · exact Bool.noConfusion ((hplain f hf).symm.trans hfree)
    · rw [(hplain g hg).2] at hups
      exact Nat.not_lt_zero _ hups

/-- A machine whose working directory is `/p`, with a project there that lists some files. -/
def listing (files : String) : Machine where
  disk := ⟨[([lit "p"], .directory),
    ([fileName, lit "p"], .file (lit "[source]\nfiles = " ++ lit files))]⟩
  workingDir := lit "/p"

/-- A file below the directory, and one that a step up brings back to it. -/
theorem loaded_sourcePaths_plain : ∃ p after,
    Path.isAbsolute (listing "[\"src/a.ks\", \"src/../b.ks\"]").workingDir = true ∧
      Input.loadProject (m := StateM Machine) (lit ".")
        (listing "[\"src/a.ks\", \"src/../b.ks\"]") = (.ok p, after) ∧
      (∀ f ∈ p.files, Path.isAbsolute f = false ∧ (Path.walk f).ups = 0) ∧
      p.sourcePaths.map Path.clean = [lit "/p/src/a.ks", lit "/p/b.ks"] ∧
      (p.sourcePaths.map Path.clean).Nodup := by
  have hcwd : Path.isAbsolute (listing "[\"src/a.ks\", \"src/../b.ks\"]").workingDir = true := by
    decide
  obtain ⟨p, after, hload, hplain, hpaths⟩ : ∃ p after,
      Input.loadProject (m := StateM Machine) (lit ".")
        (listing "[\"src/a.ks\", \"src/../b.ks\"]") = (.ok p, after) ∧
      (∀ f ∈ p.files, Path.isAbsolute f = false ∧ (Path.walk f).ups = 0) ∧
      p.sourcePaths.map Path.clean = [lit "/p/src/a.ks", lit "/p/b.ks"] :=
    ⟨_, _, rfl, by decide +kernel, by decide +kernel⟩
  exact ⟨p, after, hcwd, hload, hplain, hpaths,
    (loaded_sourcePaths hcwd hload).2.2 (.inr hplain)⟩

/-- The same file by a detour: the directories that the second entry leaves are those it comes back
through. -/
theorem loaded_sourcePaths_detour : ∃ p after,
    Input.loadProject (m := StateM Machine) (lit ".")
        (listing "[\"a.ks\", \"../p/a.ks\"]") = (.ok p, after) ∧
      p.sourcePaths = [lit "/p/a.ks", lit "/p/a.ks"] ∧
      ¬ (p.sourcePaths.map Path.clean).Nodup :=
  ⟨_, _, rfl, by decide +kernel, by decide +kernel⟩

end Project
end StackLisp
