import BlockMarkup.Proofs.Files.Tree
import Mathlib.Tactic

/-!
# What file operations do

A path is followed through the directories of a disk, but where it leads does not depend on the
disk: if it can be followed at all, it leads to the place that its names spell out. With this, each
operation is described by what lies at every place before and after it.
-/

namespace BlockMarkup

namespace FileTree

variable {t new : FileTree} {place other : List String}

/-- Nothing lies below a place without a directory. -/
theorem entryAt?_below
    (hplace : t.entryAt? place ≠ some .directory)
    (hother : place <+: other)
    (hne : other ≠ place) :
    t.entryAt? other = none := by
  obtain ⟨rest, rfl⟩ := hother
  cases rest with
  | nil => exact absurd (List.append_nil place) hne
  | cons name rest =>
      rw [entryAt?, find?_append]
      cases hfind : t.find? place with
      | none => rfl
      | some below =>
          cases below with
          | file f => simp
          | directory entries => exact absurd (entryAt?_eq_directory_iff.2 ⟨_, hfind⟩) hplace

/-- Above a place at which something lies there is a directory. -/
theorem entryAt?_dropLast
    {entry : Entry}
    (hplace : t.entryAt? place = some entry)
    (hne : place ≠ []) :
    t.entryAt? place.dropLast = some .directory := by
  by_contra hdirectory
  have hself : place.dropLast ≠ place := by
    intro hself
    have hlength := congrArg List.length hself
    rw [List.length_dropLast] at hlength
    have := List.length_pos_iff.2 hne
    omega
  rw [entryAt?_below hdirectory (List.dropLast_prefix place) hself.symm] at hplace
  cases hplace

/-- Putting a file or an empty directory where no directory lies changes that place only. -/
theorem entryAt?_put_leaf
    (hplace : place = [] ∨ t.entryAt? place.dropLast = some .directory)
    (hold : t.entryAt? place ≠ some .directory)
    (hleaf : ∀ name rest, new.entryAt? (name :: rest) = none)
    (other : List String) :
    (t.put place new).entryAt? other =
      if other = place then some new.entry else t.entryAt? other := by
  rw [entryAt?_put hplace]
  by_cases hother : other = place
  · simp [hother]
  · rw [if_neg hother]
    split
    · next hprefix =>
        rw [entryAt?_below hold hprefix hother]
        obtain ⟨rest, rfl⟩ := hprefix
        rw [List.drop_left]
        cases rest with
        | nil => exact absurd (List.append_nil place) hother
        | cons name rest => exact hleaf name rest
    · rfl

/-- A place that is a directory does not lie at or below a file. -/
theorem not_prefix_of_file
    {f : File}
    (hplace : t.entryAt? place = some (.file f))
    (hother : t.entryAt? other = some .directory) :
    ¬ place <+: other := by
  intro hprefix
  have hne : other ≠ place := by
    rintro rfl
    rw [hplace] at hother
    cases hother
  rw [entryAt?_below (by simp [hplace]) hprefix hne] at hother
  cases hother

/-- Moving a file changes the place that it leaves and the one that it comes to. -/
theorem entryAt?_move
    {f : File}
    {origin goal : List String}
    (hfile : t.entryAt? origin = some (.file f))
    (hgoal : t.entryAt? goal ≠ some .directory)
    (hparent : goal = [] ∨ t.entryAt? goal.dropLast = some .directory)
    (hne : origin ≠ goal)
    (other : List String) :
    ((t.remove origin).put goal (.file f)).entryAt? other =
      if other = goal then some (.file f)
      else if other = origin then none
      else t.entryAt? other := by
  have horigin : origin ≠ [] := by
    rintro rfl
    rcases hparent with rfl | hparent
    · exact hne rfl
    · exact not_prefix_of_file hfile hparent List.nil_prefix
  have hremoved := entryAt?_remove horigin t
  have hgoal' : (t.remove origin).entryAt? goal ≠ some .directory := by
    rw [hremoved]
    split_ifs
    · simp
    · exact hgoal
  have hparent' : goal = [] ∨ (t.remove origin).entryAt? goal.dropLast = some .directory := by
    refine hparent.imp_right fun hparent => ?_
    rw [hremoved, if_neg (not_prefix_of_file hfile hparent), hparent]
  rw [entryAt?_put_leaf hparent' hgoal' (entryAt?_file f), hremoved]
  refine if_congr Iff.rfl rfl ?_
  by_cases hother : other = origin
  · rw [if_pos hother, if_pos (hother ▸ List.prefix_refl _)]
  · rw [if_neg hother]
    split_ifs with hprefix
    · exact (entryAt?_below (by simp [hfile]) hprefix hother).symm
    · rfl

end FileTree

namespace Disk

section Run

variable (d : Disk) (p q : Path)

theorem run_kind? :
    (FileStore.kind? p : DiskM _).run d = ((d.open? p).toOption.map (·.2.kind), d) := rfl

end Run

/-- What lies at a place of a disk, if anything. -/
def entryAt? (d : Disk) (place : List String) : Option FileTree.Entry := d.root.entryAt? place

/-- The place that names spell out, seen from another place. -/
def spelled (place : List String) : List String → List String
  | [] => place
  | name :: rest =>
    if name = "." then spelled place rest
    else if name = ".." then spelled place.dropLast rest
    else spelled (place ++ [name]) rest

/-- The place that a path spells out. -/
def destination (working : List String) (p : Path) : List String :=
  spelled (if p.isAbsolute then [] else working) (names p)

variable {d : Disk} {p : Path} {place goal : List String} {route : List String}

theorem spelled_append
    (place first second : List String) :
    spelled place (first ++ second) = spelled (spelled place first) second := by
  induction first generalizing place with
  | nil => rfl
  | cons name first ih =>
      rw [List.cons_append, spelled, spelled]
      split_ifs <;> exact ih _

/-- Names lead down, one directory each. -/
theorem spelled_of_isName
    (hnames : ∀ name ∈ route, Path.IsName name)
    (place : List String) :
    spelled place route = place ++ route := by
  induction route generalizing place with
  | nil => simp [spelled]
  | cons name route ih =>
      rw [List.forall_mem_cons] at hnames
      rw [spelled, if_neg hnames.1.ne_current, if_neg hnames.1.ne_parent, ih hnames.2]
      simp

theorem names_join
    {q : Path}
    (hq : q.isAbsolute = false) :
    names (p.join q) = names p ++ names q := by
  obtain ⟨before, hjoin, ⟨hp, -⟩ | hp⟩ := Path.pieces_join (p := p) hq
  · simp [names, hjoin, hp]
  · simp [names, hjoin, hp]

/-- A path that is seen from another leads on from where the other leads. -/
theorem destination_join
    {q : Path}
    (hq : q.isAbsolute = false)
    (working : List String) :
    destination working (p.join q) = spelled (destination working p) (names q) := by
  rw [destination, names_join hq, Path.isAbsolute_join hq, spelled_append, destination]

theorem names_of_isName
    (hnames : ∀ name ∈ route, Path.IsName name) :
    names ⟨Text.join "/" route⟩ = route := by
  cases route with
  | nil => rfl
  | cons name rest =>
      have hpieces := Path.pieces_names (List.cons_ne_nil name rest)
        fun other hother => (hnames other hother).slash
      have hfilter : ((name :: rest).map String.toList).filter (!·.isEmpty) =
          (name :: rest).map String.toList := by
        refine List.filter_eq_self.2 fun piece hpiece => ?_
        obtain ⟨other, hother, rfl⟩ := List.mem_map.1 hpiece
        simpa using (hnames other hother).nonempty
      rw [names, hpieces, hfilter, List.map_map]
      exact List.map_id'' (fun _ => String.ofList_toList) _

/-- The path of a place leads to it. -/
theorem destination_pathOf
    (hnames : ∀ name ∈ route, Path.IsName name)
    (working : List String) :
    destination working (pathOf route) = route := by
  have hpieces : (pathOf route).pieces = [] :: (Path.mk (Text.join "/" route)).pieces := by
    have happend := Path.pieces_append_slash "" (Text.join "/" route)
    rwa [String.empty_append] at happend
  have habsolute : (pathOf route).isAbsolute = true := by
    simp [pathOf, Path.isAbsolute]
  have hroute : names (pathOf route) = route := by
    rw [names, hpieces]
    exact names_of_isName hnames
  rw [destination, habsolute, hroute, if_pos rfl, spelled_of_isName hnames, List.nil_append]

/-- Following a name needs a directory and leads to the place that is spelled out. -/
theorem follow_cons
    {name : String}
    (hgoal : d.follow place (name :: route) = .ok goal) :
    d.entryAt? place = some .directory ∧ d.follow (spelled place [name]) route = .ok goal := by
  rw [follow] at hgoal
  split at hgoal
  · cases hgoal
  · cases hgoal
  · next entries hplace =>
      refine ⟨FileTree.entryAt?_eq_directory_iff.2 ⟨entries, hplace⟩, ?_⟩
      simp only [spelled]
      split_ifs at hgoal ⊢ <;> exact hgoal

/-- A route that can be followed leads where it is spelled to lead. -/
theorem eq_spelled_of_follow
    (hgoal : d.follow place route = .ok goal) :
    goal = spelled place route := by
  induction route generalizing place with
  | nil =>
      rw [follow] at hgoal
      exact (Except.ok.inj hgoal).symm
  | cons name route ih =>
      rw [ih (follow_cons hgoal).2, ← spelled_append]
      rfl

/-- Every place on the way is a directory. -/
theorem entryAt?_of_follow
    {first second : List String}
    (hgoal : d.follow place (first ++ second) = .ok goal)
    (hsecond : second ≠ []) :
    d.entryAt? (spelled place first) = some .directory := by
  induction first generalizing place with
  | nil =>
      obtain ⟨name, second, rfl⟩ := List.exists_cons_of_ne_nil hsecond
      exact (follow_cons hgoal).1
  | cons name first ih =>
      have hnext := ih (follow_cons hgoal).2
      rwa [← spelled_append] at hnext

/-- A place that can be followed is a directory, or lies directly in one, or is where one
started. -/
theorem parent_of_follow
    (hgoal : d.follow place route = .ok goal) :
    route = [] ∨ d.entryAt? goal = some .directory ∨
      d.entryAt? goal.dropLast = some .directory := by
  rcases List.eq_nil_or_concat' route with hnil | ⟨first, last, rfl⟩
  · exact .inl hnil
  · have hfirst := entryAt?_of_follow hgoal (List.cons_ne_nil last [])
    have heq := eq_spelled_of_follow hgoal
    rw [spelled_append] at heq
    rw [heq, spelled]
    split_ifs
    · exact .inr (.inl hfirst)
    · by_cases hroot : spelled place first = []
      · rw [hroot] at hfirst ⊢
        exact .inr (.inl hfirst)
      · exact .inr (.inl (FileTree.entryAt?_dropLast hfirst hroot))
    · refine .inr (.inr ?_)
      rwa [spelled, List.dropLast_concat]

theorem place_eq_ok
    (hplace : d.place p = .ok goal) :
    p.text ≠ "" ∧
      d.follow (if p.isAbsolute then [] else d.workingPlace) (names p) = .ok goal := by
  rw [Disk.place] at hplace
  split at hplace
  · cases hplace
  · split at hplace
    · cases hplace
    · next hempty =>
        split at hplace
        · cases hplace
        · exact ⟨by simpa using hempty, hplace⟩

/-- Where a path leads does not depend on what lies on the way. -/
theorem eq_destination
    (hplace : d.place p = .ok goal) :
    goal = destination d.workingPlace p :=
  eq_spelled_of_follow (place_eq_ok hplace).2

/-- A path without names is made of slashes. -/
theorem isAbsolute_of_names
    (hnames : names p = [])
    (htext : p.text ≠ "") :
    p.isAbsolute = true := by
  have hlist : p.text.toList ≠ [] := by simpa using htext
  obtain ⟨c, cs, hcs⟩ := List.exists_cons_of_ne_nil hlist
  by_cases hc : c = '/'
  · simp [Path.isAbsolute, hcs, hc]
  · have hhead := Text.head?_splitAt (· = '/') p.text.toList
    obtain ⟨rest, hrest⟩ := List.head?_eq_some_iff.1 hhead
    have hpieces : p.pieces = (c :: cs.takeWhile fun c => !decide (c = '/')) :: rest := by
      rw [Path.pieces, hrest, hcs]
      simp [hc]
    simp [names, hpieces] at hnames

/-- Something can be put at a place that a path leads to, unless a directory is there. -/
theorem parent_of_place
    (hplace : d.place p = .ok goal)
    (hgoal : d.entryAt? goal ≠ some .directory) :
    goal = [] ∨ d.entryAt? goal.dropLast = some .directory := by
  obtain ⟨htext, hfollow⟩ := place_eq_ok hplace
  rcases parent_of_follow hfollow with hnil | hdirectory | hparent
  · rw [isAbsolute_of_names hnil htext, if_pos rfl, hnil, follow] at hfollow
    exact .inl (Except.ok.inj hfollow).symm
  · exact absurd hdirectory hgoal
  · exact .inr hparent

/-- The places of the directories that a path leads through. -/
def OnWay (working : List String) (p : Path) (place : List String) : Prop :=
  ∃ front name rest, names p = front ++ name :: rest ∧
    place = spelled (if p.isAbsolute then [] else working) front

theorem onWay_parent
    {q : Path}
    (hq : p.parent = some q)
    (working : List String) :
    OnWay working p (destination working q) := by
  obtain ⟨habsolute, name, rest, hnames⟩ := Path.names_of_parent hq
  exact ⟨names q, name, rest, hnames, by rw [destination, habsolute]⟩

theorem OnWay.of_parent
    {q : Path}
    {working : List String}
    (hplace : OnWay working q place)
    (hq : p.parent = some q) :
    OnWay working p place := by
  obtain ⟨front, name, rest, hnames, rfl⟩ := hplace
  obtain ⟨habsolute, last, more, hparent⟩ := Path.names_of_parent hq
  refine ⟨front, name, rest ++ last :: more, ?_, by rw [habsolute]⟩
  rw [hparent, hnames]
  simp

/-- A path can only be followed through directories. -/
theorem entryAt?_of_onWay
    (hgoal : d.place p = .ok goal)
    (hplace : OnWay d.workingPlace p place) :
    d.entryAt? place = some .directory := by
  obtain ⟨front, name, rest, hnames, rfl⟩ := hplace
  have hfollow := (place_eq_ok hgoal).2
  rw [hnames] at hfollow
  exact entryAt?_of_follow hfollow (List.cons_ne_nil name rest)

/-- What is reached lies where the path leads. -/
theorem reach_eq_ok
    {followed : Bool}
    {t : FileTree}
    (hreach : d.reach followed p = .ok (goal, t)) :
    d.place p = .ok goal ∧ d.at? goal = some t := by
  rw [reach] at hreach
  split at hreach
  · cases hreach
  · next place hplace =>
      split at hreach
      · cases hreach
      · next f hat =>
          split_ifs at hreach
          cases hreach
          exact ⟨hplace, hat⟩
      · next tree hat =>
          cases hreach
          exact ⟨hplace, hat⟩

theorem open?_eq_ok
    {t : FileTree}
    (hopen : d.open? p = .ok (goal, t)) :
    d.place p = .ok goal ∧ d.at? goal = some t :=
  reach_eq_ok hopen

theorem entryAt?_eq_none_iff :
    d.entryAt? place = none ↔ d.at? place = none := by
  rw [entryAt?, FileTree.entryAt?, Option.map_eq_none_iff, at?]

/-- What lies at each place after a file or an empty directory has been put where a path leads. -/
theorem entryAt?_put
    {new : FileTree}
    (hplace : d.place p = .ok goal)
    (hgoal : d.entryAt? goal ≠ some .directory)
    (hleaf : ∀ name rest, new.entryAt? (name :: rest) = none)
    (other : List String) :
    (d.root.put goal new).entryAt? other =
      if other = destination d.workingPlace p then some new.entry else d.entryAt? other := by
  rw [← eq_destination hplace]
  exact FileTree.entryAt?_put_leaf (parent_of_place hplace hgoal) hgoal hleaf other

/-- A file is written where a path leads and no directory lies. -/
theorem written_eq_ok
    {contents : ByteArray}
    {root : FileTree}
    (hwritten : d.written p contents = .ok root) :
    endsInSlash p = false ∧ ∃ goal, d.place p = .ok goal ∧ d.entryAt? goal ≠ some .directory ∧
      root = d.root.put goal (.file (.regular contents)) := by
  rw [written] at hwritten
  split at hwritten
  · cases hwritten
  · next goal hplace =>
      split_ifs at hwritten with hslash
      refine ⟨Bool.eq_false_iff.2 hslash, goal, hplace, ?_⟩
      split at hwritten
      · cases hwritten
      · cases hwritten
      · cases hwritten
      · next hdirectory _ _ =>
          refine ⟨fun hgoal => ?_, (Except.ok.inj hwritten).symm⟩
          obtain ⟨entries, hentries⟩ := FileTree.entryAt?_eq_directory_iff.1 hgoal
          exact hdirectory entries hentries

/-- What lies at each place after a file has been written. -/
theorem entryAt?_written
    {contents : ByteArray}
    {root : FileTree}
    (hwritten : d.written p contents = .ok root) :
    d.entryAt? (destination d.workingPlace p) ≠ some .directory ∧
      ∀ other, root.entryAt? other =
        if other = destination d.workingPlace p then some (.file (.regular contents))
        else d.entryAt? other := by
  obtain ⟨-, goal, hplace, hgoal, rfl⟩ := written_eq_ok hwritten
  exact ⟨eq_destination hplace ▸ hgoal,
    entryAt?_put hplace hgoal (FileTree.entryAt?_file _)⟩

/-- What lies at each place after a directory has been made. -/
theorem entryAt?_withDirectory
    {root : FileTree}
    (hmade : d.withDirectory p = .ok root) :
    d.entryAt? (destination d.workingPlace p) = none ∧
      ∀ other, root.entryAt? other =
        if other = destination d.workingPlace p then some .directory else d.entryAt? other := by
  rw [withDirectory] at hmade
  split at hmade
  · cases hmade
  · next goal hplace =>
      split at hmade
      · cases hmade
      · next hat =>
          have hgoal : d.entryAt? goal = none := entryAt?_eq_none_iff.2 hat
          cases hmade
          exact ⟨eq_destination hplace ▸ hgoal,
            entryAt?_put hplace (by simp [hgoal]) fun name rest => rfl⟩

/-- Renaming a file takes it from its place and puts it to another, which is no directory. -/
theorem renamed_of_file
    {q : Path}
    {f : File}
    {origin : List String}
    {root : FileTree}
    (hnamed : d.named? p = .ok (origin, .file f))
    (hrenamed : d.renamed p q = .ok root) :
    ∃ goal, d.place q = .ok goal ∧ d.entryAt? goal ≠ some .directory ∧
      root = if origin = goal then d.root else (d.root.remove origin).put goal (.file f) := by
  rw [renamed, hnamed] at hrenamed
  simp only at hrenamed
  split at hrenamed
  · cases hrenamed
  · next goal hgoal =>
      have hfree : d.entryAt? goal ≠ some .directory := by
        intro hdirectory
        obtain ⟨entries, hentries⟩ := FileTree.entryAt?_eq_directory_iff.1 hdirectory
        simp only [at?, hentries] at hrenamed
        cases hrenamed
      refine ⟨goal, hgoal, hfree, ?_⟩
      split at hrenamed
      · cases hrenamed
      · contradiction
      · contradiction
      · contradiction
      · by_cases hsame : origin = goal
        · rw [if_pos hsame] at hrenamed ⊢
          exact (Except.ok.inj hrenamed).symm
        · rw [if_neg hsame] at hrenamed ⊢
          split_ifs at hrenamed
          exact (Except.ok.inj hrenamed).symm

theorem named?_of_renamed
    {q : Path}
    {f : File}
    {root : FileTree}
    (hrenamed : d.renamed p q = .ok root)
    (hfile : d.entryAt? (destination d.workingPlace p) = some (.file f)) :
    d.named? p = .ok (destination d.workingPlace p, .file f) := by
  rw [renamed] at hrenamed
  split at hrenamed
  · cases hrenamed
  · next origin t hnamed =>
      obtain ⟨hplace, hat⟩ := reach_eq_ok hnamed
      rw [← eq_destination hplace] at hfile ⊢
      cases hat.symm.trans (FileTree.entryAt?_eq_file_iff.1 hfile)
      exact hnamed

/-- What lies at each place after a file has been renamed. -/
theorem entryAt?_renamed
    {q : Path}
    {f : File}
    {root : FileTree}
    (hrenamed : d.renamed p q = .ok root)
    (hfile : d.entryAt? (destination d.workingPlace p) = some (.file f)) :
    d.entryAt? (destination d.workingPlace q) ≠ some .directory ∧
      ∀ other, root.entryAt? other =
        if other = destination d.workingPlace q then some (.file f)
        else if other = destination d.workingPlace p then none
        else d.entryAt? other := by
  have hnamed := named?_of_renamed hrenamed hfile
  obtain ⟨goal, hgoal, hfree, hroot⟩ := renamed_of_file hnamed hrenamed
  rw [← eq_destination hgoal, hroot]
  refine ⟨hfree, fun other => ?_⟩
  by_cases hsame : destination d.workingPlace p = goal
  · rw [if_pos hsame, ← hsame]
    split_ifs with hother
    · rw [hother, ← hfile]
      rfl
    · rfl
  · rw [if_neg hsame]
    exact FileTree.entryAt?_move hfile hfree (parent_of_place hgoal hfree) hsame other

end Disk

end BlockMarkup
