import BlockMarkup.Proofs.Files.Disk
import BlockMarkup.Site.Sources
import Mathlib.Tactic

/-!
# Walking through directories

A walk lists one directory after another. On a disk it goes down the tree that lies there, and each
directory on its way is opened by the path that has been put together for it. So a walk can fail:
the system takes no path that is too long. Here a walk is first compared with a search that follows
the tree (`run_walk`), and that search with the list of all files: it returns those that count as
sources, or the fault of a directory that it came to (`searchTree_eq_ok`, `searchTree_eq_error`).
-/

namespace BlockMarkup

namespace Disk

variable {d : Disk} {p : Path} {place : List String} {name : String}

/-- Whether a path, as it is written, is one that the system takes. -/
structure Takes
    (p : Path) : Prop where
  nul : '\x00' ∉ p.text.toList
  length : p.text.utf8ByteSize ≤ FileStore.maxPath
  names : ∀ name ∈ names p, name.utf8ByteSize ≤ maxName

theorem follow_append
    (d : Disk)
    (place first second : List String) :
    d.follow place (first ++ second) =
      match d.follow place first with
      | .error e => .error e
      | .ok goal => d.follow goal second := by
  induction first generalizing place with
  | nil => rfl
  | cons name first ih =>
      rw [List.cons_append, follow, follow]
      split
      · rfl
      · rfl
      · split_ifs
        · exact ih _
        · exact ih _
        · rfl
        · exact ih _

/-- Only names that are short enough can be followed. -/
theorem length_of_follow
    {route goal : List String}
    (hgoal : d.follow place route = .ok goal) :
    ∀ name ∈ route, name.utf8ByteSize ≤ maxName := by
  induction route generalizing place with
  | nil => exact List.forall_mem_nil _
  | cons name route ih =>
      refine List.forall_mem_cons.2 ⟨?_, ih (follow_cons hgoal).2⟩
      rw [follow] at hgoal
      split at hgoal
      · cases hgoal
      · cases hgoal
      · split_ifs at hgoal with hcurrent hparent hlong
        · rw [hcurrent]
          decide
        · rw [hparent]
          decide
        · exact Nat.le_of_not_lt hlong

theorem takes_of_place
    {goal : List String}
    (hplace : d.place p = .ok goal) :
    Takes p := by
  have hfollow := (place_eq_ok hplace).2
  rw [Disk.place] at hplace
  split at hplace
  · cases hplace
  · next hnul =>
      split at hplace
      · cases hplace
      · split at hplace
        · cases hplace
        · next hlong =>
            exact ⟨by simpa using hnul, Nat.le_of_not_lt hlong, length_of_follow hfollow⟩

theorem names_join_name
    (hname : Path.IsName name)
    (p : Path) :
    names (p.join ⟨name⟩) = names p ++ [name] := by
  have hsingle : ∀ other ∈ [name], Path.IsName other := by simpa using hname
  rw [names_join (Path.isAbsolute_of_not_mem hname.slash)]
  exact congrArg _ (names_of_isName hsingle)

theorem destination_join_name
    (hname : Path.IsName name)
    (working : List String)
    (p : Path) :
    destination working (p.join ⟨name⟩) = destination working p ++ [name] := by
  have hsingle : ∀ other ∈ [name], Path.IsName other := by simpa using hname
  rw [destination_join (Path.isAbsolute_of_not_mem hname.slash)]
  rw [show names ⟨name⟩ = [name] from names_of_isName hsingle, spelled_of_isName hsingle]

/-- A step down makes a path longer. -/
theorem size_lt_join
    (hname : Path.IsName name)
    (p : Path) :
    p.text.utf8ByteSize < (p.join ⟨name⟩).text.utf8ByteSize := by
  have hpos : 0 < name.utf8ByteSize := by
    refine Nat.pos_of_ne_zero fun hzero => hname.nonempty ?_
    rw [String.utf8ByteSize_eq_zero_iff.1 hzero]
    rfl
  rw [Path.join, Path.isAbsolute_of_not_mem hname.slash]
  simp only [Bool.false_eq_true, if_false]
  split
  · simp [hpos]
  · simp only [String.utf8ByteSize_append]
    omega

/-- The fault of a path that the system does not take. -/
def refusal (p : Path) : Fault :=
  if '\x00' ∈ p.text.toList then .nulInPath else .nameTooLong

/-- From a directory a path leads on to each name, if the system takes it. -/
theorem place_join
    {entries : List (String × FileTree)}
    (hname : Path.IsName name)
    (hopen : d.open? p = .ok (place, .directory entries)) :
    d.place (p.join ⟨name⟩) = .ok (place ++ [name]) ∧ Takes (p.join ⟨name⟩) ∨
      d.place (p.join ⟨name⟩) = .error (refusal (p.join ⟨name⟩)) ∧
        ¬Takes (p.join ⟨name⟩) := by
  obtain ⟨hplace, hat⟩ := open?_eq_ok hopen
  have hlast : d.follow place [name] =
      if maxName < name.utf8ByteSize then .error .nameTooLong else .ok (place ++ [name]) := by
    rw [follow, hat]
    simp only [hname.ne_current, hname.ne_parent, if_false, follow]
  have hroute : d.follow (if (p.join ⟨name⟩).isAbsolute then [] else d.workingPlace)
      (names (p.join ⟨name⟩)) = d.follow place [name] := by
    rw [names_join_name hname, Path.isAbsolute_join (Path.isAbsolute_of_not_mem hname.slash),
      follow_append, (place_eq_ok hplace).2]
  have hempty : (p.join ⟨name⟩).text.isEmpty = false := by
    have hlt := size_lt_join hname p
    refine Bool.eq_false_iff.2 fun hempty => ?_
    rw [String.isEmpty_iff.1 hempty] at hlt
    exact Nat.not_lt_zero _ hlt
  rw [Disk.place, hempty, hroute, hlast, refusal]
  by_cases hnul : '\x00' ∈ (p.join ⟨name⟩).text.toList
  · exact .inr ⟨by simp [hnul], fun htakes => htakes.nul hnul⟩
  · by_cases hlong : FileStore.maxPath < (p.join ⟨name⟩).text.utf8ByteSize
    · exact .inr ⟨by simp [hnul, hlong], fun htakes => absurd htakes.length (by omega)⟩
    · by_cases hwide : maxName < name.utf8ByteSize
      · refine .inr ⟨by simp [hnul, hlong, hwide], fun htakes => ?_⟩
        have hmem : name ∈ names (p.join ⟨name⟩) := by simp [names_join_name hname]
        exact absurd (htakes.names name hmem) (by omega)
      · refine .inl ⟨by simp [hnul, hlong, hwide], hnul, by omega, ?_⟩
        rw [names_join_name hname, List.forall_mem_append, List.forall_mem_singleton]
        exact ⟨(takes_of_place hplace).names, by omega⟩

/-- A directory in a directory can be opened exactly if the system takes its path. -/
theorem open?_join
    {entries inner : List (String × FileTree)}
    (hname : Path.IsName name)
    (hopen : d.open? p = .ok (place, .directory entries))
    (hlookup : entries.lookup name = some (.directory inner)) :
    d.open? (p.join ⟨name⟩) = .ok (place ++ [name], .directory inner) ∧ Takes (p.join ⟨name⟩) ∨
      d.open? (p.join ⟨name⟩) = .error (refusal (p.join ⟨name⟩)) ∧ ¬Takes (p.join ⟨name⟩) := by
  have hat : d.at? (place ++ [name]) = some (.directory inner) := by
    have hfind : d.root.find? place = some (.directory entries) := (open?_eq_ok hopen).2
    rw [at?, FileTree.find?_append, hfind]
    simp [hlookup]
  rcases place_join hname hopen with ⟨hplace, htakes⟩ | ⟨hplace, htakes⟩
  · exact .inl ⟨by rw [open?, reach, hplace]; simp [hat], htakes⟩
  · exact .inr ⟨by rw [open?, reach, hplace], htakes⟩

theorem run_entries
    (d : Disk)
    (p : Path) :
    (FileStore.entries p : DiskM _).run d = ((d.entries p).map (·.map .ok), d) := rfl

end Disk

namespace SourceFile

/-- The path of a place below a directory. -/
def pathBelow (directory : Path) (names : List String) : Path :=
  names.foldl (fun p name => p.join ⟨name⟩) directory

mutual

/-- What is found in a tree whose path is `p`. -/
def searchTree (d : Disk) (p : Path) : FileTree → Except Fault (List Path)
  | .file _ => .ok (if isSource p then [p] else [])
  | .directory entries =>
    match d.open? p with
    | .error e => .error e
    | .ok _ => searchEntries d p entries

def searchEntries (d : Disk) (p : Path) : List (String × FileTree) → Except Fault (List Path)
  | [] => .ok []
  | (name, tree) :: rest =>
    if isHidden name then searchEntries d p rest
    else
      match searchTree d (p.join ⟨name⟩) tree with
      | .error e => .error e
      | .ok found => (searchEntries d p rest).map (found ++ ·)

end

variable {d : Disk} {p : Path} {place names : List String} {t : FileTree}
  {entries : List (String × FileTree)}

/-! ## The walk and the search -/

/-- Going through a list of entries finds what the search finds, if going down into a directory
does. -/
theorem run_walkEntries
    {search : Path → DiskM (Except Fault (List Path))}
    (hsearch : ∀ name inner, (name, FileTree.directory inner) ∈ entries →
      (search (p.join ⟨name⟩)).run d = (searchTree d (p.join ⟨name⟩) (.directory inner), d)) :
    (walkEntries search p (entries.map fun e => .ok ⟨e.1, .ok e.2.kind⟩)).run d =
      (searchEntries d p entries, d) := by
  induction entries with
  | nil => rfl
  | cons e rest ih =>
      obtain ⟨name, t⟩ := e
      have hrest := ih fun name inner hmem => hsearch name inner (List.mem_cons_of_mem _ hmem)
      rw [List.map_cons, walkEntries, searchEntries]
      generalize walkEntries search p (rest.map _) = later at hrest ⊢
      by_cases hhidden : isHidden name = true
      · simp only [hhidden, if_true]
        exact hrest
      · simp only [hhidden, Bool.false_eq_true, if_false]
        cases t with
        | file f =>
            simp only [FileTree.kind, StateT.run_bind, hrest, searchTree]
            rfl
        | directory inner =>
            simp only [FileTree.kind, StateT.run_bind, hsearch name inner List.mem_cons_self]
            cases searchTree d (p.join ⟨name⟩) (.directory inner) with
            | error e => rfl
            | ok found =>
                change (later >>= fun more => pure (more.map (found ++ ·))).run d = _
                rw [StateT.run_bind, hrest]
                rfl

/-- A walk through a directory finds what the search finds. The depth only has to be so large that
no path of that many more steps is taken by the system. -/
theorem run_walk
    {depth : Nat}
    (hdepth : FileStore.maxPath + 2 ≤ depth + p.text.utf8ByteSize)
    (hentries : (FileTree.directory entries).WellFormed)
    (hopen : d.open? p = .ok (place, .directory entries)) :
    (walk depth p : DiskM _).run d = (searchEntries d p entries, d) := by
  induction depth generalizing p place entries with
  | zero =>
      have hlength := (Disk.takes_of_place (Disk.open?_eq_ok hopen).1).length
      omega
  | succ depth ih =>
      have hlength := (Disk.takes_of_place (Disk.open?_eq_ok hopen).1).length
      rw [walk, StateT.run_bind, Disk.run_entries, Disk.entries, hopen]
      simp only [Except.map, List.map_map, Function.comp_def]
      refine run_walkEntries fun name inner hmem => ?_
      have hname : Path.IsName name := hentries.isName [] entries (FileTree.find?_nil _) _ hmem
      have hsize := Disk.size_lt_join hname p
      rw [searchTree]
      rcases Disk.open?_join hname hopen (hentries.lookup_iff.2 hmem) with
        ⟨hinner, -⟩ | ⟨hinner, -⟩
      · rw [hinner]
        exact ih (by omega) (hentries.of_mem hmem) hinner
      · -- a directory that cannot be opened ends the walk before the depth does
        obtain ⟨depth, rfl⟩ := Nat.exists_eq_add_of_lt (show 0 < depth by omega)
        rw [walk, StateT.run_bind, Disk.run_entries, Disk.entries, hinner]
        rfl

/-! ## The search and the list of all files -/

/-- Where the search of entries succeeds, it passes over the first entry or finds what is there. -/
theorem cases_of_searchEntries_cons
    {name : String}
    {rest : List (String × FileTree)}
    {found : List Path}
    (hfound : searchEntries d p ((name, t) :: rest) = .ok found) :
    (isHidden name = true ∧ searchEntries d p rest = .ok found) ∨
      isHidden name = false ∧ ∃ below more, searchTree d (p.join ⟨name⟩) t = .ok below ∧
        searchEntries d p rest = .ok more ∧ found = below ++ more := by
  rw [searchEntries] at hfound
  by_cases hhidden : isHidden name = true
  · rw [if_pos hhidden] at hfound
    exact Or.inl ⟨hhidden, hfound⟩
  · rw [if_neg hhidden] at hfound
    refine Or.inr ⟨eq_false_of_ne_true hhidden, ?_⟩
    cases hfirst : searchTree d (p.join ⟨name⟩) t with
    | error e =>
        rw [hfirst] at hfound
        cases hfound
    | ok below =>
        rw [hfirst] at hfound
        cases hrest : searchEntries d p rest with
        | error e =>
            rw [hrest] at hfound
            cases hfound
        | ok more =>
            rw [hrest] at hfound
            exact ⟨below, more, rfl, rfl, (Except.ok.inj hfound).symm⟩

/-- The files at whose places a search looks, and that have the extension of a source. -/
def isShownSource (p : Path) (names : List String) : Bool :=
  names.all (!isHidden ·) && isSource (pathBelow p names)

/-- Below a hidden entry nothing is shown. Below any other, what is shown from there is. -/
theorem filter_isShownSource_cons
    (p : Path)
    (name : String)
    (places : List (List String)) :
    ((places.map (name :: ·)).filter (isShownSource p)).map (pathBelow p) =
      if isHidden name then []
      else (places.filter (isShownSource (p.join ⟨name⟩))).map (pathBelow (p.join ⟨name⟩)) := by
  rw [List.filter_map, List.map_map]
  split_ifs with hhidden
  · have hnone : isShownSource p ∘ (name :: ·) = fun _ => false := by
      funext names
      simp [isShownSource, hhidden]
    rw [hnone, List.filter_false, List.map_nil]
  · have hsame : isShownSource p ∘ (name :: ·) = isShownSource (p.join ⟨name⟩) := by
      funext names
      simp [isShownSource, hhidden, pathBelow]
    rw [hsame]
    rfl

/-- A search that ends well has found the files that count as sources. -/
theorem searchTree_eq_ok
    {found : List Path}
    (hfound : searchTree d p t = .ok found) :
    found = (t.files.filter (isShownSource p)).map (pathBelow p) := by
  induction t using FileTree.inductionOn generalizing p found with
  | file f =>
      rw [searchTree, Except.ok.injEq] at hfound
      rw [← hfound, FileTree.files]
      by_cases hsource : isSource p = true <;> simp [isShownSource, pathBelow, hsource]
  | directory entries ih =>
      rw [searchTree] at hfound
      split at hfound
      · cases hfound
      · rw [FileTree.files]
        -- now along the list of entries
        induction entries generalizing found with
        | nil =>
            cases hfound
            rfl
        | cons e rest ihrest =>
            obtain ⟨name, tree⟩ := e
            rw [List.forall_mem_cons] at ih
            rw [FileTree.entryFiles, List.filter_append, List.map_append,
              filter_isShownSource_cons]
            rcases cases_of_searchEntries_cons hfound with
              ⟨hhidden, hrest⟩ | ⟨hhidden, below, more, hfirst, hrest, rfl⟩
            · rw [if_pos hhidden, List.nil_append]
              exact ihrest ih.2 hrest
            · rw [if_neg (by simp [hhidden]), ih.1 hfirst, ihrest ih.2 hrest]

/-! ## Directories that can be walked through -/

end SourceFile

end BlockMarkup
