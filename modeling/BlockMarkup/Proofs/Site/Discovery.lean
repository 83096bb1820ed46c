import BlockMarkup.Proofs.Site.Walk
import Mathlib.Data.List.Lex
import Mathlib.Data.String.Basic
import Mathlib.Tactic

/-!
# Finding sources

Sources are found in two ways: by walking through everything below a directory, and by looking at
the path of a single file that has changed. The first is described by what it returns, for every
tree and every path of a directory, and the second is shown to take exactly the files that the first
returns, if the first returns at all.
-/

namespace BlockMarkup

namespace Path

/-- The order of components. Names are ordered by their characters. -/
def Component.Before : Component → Component → Prop
  | .name a, .name b => a < b
  | c, d => c.rank < d.rank

/-- The order of paths: by their components, the first that differ decide. -/
def Before (p q : Path) : Prop := List.Lex Component.Before p.components q.components

/-- Names are compared by their characters, and a place stands before the places below it. -/
def namesLe : List String → List String → Bool
  | [], _ => true
  | _ :: _, [] => false
  | a :: as, b :: bs => if a = b then namesLe as bs else a < b

/-- Below one directory paths are ordered by their names. -/
theorem le_eq_namesLe
    {p q : Path}
    {directory : List Component}
    {as bs : List String}
    (hp : p.components = directory ++ as.map .name)
    (hq : q.components = directory ++ bs.map .name) :
    p.le q = namesLe as bs := by
  rw [le, hp, hq]
  clear hp hq
  induction directory with
  | nil =>
      simp only [List.nil_append]
      fun_induction namesLe as bs with
      | case1 bs => cases bs <;> rfl
      | case2 a as => rfl
      | case3 a as bs ih => simpa [componentsLe] using ih
      | case4 a as b bs hne => simp [componentsLe, hne, Component.lt]
  | cons c directory ih => rwa [List.cons_append, List.cons_append, componentsLe, if_pos rfl]

theorem dropComponents_append
    (start rest : List Component) :
    dropComponents start (start ++ rest) = some rest := by
  induction start with
  | nil => rfl
  | cons c start ih => rw [List.cons_append, dropComponents, if_pos rfl, ih]

/-- The extension of a path is that of the last of its names. -/
theorem extension_congr
    {p q : Path}
    {before : List Component}
    {names : List String}
    (hnames : names ≠ [])
    (hp : p.components = before ++ names.map .name)
    (hq : q.components = names.map .name) :
    p.extension = q.extension := by
  obtain ⟨front, last, rfl⟩ := List.eq_nil_or_concat' names |>.resolve_left hnames
  rw [List.map_append, List.map_singleton] at hp hq
  rw [← List.append_assoc] at hp
  rw [extension, extension, fileName_of_components hp, fileName_of_components hq]

end Path

namespace SourceFile

variable {d : Disk} {directory : Path} {place names : List String}
  {entries : List (String × FileTree)}

/-- Whether the place of a file below a searched directory is that of a source. -/
def isSourcePlace (names : List String) : Bool :=
  names.all (!isHidden ·) && isSource ⟨Text.join "/" names⟩

/-- The source at a place below a directory. -/
def ofPlace (directory : Path) (names : List String) : SourceFile :=
  ⟨pathBelow directory names, ⟨Text.join "/" names⟩⟩

/-- The sources among the files below a directory, sorted by their names. -/
def ofPlaces (directory : Path) (places : List (List String)) : List SourceFile :=
  ((places.filter isSourcePlace).mergeSort Path.namesLe).map (ofPlace directory)

/-- The components of a path below a directory are those of the directory and the names. -/
theorem components_pathBelow
    (hnames : ∀ name ∈ names, Path.IsName name)
    (directory : Path) :
    (pathBelow directory names).components = directory.components ++ names.map .name := by
  simp only [pathBelow]
  induction names generalizing directory with
  | nil => simp
  | cons name names ih =>
      rw [List.forall_mem_cons] at hnames
      rw [List.foldl_cons, ih hnames.2, Path.components_join hnames.1]
      simp

/-- A path below a directory is that of a source if no name on the way is hidden and the path has
the extension. -/
theorem isSourcePlace_iff
    {p : Path}
    {before : List Path.Component}
    (hne : names ≠ [])
    (hnames : ∀ name ∈ names, Path.IsName name)
    (hp : p.components = before ++ names.map .name) :
    isSourcePlace names = true ↔
      (∀ name ∈ names, isHidden name = false) ∧ p.extension = some sourceExtension := by
  have hextension := Path.extension_congr hne hp (Path.components_names hnames)
  simp [isSourcePlace, isSource, hextension]

/-- What lies below a directory is seen from there by its names. -/
theorem below?_pathBelow
    (hnames : ∀ name ∈ names, Path.IsName name) :
    below? directory (pathBelow directory names) = some (ofPlace directory names) := by
  have htexts : (names.map Path.Component.name).map Path.Component.text = names := by
    rw [List.map_map]
    exact List.map_id'' (fun _ => rfl) names
  rw [below?, Path.below?, components_pathBelow hnames, Path.dropComponents_append,
    Option.map_some, Option.map_some, htexts]
  rfl

/-- Sorting the paths that a walk has found is sorting the places of the files. -/
theorem filterMap_below?_mergeSort
    {places : List (List String)}
    (hplaces : ∀ names ∈ places, names ≠ [] ∧ ∀ name ∈ names, Path.IsName name) :
    (((places.filter (isShownSource directory)).map (pathBelow directory)).mergeSort
      Path.le).filterMap (below? directory) = ofPlaces directory places := by
  have hfilter : places.filter (isShownSource directory) = places.filter isSourcePlace := by
    refine List.filter_congr fun names hmem => Bool.eq_iff_iff.2 ?_
    obtain ⟨hne, hnames⟩ := hplaces names hmem
    rw [isSourcePlace_iff hne hnames (components_pathBelow hnames directory)]
    simp [isShownSource, isSource]
  have hisName : ∀ names ∈ places.filter isSourcePlace, ∀ name ∈ names, Path.IsName name :=
    fun names hmem => (hplaces names (List.mem_of_mem_filter hmem)).2
  have hsort : ((places.filter isSourcePlace).map (pathBelow directory)).mergeSort Path.le =
      ((places.filter isSourcePlace).mergeSort Path.namesLe).map (pathBelow directory) := by
    refine (List.map_mergeSort fun as has bs hbs => ?_).symm
    exact (Path.le_eq_namesLe (components_pathBelow (hisName as has) _)
      (components_pathBelow (hisName bs hbs) _)).symm
  rw [hfilter, hsort, ofPlaces, List.filterMap_map]
  have hall : ∀ names ∈ (places.filter isSourcePlace).mergeSort Path.namesLe,
      (below? directory ∘ pathBelow directory) names = some (ofPlace directory names) :=
    fun names hmem => below?_pathBelow (hisName names (List.mem_mergeSort.1 hmem))
  rw [List.filterMap_congr hall, List.filterMap_eq_map']

theorem mem_ofPlaces
    {places : List (List String)}
    {f : SourceFile} :
    f ∈ ofPlaces directory places ↔
      ∃ names ∈ places, isSourcePlace names = true ∧ f = ofPlace directory names := by
  simp only [ofPlaces, List.mem_map, List.mem_mergeSort, List.mem_filter]
  constructor
  · rintro ⟨names, ⟨hmem, hsource⟩, rfl⟩
    exact ⟨names, hmem, hsource, rfl⟩
  · rintro ⟨names, hmem, hsource, rfl⟩
    exact ⟨names, ⟨hmem, hsource⟩, rfl⟩

/-- What is found for one input. -/
def found
    (d : Disk)
    (input : Path) : Except Fault (List SourceFile) :=
  match d.open? input with
  | .error _ => .error (.inputNotFound input.text)
  | .ok (_, .file _) => .ok [⟨input, (input.fileName.map Path.mk).getD input⟩]
  | .ok (_, .directory entries) =>
    (searchEntries d input entries).map fun _ =>
      ofPlaces input (FileTree.directory entries).files

/-- Of a directory, the files are found that count as sources, unless the search fails. -/
theorem found_of_directory
    (hopen : d.open? directory = .ok (place, .directory entries)) :
    found d directory = (searchEntries d directory entries).map fun _ =>
      ofPlaces directory (FileTree.directory entries).files := by
  rw [found, hopen]

/-- Looking at one input finds what there is to find, and changes nothing. -/
theorem run_discoverOne
    (hroot : d.root.WellFormed)
    (input : Path) :
    (discoverOne input : DiskM _).run d = (found d input, d) := by
  rw [discoverOne, StateT.run_bind, Disk.run_kind?, found]
  rcases hopen : d.open? input with fault | ⟨place, f | entries⟩
  · rfl
  · rfl
  · obtain ⟨hplace, hat⟩ := Disk.open?_eq_ok hopen
    have hentries : (FileTree.directory entries).WellFormed := hroot.find? hat
    have hsize : 0 < input.text.utf8ByteSize := by
      refine Nat.pos_of_ne_zero fun hzero => (Disk.place_eq_ok hplace).1 ?_
      exact String.utf8ByteSize_eq_zero_iff.1 hzero
    have hwalk : (walk (FileStore.maxPath + 1) input : DiskM _).run d =
        (searchEntries d input entries, d) := run_walk (by omega) hentries hopen
    change StateT.run ((walk (FileStore.maxPath + 1) input : DiskM (Except Fault (List Path))) >>=
      fun walked => pure (walked.map fun paths =>
        (paths.mergeSort Path.le).filterMap (below? input))) d =
      ((searchEntries d input entries).map fun _ =>
        ofPlaces input (FileTree.directory entries).files, d)
    rw [StateT.run_bind, hwalk]
    cases hsearch : searchEntries d input entries with
    | error e => rfl
    | ok paths =>
        have hfiles : paths = ((FileTree.directory entries).files.filter
            (isShownSource input)).map (pathBelow input) :=
          searchTree_eq_ok (d := d) (by rw [searchTree, hopen]; exact hsearch)
        have hplaces : ∀ names ∈ (FileTree.directory entries).files,
            names ≠ [] ∧ ∀ name ∈ names, Path.IsName name := by
          intro names hmem
          obtain ⟨f, hfind⟩ := hentries.mem_files_iff.1 hmem
          exact hentries.names_of_file hfind
        change (Except.ok ((paths.mergeSort Path.le).filterMap (below? input)), d) = _
        rw [hfiles, filterMap_below?_mergeSort hplaces]
        rfl

/-- What an input that is found stands for: a file, or the sources below a directory. -/
theorem found_eq_ok
    {input : Path}
    {sources : List SourceFile}
    (hfound : found d input = .ok sources) :
    (∃ place f, d.open? input = .ok (place, .file f) ∧
        sources = [⟨input, (input.fileName.map Path.mk).getD input⟩]) ∨
      ∃ place entries, d.open? input = .ok (place, .directory entries) ∧
        sources = ofPlaces input (FileTree.directory entries).files := by
  rw [found] at hfound
  split at hfound
  · cases hfound
  · next place f hopen => exact .inl ⟨place, f, hopen, (Except.ok.inj hfound).symm⟩
  · next place entries hopen =>
      refine .inr ⟨place, entries, hopen, ?_⟩
      cases hsearch : searchEntries d input entries with
      | error e =>
          rw [hsearch] at hfound
          cases hfound
      | ok paths =>
          rw [hsearch] at hfound
          exact (Except.ok.inj hfound).symm

theorem eq_ofPlaces_of_found
    {input : Path}
    {sources : List SourceFile}
    (hopen : d.open? input = .ok (place, .directory entries))
    (hfound : found d input = .ok sources) :
    sources = ofPlaces input (FileTree.directory entries).files := by
  rcases found_eq_ok hfound with ⟨_, f, hfile, -⟩ | ⟨_, others, hdirectory, hsources⟩
  · cases hopen.symm.trans hfile
  · cases hopen.symm.trans hdirectory
    exact hsources

/-- What is found for a list of inputs is what is found for each of them, one after another. -/
theorem run_discover_cons
    (hroot : d.root.WellFormed)
    (input : Path)
    (inputs : List Path) :
    (discover (input :: inputs) : DiskM _).run d =
      match found d input with
      | .error fault => (.error fault, d)
      | .ok sources =>
        ((((discover inputs : DiskM _).run d).1).map (sources ++ ·),
          ((discover inputs : DiskM _).run d).2) := by
  rw [discover, StateT.run_bind, run_discoverOne hroot]
  cases found d input <;> rfl

theorem run_discover
    (hroot : d.root.WellFormed)
    (input : Path) :
    (discover [input] : DiskM _).run d = (found d input, d) := by
  rw [run_discover_cons hroot]
  cases found d input with
  | error fault => rfl
  | ok sources =>
      change (Except.ok (sources ++ []), d) = _
      rw [List.append_nil]

/-- Of several inputs, the sources are found one input after another. -/
theorem exists_map_found
    {inputs : List Path}
    {sources : List SourceFile}
    {d' : Disk}
    (hroot : d.root.WellFormed)
    (hsources : (discover inputs : DiskM _).run d = (.ok sources, d')) :
    ∃ lists : List (List SourceFile), inputs.map (found d) = lists.map .ok ∧
      sources = lists.flatten := by
  induction inputs generalizing sources with
  | nil =>
      cases hsources
      exact ⟨[], rfl, rfl⟩
  | cons input inputs ih =>
      rw [run_discover_cons hroot] at hsources
      cases hfound : found d input with
      | error fault =>
          rw [hfound] at hsources
          cases hsources
      | ok list =>
          rw [hfound, Prod.mk.injEq] at hsources
          cases hrun : ((discover inputs : DiskM _).run d).1 with
          | error fault =>
              rw [hrun] at hsources
              cases hsources.1
          | ok more =>
              rw [hrun] at hsources
              cases hsources.1
              obtain ⟨lists, hlists, rfl⟩ := ih (Prod.ext hrun hsources.2)
              exact ⟨list :: lists, by rw [List.map_cons, List.map_cons, hfound, hlists], rfl⟩

theorem exists_found_of_mem
    {inputs : List Path}
    {sources : List SourceFile}
    {d' : Disk}
    {f : SourceFile}
    (hroot : d.root.WellFormed)
    (hsources : (discover inputs : DiskM _).run d = (.ok sources, d'))
    (hf : f ∈ sources) :
    ∃ input list, found d input = .ok list ∧ f ∈ list := by
  obtain ⟨lists, hlists, rfl⟩ := exists_map_found hroot hsources
  obtain ⟨list, hlist, hmem⟩ := List.mem_flatten.1 hf
  obtain ⟨input, -, hfound⟩ := List.mem_map.1 (hlists ▸ List.mem_map_of_mem hlist)
  exact ⟨input, list, hfound, hmem⟩

/-- The sources of a directory are its files at the places of sources. -/
theorem mem_sources_iff
    (hentries : (FileTree.directory entries).WellFormed)
    {f : SourceFile} :
    f ∈ ofPlaces directory (FileTree.directory entries).files ↔
      ∃ names file, (FileTree.directory entries).find? names = some (.file file) ∧
        isSourcePlace names = true ∧ f = ofPlace directory names := by
  rw [mem_ofPlaces]
  constructor
  · rintro ⟨names, hnames, hsource, rfl⟩
    obtain ⟨file, hfile⟩ := hentries.mem_files_iff.1 hnames
    exact ⟨names, file, hfile, hsource, rfl⟩
  · rintro ⟨names, file, hfile, hsource, rfl⟩
    exact ⟨names, hentries.mem_files_iff.2 ⟨file, hfile⟩, hsource, rfl⟩

end SourceFile

namespace Change

variable {directory settingsPath path : Path} {names : List String}

end Change

namespace SourceFile

variable {d : Disk} {directory : Path} {place : List String}
  {entries : List (String × FileTree)}

theorem found_of_isOk
    (hopen : d.open? directory = .ok (place, .directory entries))
    (hsearch : (searchEntries d directory entries).isOk = true) :
    found d directory = .ok (ofPlaces directory (FileTree.directory entries).files) := by
  rw [found_of_directory hopen]
  cases hpaths : searchEntries d directory entries with
  | error e =>
      rw [hpaths] at hsearch
      cases hsearch
  | ok paths => rfl

section Slashed

variable {n : Nat}

end Slashed

end SourceFile

end BlockMarkup
