import BlockMarkup.Command.Run
import BlockMarkup.Proofs.Site.Discovery
import Mathlib.Tactic

/-!
# Cleaning a project

Cleaning removes the directory of the pages with everything in it. Whether sources are in that
directory is a question of places on the disk, and settings are only refused if the two directories
are written in the same way. So sources can be lost; here it is said when.
-/

namespace BlockMarkup

namespace SourceFile

variable {d : Disk} {directory : Path} {names : List String}

/-- A source lies where its names lead from the directory. -/
theorem destination_ofPlace
    (hnames : ∀ name ∈ names, Path.IsName name)
    (working : List String) :
    Disk.destination working (ofPlace directory names).path =
      Disk.destination working directory ++ names := by
  simp only [ofPlace, pathBelow]
  induction names generalizing directory with
  | nil => simp
  | cons name names ih =>
      rw [List.forall_mem_cons] at hnames
      rw [List.foldl_cons, ih hnames.2, Disk.destination_join_name hnames.1]
      simp

/-- Whether a directory has no source in it: it neither holds the place of the sources nor, if it
lies below that place, a file that counts as a source from there. -/
def FreeOfSources
    (source pages : List String)
    (kept : List (String × FileTree)) : Prop :=
  ¬ pages <+: source ∧
    ∀ below, pages = source ++ below → ∀ names file,
      (FileTree.directory kept).find? names = some (.file file) →
        isSourcePlace (below ++ names) = false

/-- What lies below a directory in another lies below the other. -/
theorem find?_append_of_at?
    {source below names : List String}
    {kept entries : List (String × FileTree)}
    (hsource : d.at? source = some (.directory entries))
    (hpages : d.at? (source ++ below) = some (.directory kept)) :
    (FileTree.directory entries).find? (below ++ names) =
      (FileTree.directory kept).find? names := by
  rw [Disk.at?] at hsource
  rw [Disk.at?, FileTree.find?_append, hsource, Option.bind_some] at hpages
  rw [FileTree.find?_append, hpages, Option.bind_some]

/-- Of the sources of a directory, none lies among the pages exactly if the pages have no source in
them. -/
theorem forall_not_prefix_iff_of_directory
    {pages : List String}
    {kept entries : List (String × FileTree)}
    (hroot : d.root.WellFormed)
    (hpages : d.at? pages = some (.directory kept))
    (hsource : d.at? (Disk.destination d.workingPlace directory) = some (.directory entries)) :
    (∀ f ∈ ofPlaces directory (FileTree.directory entries).files,
        ¬ pages <+: Disk.destination d.workingPlace f.path) ↔
      ofPlaces directory (FileTree.directory entries).files = [] ∨
        FreeOfSources (Disk.destination d.workingPlace directory) pages kept := by
  have hentries : (FileTree.directory entries).WellFormed := hroot.find? hsource
  have hplace {names : List String} {file : File}
      (hfind : (FileTree.directory entries).find? names = some (.file file)) :
      Disk.destination d.workingPlace (ofPlace directory names).path =
        Disk.destination d.workingPlace directory ++ names :=
    destination_ofPlace (hentries.isName_of_find? hfind) d.workingPlace
  generalize Disk.destination d.workingPlace directory = source at hsource hplace ⊢
  constructor
  · intro hout
    refine or_iff_not_imp_left.2 fun hne =>
      ⟨fun hprefix => ?_, fun below heq names file hfind => ?_⟩
    · obtain ⟨f, hf⟩ := List.exists_mem_of_ne_nil _ hne
      obtain ⟨names, file, hfind, -, rfl⟩ := (mem_sources_iff hentries).1 hf
      exact hout _ hf (hplace hfind ▸ hprefix.trans (List.prefix_append _ _))
    · subst heq
      rw [← find?_append_of_at? hsource hpages] at hfind
      by_contra hshown
      have hf : ofPlace directory (below ++ names) ∈
          ofPlaces directory (FileTree.directory entries).files :=
        (mem_sources_iff hentries).2 ⟨_, file, hfind, eq_true_of_ne_false hshown, rfl⟩
      refine hout _ hf ?_
      rw [hplace hfind, ← List.append_assoc]
      exact List.prefix_append _ _
  · rintro (hnil | ⟨habove, hbelow⟩) f hf
    · rw [hnil] at hf
      exact absurd hf List.not_mem_nil
    · obtain ⟨names, file, hfind, hshown, rfl⟩ := (mem_sources_iff hentries).1 hf
      rw [hplace hfind]
      intro hprefix
      obtain ⟨below, rfl⟩ :=
        (List.prefix_or_prefix_of_prefix hprefix (List.prefix_append source names)).resolve_left
          habove
      obtain ⟨rest, rfl⟩ := (List.prefix_append_right_inj source).1 hprefix
      rw [find?_append_of_at? hsource hpages] at hfind
      rw [hbelow below rfl rest file hfind] at hshown
      cases hshown

/-- Of the sources of an input none lies in a directory exactly if that has no source in it. -/
theorem forall_not_prefix_iff
    {pages : List String}
    {kept : List (String × FileTree)}
    {sources : List SourceFile}
    (hroot : d.root.WellFormed)
    (hpages : d.at? pages = some (.directory kept))
    (hfound : found d directory = .ok sources) :
    (∀ f ∈ sources, ¬ pages <+: Disk.destination d.workingPlace f.path) ↔
      sources = [] ∨ FreeOfSources (Disk.destination d.workingPlace directory) pages kept := by
  rcases found_eq_ok hfound with ⟨place, file, hopen, rfl⟩ | ⟨place, entries, hopen, rfl⟩
  · obtain ⟨hplace, hat⟩ := Disk.open?_eq_ok hopen
    rw [Disk.eq_destination hplace] at hat
    have hbelow : ¬ Disk.destination d.workingPlace directory <+: pages :=
      FileTree.not_prefix_of_file (FileTree.entryAt?_eq_file_iff.2 hat)
        (FileTree.entryAt?_eq_directory_iff.2 ⟨kept, hpages⟩)
    simp only [List.forall_mem_singleton, List.cons_ne_nil, false_or]
    refine (and_iff_left fun below hpages' => ?_).symm
    exact absurd (hpages' ▸ List.prefix_append _ _) hbelow
  · obtain ⟨hplace, hat⟩ := Disk.open?_eq_ok hopen
    rw [Disk.eq_destination hplace] at hat
    exact forall_not_prefix_iff_of_directory hroot hpages hat

end SourceFile

namespace Disk

variable {d : Disk} {place : List String} {kept : List (String × FileTree)}

theorem named?_root (hroot : d.at? [] = some (.directory kept)) :
    d.named? (pathOf []) = .ok ([], .directory kept) := by
  have hplace : d.place (pathOf []) = .ok [] := rfl
  rw [named?, reach, hplace]
  simp only [hroot]

/-- A directory that is removed by the path of its place is gone with everything in it. Only the
root stays, as an empty directory, and that is a fault. -/
theorem removeDirectory_pathOf
    (hroot : d.root.WellFormed)
    (hplace : d.at? place = some (.directory kept)) :
    (place ≠ [] ∧ ∃ fault, d.removeDirectory (pathOf place) = (.error fault, d)) ∨
      d.removeDirectory (pathOf place) =
        (if place = [] then .error .busy else .ok (), { d with root := d.root.remove place }) := by
  rw [removeDirectory]
  rcases hnamed : d.named? (pathOf place) with fault | ⟨goal, t⟩
  · refine .inl ⟨?_, fault, rfl⟩
    rintro rfl
    rw [named?_root hplace] at hnamed
    cases hnamed
  · obtain ⟨hgoal, hat⟩ := reach_eq_ok hnamed
    have heq := eq_destination hgoal
    rw [destination_pathOf (hroot.isName_of_find? hplace)] at heq
    rw [heq, hplace] at hat
    cases hat
    rw [heq]
    exact .inr rfl

/-- What lies at each place once a directory is removed. -/
theorem entryAt?_remove_directory
    (hplace : d.at? place = some (.directory kept))
    (other : List String) :
    (d.root.remove place).entryAt? other =
      if other ≠ [] ∧ place <+: other then none else d.entryAt? other := by
  by_cases hnil : place = []
  · subst hnil
    cases other with
    | nil =>
        rw [if_neg (by simp)]
        exact (FileTree.entryAt?_eq_directory_iff.2 ⟨kept, hplace⟩).symm
    | cons name names =>
        rw [if_pos ⟨List.cons_ne_nil _ _, List.nil_prefix⟩, FileTree.remove]
        rfl
  · rw [FileTree.entryAt?_remove hnil]
    refine if_congr (iff_and_self.2 ?_) rfl rfl
    rintro hprefix rfl
    exact hnil (List.prefix_nil.1 hprefix)

end Disk

namespace Command

variable {d : Disk} {project : Project} {place : List String} {t : FileTree}

theorem run_onFiles_bind
    {α β : Type}
    {d d' : Disk}
    {action : DiskM α}
    {a : α}
    (haction : action.run d = (a, d'))
    (next : α → CommandM DiskM β)
    (console : Console) :
    (((onFiles action >>= next).run).run console).run d =
      (((next a).run).run console).run d' := by
  have hrun : (((onFiles action >>= next).run).run console).run d =
      ((((next (action.run d).1).run).run console).run (action.run d).2) := rfl
  rw [hrun, haction]

/-- Cleaning removes the directory of the pages, and fails if that does. -/
theorem run_removeOutput
    (hopen : d.open? project.outputDir = .ok (place, t))
    (console : Console) :
    ∃ console', (((removeOutput project false : CommandM DiskM Unit).run).run console).run d =
      (((d.removeDirectory (Disk.pathOf place)).1.mapError .ofFault, console'),
        (d.removeDirectory (Disk.pathOf place)).2) := by
  have hexists : (FileStore.exists? project.outputDir : DiskM Bool).run d = (true, d) := by
    rw [FileStore.exists?, StateT.run_bind, Disk.run_kind?, hopen]
    rfl
  have hcanonical : (FileStore.canonical project.outputDir : DiskM _).run d =
      (.ok (Disk.pathOf place), d) := by
    change ((d.open? project.outputDir).map _, d) = _
    rw [hopen]
    rfl
  have hremove : (FileStore.removeDirectory (Disk.pathOf place) : DiskM _).run d =
      d.removeDirectory (Disk.pathOf place) := rfl
  rw [removeOutput, run_onFiles_bind hexists, if_pos rfl, run_onFiles_bind hcanonical,
    if_neg Bool.false_ne_true, require, bind_assoc]
  rcases hremoved : d.removeDirectory (Disk.pathOf place) with ⟨fault | _, d'⟩
  · exact ⟨_, run_onFiles_bind (hremove.trans hremoved) _ console⟩
  · exact ⟨_, run_onFiles_bind (hremove.trans hremoved) _ console⟩

/-- What lies at each place after cleaning. -/
theorem entryAt?_removeOutput
    {kept : List (String × FileTree)}
    (hroot : d.root.WellFormed)
    (hopen : d.open? project.outputDir = .ok (place, .directory kept))
    (console : Console) :
    ∃ result console' d',
      (((removeOutput project false : CommandM DiskM Unit).run).run console).run d =
          ((result, console'), d') ∧
        (place ≠ [] ∧ (∃ e, result = .error e) ∧ d' = d ∨
          (result = .ok () ↔ place ≠ []) ∧ ∀ other, d'.entryAt? other =
            if other ≠ [] ∧ place <+: other then none else d.entryAt? other) := by
  obtain ⟨console', hrun⟩ := run_removeOutput hopen console
  refine ⟨_, _, _, hrun, ?_⟩
  have hplace := (Disk.open?_eq_ok hopen).2
  rcases Disk.removeDirectory_pathOf hroot hplace with ⟨hne, fault, hremoved⟩ | hremoved
  · rw [hremoved]
    exact .inl ⟨hne, ⟨_, rfl⟩, rfl⟩
  · rw [hremoved]
    refine .inr ⟨?_, Disk.entryAt?_remove_directory hplace⟩
    by_cases hnil : place = []
    · simp [hnil, Except.mapError]
    · simp [hnil, Except.mapError]

/-- Cleaning removes the directory of the pages with everything in it, or fails and changes nothing.
Where the pages go to the root, everything in it is removed, and cleaning fails all the same. The
sources of a project are not in that directory exactly if there are none, or it neither holds the
place of the sources nor has sources in it itself. -/
theorem clean_keeps_sources_iff
    {settings : Settings}
    {base : Path}
    {pages : List String}
    {kept : List (String × FileTree)}
    {sources : List SourceFile}
    (hroot : d.root.WellFormed)
    (hpages : d.open? (Project.ofSettings settings base).outputDir = .ok (pages, .directory kept))
    (hsources : ((Project.ofSettings settings base).sources : DiskM _).run d = (.ok sources, d))
    (console : Console) :
    (∃ result console' d',
      (((removeOutput (.ofSettings settings base) false : CommandM DiskM Unit).run).run
          console).run d = ((result, console'), d') ∧
        (pages ≠ [] ∧ (∃ e, result = .error e) ∧ d' = d ∨
          (result = .ok () ↔ pages ≠ []) ∧ ∀ place, d'.entryAt? place =
            if place ≠ [] ∧ pages <+: place then none else d.entryAt? place)) ∧
      ((∀ f ∈ sources, ¬ pages <+: Disk.destination d.workingPlace f.path) ↔
        sources = [] ∨ SourceFile.FreeOfSources
          (Disk.destination d.workingPlace (Project.ofSettings settings base).sourceDir)
          pages kept) := by
  have hfound : SourceFile.found d (Project.ofSettings settings base).sourceDir = .ok sources := by
    have hrun := SourceFile.run_discover hroot (Project.ofSettings settings base).sourceDir
    exact congrArg Prod.fst (hrun.symm.trans hsources)
  exact ⟨entryAt?_removeOutput hroot hpages console,
    SourceFile.forall_not_prefix_iff hroot (Disk.open?_eq_ok hpages).2 hfound⟩

/-- A project whose pages go to a hidden directory among the sources. -/
def hiddenPages : Settings := { Settings.standard with source := ⟨"."⟩, output := ⟨".site"⟩ }

def oldPages : List (String × FileTree) :=
  [("index.html", .file (.regular .empty)), ("old.htmlx", .file (.regular .empty))]

def hiddenPagesDisk : Disk :=
  ⟨.directory [("index.htmlx", .file (.regular .empty)), (".site", .directory oldPages)], []⟩

theorem clean_keeps_sources_iff_hiddenPages :
    hiddenPages.check = .ok hiddenPages ∧ hiddenPagesDisk.root.WellFormed ∧
      ((Project.ofSettings hiddenPages ⟨"/"⟩).sources : DiskM _).run hiddenPagesDisk =
        (.ok [⟨⟨"/./index.htmlx"⟩, ⟨"index.htmlx"⟩⟩], hiddenPagesDisk) ∧
      ¬ [".site"] <+: Disk.destination [] ⟨"/./index.htmlx"⟩ := by
  have hroot : hiddenPagesDisk.root.WellFormed := by
    simp only [hiddenPagesDisk, oldPages, FileTree.wellFormed_directory_iff, List.forall_mem_cons,
      List.not_mem_nil, false_implies, implies_true, FileTree.wellFormed_file]
    decide
  have hpages : hiddenPagesDisk.open? (Project.ofSettings hiddenPages ⟨"/"⟩).outputDir =
      .ok ([".site"], .directory oldPages) := by
    rfl
  have hsources : ((Project.ofSettings hiddenPages ⟨"/"⟩).sources : DiskM _).run hiddenPagesDisk =
      (.ok [⟨⟨"/./index.htmlx"⟩, ⟨"index.htmlx"⟩⟩], hiddenPagesDisk) := by
    have hfound :
        SourceFile.found hiddenPagesDisk (Project.ofSettings hiddenPages ⟨"/"⟩).sourceDir =
          .ok [⟨⟨"/./index.htmlx"⟩, ⟨"index.htmlx"⟩⟩] := by
      decide +kernel
    rw [← hfound]
    exact SourceFile.run_discover hroot _
  have hfree : SourceFile.FreeOfSources [] [".site"] oldPages := by
    refine ⟨by decide, fun below hbelow names file _ => ?_⟩
    rw [← show [".site"] = below from hbelow]
    exact Bool.and_eq_false_imp.2 fun hshown => absurd hshown (by simp [SourceFile.isHidden])
  have hkept := (clean_keeps_sources_iff hroot hpages hsources ⟨"", ""⟩).2.2 (.inr hfree)
  exact ⟨by decide +kernel, hroot, hsources, hkept _ List.mem_cons_self⟩

/-- Settings that name one directory in two ways. -/
def doubleSettings : Settings := { Settings.standard with source := ⟨"site"⟩, output := ⟨"./site"⟩ }

def doubleDisk : Disk :=
  ⟨.directory [
    ("htmlx.yaml", .file (.regular "build:\n  source: site\n  output: ./site\n".toUTF8)),
    ("site", .directory [("index.htmlx", .file (.regular "div".toUTF8))])], []⟩

/-- Settings that name one directory in two ways are not refused, and cleaning removes the
source. -/
theorem clean_removes_source :
    doubleSettings.check = .ok doubleSettings ∧
      ((Settings.load [] none : DiskM _).run doubleDisk).1 =
        .ok (doubleSettings, ⟨"/htmlx.yaml"⟩) ∧
      (((Project.ofSettings doubleSettings ⟨"/"⟩).sources : DiskM _).run doubleDisk).1 =
        .ok [⟨⟨"/site/index.htmlx"⟩, ⟨"index.htmlx"⟩⟩] ∧
      ((execute [] ["clean"] : DiskM _).run doubleDisk).1 = ⟨0, ⟨"Deleted /site\n", ""⟩⟩ ∧
      ((execute [] ["clean"] : DiskM _).run doubleDisk).2.root.files = [["htmlx.yaml"]] := by
  decide +kernel

end Command

end BlockMarkup
