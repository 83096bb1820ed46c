import BlockMarkup.Proofs.Site.Jobs
import BlockMarkup.Proofs.Site.OutputPlaces
import Mathlib.Tactic

/-!
# The order in which documents are written

The documents of a site are written by programs that take turns. Documents that come from different
sources of one directory are written to different places, so the order of the turns does not matter.
-/

namespace BlockMarkup

namespace Outputs

/-- The paths of all outputs. -/
def all (o : Outputs) : List Path := [o.html, o.sourceMap, o.css, o.js]

theorem all_ofSource
    {front : List String}
    {stem : String}
    (hsource : ∀ name ∈ front ++ [stem ++ ".htmlx"], Path.IsName name)
    (hstem : stem ≠ "")
    (outputDir : Path) :
    (ofSource ⟨Text.join "/" (front ++ [stem ++ ".htmlx"])⟩ outputDir).all =
      suffixes.map (path outputDir front stem) := by
  rw [ofSource_eq hsource hstem]
  rfl

section OnDisk

open Program

theorem onDisk_removeAll
    (paths : List Path) :
    (removeAll paths : Program _).onDisk = removeAll paths := by
  induction paths with
  | nil => rfl
  | cons p rest ih => exact onDisk_bind (onDisk_call _) fun _ => ih

/-- Staging, call by call, is staging on a disk. -/
theorem onDisk_stageAll
    (staged : List Path)
    (files : List (Path × String)) :
    (stageAll staged files : Program _).onDisk = stageAll staged files := by
  induction files generalizing staged with
  | nil => rfl
  | cons f rest ih =>
      refine onDisk_bind (onDisk_call _) fun answer => ?_
      cases answer with
      | error e => exact onDisk_bind (onDisk_removeAll staged) fun _ => rfl
      | ok _ => exact ih _

theorem onDisk_moveAll
    (moved paths : List Path) :
    (moveAll moved paths : Program _).onDisk = moveAll moved paths := by
  induction paths generalizing moved with
  | nil => rfl
  | cons p rest ih =>
      refine onDisk_bind (onDisk_call _) fun answer => ?_
      cases answer with
      | error e =>
          exact onDisk_bind (onDisk_removeAll moved) fun _ =>
            onDisk_bind (onDisk_removeAll _) fun _ => rfl
      | ok _ => exact ih _

theorem onDisk_writeAll
    (files : List (Path × String)) :
    (writeAll files : Program _).onDisk = writeAll files := by
  refine onDisk_bind (onDisk_stageAll [] files) fun answer => ?_
  cases answer with
  | error e => rfl
  | ok _ => exact onDisk_moveAll [] _

end OnDisk

end Outputs

/-- Writing a bundle, call by call, is writing it on a disk. -/
theorem Stage.onDisk_writeBundle
    (target : Target)
    (relative : Path)
    (bundle : Bundle) :
    (Stage.writeBundle target relative bundle : Program _).onDisk =
      Stage.writeBundle target relative bundle := by
  have hparent (p : Path) : (Stage.makeParent p : Program _).onDisk = Stage.makeParent p := by
    rw [Stage.makeParent, Stage.makeParent]
    cases p.parent with
    | none => rfl
    | some q => exact Program.onDisk_makeDirectoriesUpTo _ q
  refine Program.onDisk_bind (hparent _) fun answer => ?_
  cases answer with
  | error e => rfl
  | ok _ => exact Outputs.onDisk_writeAll _

namespace Target

/-- The programs that write documents, on a disk that they share. -/
def writing (target : Target) (documents : List (SourceFile × Bundle)) (d : Disk) :
    Sharing (Except Fault Unit) :=
  ⟨documents.map fun doc => Stage.writeBundle target doc.1.relative doc.2, d⟩

/-- Writing documents one after the other is one of the orders. -/
theorem exists_order
    (target : Target)
    (documents : List (SourceFile × Bundle))
    (d : Disk)
    {results : List (Except Fault Unit)}
    {d' : Disk}
    (hwritten : (documents.mapM fun doc => Stage.writeBundle target doc.1.relative doc.2 :
      DiskM _).run d = (results, d')) :
    ∃ order, (target.writing documents d).run order = ⟨results.map .done, d'⟩ := by
  have horder := Sharing.exists_order_of_mapM
    (fun doc : SourceFile × Bundle => Stage.onDisk_writeBundle target doc.1.relative doc.2)
    documents [] d
  rw [hwritten] at horder
  exact horder

/-- The job of writing a document. -/
def job (target : Target) (doc : SourceFile × Bundle) : Job :=
  ⟨(Outputs.ofSource doc.1.relative target.outputDir).html,
    Stage.files target doc.1.relative doc.2⟩

variable {target : Target} {documents : List (SourceFile × Bundle)} {doc : SourceFile × Bundle}
  {d : Disk} {front : List String} {stem : String}

theorem writing_eq
    (target : Target)
    (documents : List (SourceFile × Bundle))
    (d : Disk) :
    target.writing documents d = ⟨(documents.map target.job).map Job.program, d⟩ := by
  rw [List.map_map]
  rfl

theorem fst_mem_all
    {f : Path × String}
    (hf : f ∈ (target.job doc).files) :
    f.1 ∈ (Outputs.ofSource doc.1.relative target.outputDir).all :=
  List.mem_map_of_mem (f := Prod.fst) hf

section Stem

variable (hstem : stem ≠ "")
  (hsource : ∀ name ∈ front ++ [stem ++ ".htmlx"], Path.IsName name)
  (hrelative : doc.1.relative = ⟨Text.join "/" (front ++ [stem ++ ".htmlx"])⟩)

include hstem hsource hrelative

theorem all_ofSource :
    (Outputs.ofSource doc.1.relative target.outputDir).all =
      Outputs.suffixes.map (Outputs.path target.outputDir front stem) := by
  rw [hrelative, Outputs.all_ofSource hsource hstem]

theorem exists_suffix
    {f : Path × String}
    (hf : f ∈ (target.job doc).files) :
    ∃ suffix ∈ Outputs.suffixes, f.1 = Outputs.path target.outputDir front stem suffix := by
  have hmem := fst_mem_all hf
  rw [all_ofSource hstem hsource hrelative, List.mem_map] at hmem
  obtain ⟨suffix, hsuffix, hpath⟩ := hmem
  exact ⟨suffix, hsuffix, hpath.symm⟩

/-- The places that a document is written to. -/
theorem places_job
    (working : List String) :
    (target.job doc).files.flatMap (Job.places working) =
      (Outputs.suffixes.flatMap fun suffix => [suffix, suffix ++ ".tmp"]).map fun suffix =>
        Disk.destination working target.outputDir ++ (front ++ [stem ++ suffix]) := by
  have hpaths : (target.job doc).files.flatMap (Job.places working) =
      (Outputs.ofSource doc.1.relative target.outputDir).all.flatMap fun p =>
        [Disk.destination working p, Disk.destination working (Outputs.temporary p)] := rfl
  rw [hpaths, all_ofSource hstem hsource hrelative, List.flatMap_map, List.map_flatMap]
  refine List.flatMap_congr fun suffix hsuffix => ?_
  rw [Outputs.temporary_path hsource hsuffix,
    Outputs.destination_path hsource (Outputs.isSuffix_of_mem hsuffix),
    Outputs.destination_path hsource (Outputs.isSuffix_temporary hsuffix)]
  rfl

/-- A job owns places with its own stem only. -/
theorem exists_isSuffix_of_owns
    {working place : List String}
    (hplace : (target.job doc).Owns working place) :
    ∃ suffix, Outputs.IsSuffix suffix ∧
      place = Disk.destination working target.outputDir ++ (front ++ [stem ++ suffix]) := by
  have hmem : place ∈ (target.job doc).files.flatMap (Job.places working) :=
    List.mem_flatMap.2 hplace
  rw [places_job hstem hsource hrelative, List.mem_map] at hmem
  obtain ⟨suffix, hsuffix, rfl⟩ := hmem
  refine ⟨suffix, ?_, rfl⟩
  obtain ⟨finished, hfinished, hpair⟩ := List.mem_flatMap.1 hsuffix
  rcases List.mem_pair.1 hpair with rfl | rfl
  · exact Outputs.isSuffix_of_mem hfinished
  · exact Outputs.isSuffix_temporary hfinished

/-- The outputs of a document have places of their own in the directory that is made for them. -/
theorem fits_job
    {working : List String}
    {way : List String → Prop}
    (hway : ∀ place, Disk.OnWay working (target.job doc).path place → way place) :
    (target.job doc).Fits working way := by
  refine ⟨?_, fun f hf place hplace => ?_, hway⟩
  · rw [places_job hstem hsource hrelative]
    refine List.Nodup.map (fun s t hst => ?_) (by decide +kernel)
    have hlast := List.append_cancel_left (List.append_cancel_left hst)
    rw [List.cons.injEq, ← String.toList_inj, String.toList_append, String.toList_append] at hlast
    exact String.toList_inj.1 (List.append_cancel_left hlast.1)
  · obtain ⟨suffix, hsuffix, hpath⟩ := exists_suffix hstem hsource hrelative hf
    have hhtml : (target.job doc).path = Outputs.path target.outputDir front stem ".html" := by
      rw [job, hrelative, Outputs.ofSource_eq hsource hstem]
    rw [hhtml, Outputs.onWay_path hsource (by decide)] at hplace
    rw [hpath, Outputs.temporary_path hsource hsuffix]
    exact (Outputs.onWay_path hsource (Outputs.isSuffix_temporary hsuffix) _ _).2 hplace

end Stem

/-- Documents from different sources of a directory can be written side by side. -/
theorem fit_jobs
    {input : Path}
    {entries : List (String × FileTree)}
    (hentries : (FileTree.directory entries).WellFormed)
    (hdocuments : ∀ doc ∈ documents,
      doc.1 ∈ SourceFile.ofPlaces input (FileTree.directory entries).files)
    (hdistinct : (documents.map (·.1.relative)).Nodup)
    (target : Target)
    (working : List String) :
    Sharing.Fit working (Sharing.ways working (documents.map target.job))
      (documents.map target.job) := by
  refine ⟨fun j hj => ?_, ?_⟩
  · obtain ⟨doc, hdoc, rfl⟩ := List.mem_map.1 hj
    obtain ⟨front, stem, hstem, hsource, hrelative⟩ :=
      SourceFile.exists_stem_of_mem hentries (hdocuments doc hdoc)
    exact fits_job hstem hsource hrelative fun place hplace => ⟨_, hj, hplace⟩
  · rw [List.Nodup, List.pairwise_map] at hdistinct
    rw [List.pairwise_map]
    refine hdistinct.imp_of_mem fun {doc other} hdoc hother hne place hplace hplace' => hne ?_
    obtain ⟨front, stem, hstem, hsource, hrelative⟩ :=
      SourceFile.exists_stem_of_mem hentries (hdocuments doc hdoc)
    obtain ⟨front', stem', hstem', hsource', hrelative'⟩ :=
      SourceFile.exists_stem_of_mem hentries (hdocuments other hother)
    obtain ⟨suffix, hsuffix, rfl⟩ := exists_isSuffix_of_owns hstem hsource hrelative hplace
    obtain ⟨suffix', hsuffix', heq⟩ := exists_isSuffix_of_owns hstem' hsource' hrelative' hplace'
    obtain ⟨hfront, hlast⟩ := List.append_inj' (List.append_cancel_left heq) rfl
    obtain ⟨hstems, -⟩ := Outputs.append_inj hsuffix hsuffix' (List.cons.inj hlast).1
    rw [hrelative, hrelative', hfront, hstems]

/-- Whether the outputs of a document hold what was made for it, and no temporary file is left. -/
structure Written (target : Target) (doc : SourceFile × Bundle) (working : List String) (d : Disk) :
    Prop where
  html : d.entryAt?
      (Disk.destination working (Outputs.ofSource doc.1.relative target.outputDir).html) =
    some (.file (.regular
      (if target.liveReload then Page.injectLiveReload doc.2.html else doc.2.html).toUTF8))
  sourceMap : d.entryAt?
      (Disk.destination working (Outputs.ofSource doc.1.relative target.outputDir).sourceMap) =
    some (.file (.regular doc.2.sourceMap.toJson.toUTF8))
  css : d.entryAt?
      (Disk.destination working (Outputs.ofSource doc.1.relative target.outputDir).css) =
    some (.file (.regular doc.2.css.toUTF8))
  js : d.entryAt?
      (Disk.destination working (Outputs.ofSource doc.1.relative target.outputDir).js) =
    some (.file (.regular doc.2.js.toUTF8))
  temporary : ∀ p ∈ (Outputs.ofSource doc.1.relative target.outputDir).all, ∀ file,
    d.entryAt? (Disk.destination working (Outputs.temporary p)) ≠ some (.file file)

/-- A document is written once all its files are in place. -/
theorem written_of_moved
    {working : List String}
    {way : List String → Prop}
    (hmoved : ∀ f ∈ (target.job doc).files, (target.job doc).Moved working way d f) :
    target.Written doc working d := by
  have hfiles : (target.job doc).files.map (·.1) =
      (Outputs.ofSource doc.1.relative target.outputDir).all := rfl
  have hhtml := hmoved _ (List.Mem.head _)
  have hmap := hmoved _ (.tail _ (.head _))
  have hcss := hmoved _ (.tail _ (.tail _ (.head _)))
  have hjs := hmoved _ (.tail _ (.tail _ (.tail _ (.head _))))
  refine ⟨hhtml.place, hmap.place, hcss.place, hjs.place, fun p hp file hfile => ?_⟩
  rw [← hfiles, List.mem_map] at hp
  obtain ⟨f, hf, rfl⟩ := hp
  rcases (hmoved f hf).temporary with hnone | ⟨-, hdirectory⟩
  · rw [hnone] at hfile
    cases hfile
  · rw [hdirectory] at hfile
    cases hfile

/-- Documents from different sources of a directory can be written in any order, also side by side.
If all are written, the outputs of each hold its own page, map, style sheet and script, no temporary
file is left, and other files are as before. Nothing tells which order it was, and documents that
are written one after the other leave the same. -/
theorem writing_order_irrelevant
    {searched : Disk}
    {input : Path}
    {place : List String}
    {entries : List (String × FileTree)}
    {sources : List SourceFile}
    {first second : List Nat}
    (hroot : searched.root.WellFormed)
    (hinput : searched.open? input = .ok (place, .directory entries))
    (hsources : (SourceFile.discover [input] : DiskM _).run searched = (.ok sources, searched))
    (hdocuments : ∀ doc ∈ documents, doc.1 ∈ sources)
    (hdistinct : (documents.map (·.1.relative)).Nodup)
    (target : Target)
    (d : Disk)
    (hfirst : ((target.writing documents d).run first).Succeeded)
    (hsecond : ((target.writing documents d).run second).Succeeded) :
    (∀ place, ((target.writing documents d).run first).disk.entryAt? place =
      ((target.writing documents d).run second).disk.entryAt? place) ∧
    (∀ results d', (documents.mapM fun doc => Stage.writeBundle target doc.1.relative doc.2 :
        DiskM _).run d = (results, d') → (∀ r ∈ results, r = .ok ()) →
      ∀ place, ((target.writing documents d).run first).disk.entryAt? place =
        d'.entryAt? place) ∧
    (∀ doc ∈ documents,
      target.Written doc d.workingPlace ((target.writing documents d).run first).disk) ∧
    ∀ place, (∀ doc ∈ documents, ∀ p ∈ (Outputs.ofSource doc.1.relative target.outputDir).all,
        place ≠ Disk.destination d.workingPlace p ∧
          place ≠ Disk.destination d.workingPlace (Outputs.temporary p)) →
      ∀ file,
        ((target.writing documents d).run first).disk.entryAt? place = some (.file file) ↔
          d.entryAt? place = some (.file file) := by
  have hentries : (FileTree.directory entries).WellFormed :=
    hroot.find? (Disk.open?_eq_ok hinput).2
  have hfound : sources = SourceFile.ofPlaces input (FileTree.directory entries).files := by
    rw [SourceFile.run_discover hroot] at hsources
    exact SourceFile.eq_ofPlaces_of_found hinput (congrArg Prod.fst hsources)
  rw [hfound] at hdocuments
  have hfit := fit_jobs hentries hdocuments hdistinct target d.workingPlace
  have hfinished {order : List Nat} (horder : ((target.writing documents d).run order).Succeeded) :
      Sharing.Finished (Sharing.ways d.workingPlace (documents.map target.job))
        (documents.map target.job) d ((target.writing documents d).run order).disk := by
    rw [writing_eq] at horder ⊢
    exact Sharing.finished hfit horder
  have hfiles : ∀ j ∈ documents.map target.job, j.files ≠ [] := by
    intro j hj
    obtain ⟨doc, -, rfl⟩ := List.mem_map.1 hj
    exact List.cons_ne_nil _ _
  refine ⟨(hfinished hfirst).entryAt?_eq hfiles (hfinished hsecond), ?_, fun doc hdoc => ?_,
    fun place hplace file => ?_⟩
  · intro results d' hwritten hresults
    obtain ⟨order, horder⟩ := target.exists_order documents d hwritten
    have hsucceeded : ((target.writing documents d).run order).Succeeded := by
      rw [horder]
      intro p hp
      obtain ⟨r, hr, rfl⟩ := List.mem_map.1 hp
      rw [hresults r hr]
    have hequal := (hfinished hfirst).entryAt?_eq hfiles (hfinished hsucceeded)
    rwa [horder] at hequal
  · exact written_of_moved ((hfinished hfirst).moved _ (List.mem_map_of_mem hdoc))
  · have howns : ¬ ∃ j ∈ documents.map target.job, j.Owns d.workingPlace place := by
      rintro ⟨j, hj, f, hf, hmem⟩
      obtain ⟨doc, hdoc, rfl⟩ := List.mem_map.1 hj
      obtain ⟨hown, htemporary⟩ := hplace doc hdoc f.1 (fst_mem_all hf)
      rcases List.mem_pair.1 hmem with heq | heq
      · exact hown heq
      · exact htemporary heq
    rcases (hfinished hfirst).entryAt?_of_not_owns howns with heq | ⟨-, hnone, hdirectory⟩
    · rw [heq]
    · rw [hnone, hdirectory]
      exact iff_of_false (by simp) (by simp)

/-- A source and one in a directory that has the name of the other's page while it is written. -/
def closeSite : List (String × FileTree) :=
  [("a.htmlx", .file (.regular .empty)),
    ("a.html.tmp", .directory [("b.htmlx", .file (.regular .empty))])]

def closeDisk : Disk := ⟨.directory [("site", .directory closeSite)], []⟩

def closeDocuments : List (SourceFile × Bundle) :=
  [(⟨⟨"/site/a.htmlx"⟩, ⟨"a.htmlx"⟩⟩, ⟨"page", ⟨1, "", "", []⟩, "style", "script", []⟩),
    (⟨⟨"/site/a.html.tmp/b.htmlx"⟩, ⟨"a.html.tmp/b.htmlx"⟩⟩, ⟨"", ⟨1, "", "", []⟩, "", "", []⟩)]

/-- The documents are written one after the other. -/
def oneByOne : List Nat := List.replicate 9 0 ++ List.replicate 10 1

/-- The documents are written side by side once the first page is in its place. -/
def sideBySide : List Nat := List.replicate 6 0 ++ (List.replicate 11 [1, 0]).flatten

theorem writing_order_irrelevant_closeDocuments :
    ((writing ⟨⟨"/out"⟩, .standard, false⟩ closeDocuments closeDisk).run oneByOne).Succeeded ∧
      ((writing ⟨⟨"/out"⟩, .standard, false⟩ closeDocuments closeDisk).run sideBySide).Succeeded ∧
      ∀ place,
        ((writing ⟨⟨"/out"⟩, .standard, false⟩ closeDocuments closeDisk).run
            oneByOne).disk.entryAt? place =
          ((writing ⟨⟨"/out"⟩, .standard, false⟩ closeDocuments closeDisk).run
            sideBySide).disk.entryAt? place := by
  have hroot : closeDisk.root.WellFormed := by
    simp only [closeDisk, closeSite, FileTree.wellFormed_directory_iff, List.forall_mem_cons,
      List.not_mem_nil, false_implies, implies_true, FileTree.wellFormed_file]
    decide
  have hinput : closeDisk.open? ⟨"/site"⟩ = .ok (["site"], .directory closeSite) := rfl
  have hsources : (SourceFile.discover [⟨"/site"⟩] : DiskM _).run closeDisk =
      (.ok (SourceFile.ofPlaces ⟨"/site"⟩ (FileTree.directory closeSite).files), closeDisk) := by
    rw [SourceFile.run_discover hroot, SourceFile.found_of_isOk hinput (by decide +kernel)]
  have hplaces : ∀ doc ∈ closeDocuments, ∃ names ∈ (FileTree.directory closeSite).files,
      SourceFile.isSourcePlace names = true ∧ doc.1 = SourceFile.ofPlace ⟨"/site"⟩ names := by
    decide +kernel
  have hdistinct : (closeDocuments.map (·.1.relative)).Nodup := by
    decide
  have hfirst : ((writing ⟨⟨"/out"⟩, .standard, false⟩ closeDocuments closeDisk).run
      oneByOne).Succeeded := by
    decide +kernel
  have hsecond : ((writing ⟨⟨"/out"⟩, .standard, false⟩ closeDocuments closeDisk).run
      sideBySide).Succeeded := by
    decide +kernel
  exact ⟨hfirst, hsecond, (writing_order_irrelevant hroot hinput hsources
    (fun doc hdoc => SourceFile.mem_ofPlaces.2 (hplaces doc hdoc)) hdistinct _ _ hfirst hsecond).1⟩

end Target

end BlockMarkup
