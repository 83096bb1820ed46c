import BlockMarkup.Proofs.Site.Interleaving

/-!
# Outputs that overlap

A source that was found below a directory keeps its place there, and a file that was asked for by
its path counts as lying at the top. So sources from different inputs can come to the same outputs:
they do exactly if they have the same stem in the same directory, and then all outputs are the same.
Different sources of one input never overlap.
-/

namespace BlockMarkup

section FileName

variable {d : Disk} {p : Path} {place : List String} {file : File}

theorem Path.exists_last_piece
    (htext : p.text ≠ "")
    (hslash : Disk.endsInSlash p = false) :
    ∃ before last, p.pieces = before ++ [last] ∧ last ≠ [] := by
  obtain ⟨before, last, hpieces⟩ := List.eq_nil_or_concat' p.pieces |>.resolve_left
    (Text.splitAt_ne_nil _ _)
  refine ⟨before, last, hpieces, ?_⟩
  rintro rfl
  -- An empty piece at the end stands behind a slash.
  have hflat := Text.flatMap_splitAt '/' p.text.toList
  rw [show Text.splitAt (· = '/') p.text.toList = before ++ [[]] from hpieces, List.flatMap_append,
    List.flatMap_singleton, List.nil_append, List.append_cancel_right_eq] at hflat
  rcases List.eq_nil_or_concat' before with rfl | ⟨front, piece, rfl⟩
  · exact htext (by simpa using hflat.symm)
  · refine absurd hslash (Bool.not_eq_false _ ▸ decide_eq_true ?_)
    rw [← hflat, List.flatMap_append, List.flatMap_singleton, ← List.append_assoc,
      List.getLast?_concat]

theorem Disk.endsInSlash_of_open?_file
    (hopen : d.open? p = .ok (place, .file file)) :
    endsInSlash p = false := by
  rw [open?, reach] at hopen
  split at hopen
  · cases hopen
  · split at hopen
    · cases hopen
    · split_ifs at hopen with hlink hslash
      exact eq_false_of_ne_true hslash
    · cases hopen
      simp_all

/-- The path of a file ends in its name. -/
theorem Disk.exists_fileName
    (hopen : d.open? p = .ok (place, .file file)) :
    ∃ name, p.fileName = some name := by
  obtain ⟨hplace, hfile⟩ := open?_eq_ok hopen
  obtain ⟨htext, hfollow⟩ := place_eq_ok hplace
  obtain ⟨before, last, hpieces, hlast⟩ :=
    Path.exists_last_piece htext (endsInSlash_of_open?_file hopen)
  have hnames : names p =
      (before.filter (!·.isEmpty)).map String.ofList ++ [String.ofList last] := by
    rw [names, hpieces, List.filter_append, List.map_append]
    simp [hlast]
  have hspelled := eq_spelled_of_follow hfollow
  rw [hnames] at hfollow
  rw [hnames, spelled_append] at hspelled
  have hdirectory := entryAt?_of_follow hfollow (List.cons_ne_nil _ _)
  have hplace : d.entryAt? place ≠ some .directory := by
    rw [entryAt?, FileTree.entryAt?_eq_file_iff.2 hfile]
    simp
  -- With a dot or two at its end the path leads to a directory.
  refine ⟨String.ofList last, Path.fileName_of_pieces ⟨by simpa using hlast, ?_, ?_, ?_⟩
    (by rw [hpieces, String.toList_ofList])⟩
  · rw [String.toList_ofList]
    exact Path.slash_not_mem (p := p) (by simp [hpieces])
  · intro hcurrent
    rw [hcurrent, spelled, if_pos rfl, spelled] at hspelled
    exact hplace (hspelled ▸ hdirectory)
  · intro hparent
    rw [hparent, spelled, if_neg (by decide), if_pos rfl, spelled] at hspelled
    generalize spelled _ _ = above at hspelled hdirectory
    by_cases htop : above = []
    · rw [htop, List.dropLast_nil, ← htop] at hspelled
      exact hplace (hspelled ▸ hdirectory)
    · exact hplace (hspelled ▸ FileTree.entryAt?_dropLast hdirectory htop)

end FileName

namespace Path

variable {front : List String} {name : String}

theorem cutName_fst
    (chars : List Char) :
    (cutName chars).1 <+: chars ∧ (chars ≠ [] → (cutName chars).1 ≠ []) := by
  rw [cutName]
  split
  · exact ⟨List.prefix_rfl, id⟩
  · next after before hsplit =>
      obtain ⟨hchars, -⟩ := Text.splitFirst_eq_some_iff.1 hsplit
      split
      · exact ⟨List.prefix_rfl, id⟩
      · next hbefore =>
          refine ⟨⟨'.' :: after.reverse, ?_⟩, fun _ => by simpa using hbefore⟩
          rw [← List.reverse_inj, hchars]
          simp

theorem stem_names
    (hnames : ∀ n ∈ front ++ [name], IsName n) :
    (mk (Text.join "/" (front ++ [name]))).stem = some (String.ofList (cutName name.toList).1) := by
  rw [stem, fileName_names hnames, Option.map_some]

theorem dropLast_components_names
    (hnames : ∀ n ∈ front ++ [name], IsName n) :
    (mk (Text.join "/" (front ++ [name]))).components.dropLast = front.map .name := by
  rw [components_names hnames, List.map_append, List.map_singleton, List.dropLast_concat]

end Path

namespace SourceFile

variable {d : Disk} {input : Path} {list : List SourceFile} {f : SourceFile}

/-- The place of a source, seen from its input, is made of names. -/
theorem exists_names_of_found
    (hroot : d.root.WellFormed)
    (hlist : found d input = .ok list)
    (hf : f ∈ list) :
    ∃ front name, (∀ n ∈ front ++ [name], Path.IsName n) ∧
      f.relative = ⟨Text.join "/" (front ++ [name])⟩ := by
  rcases found_eq_ok hlist with ⟨place, file, hopen, rfl⟩ | ⟨place, entries, hopen, rfl⟩
  · obtain ⟨name, hname⟩ := Disk.exists_fileName hopen
    rw [List.mem_singleton.1 hf]
    refine ⟨[], name, ?_, ?_⟩
    · simpa using (Path.mem_pieces_of_fileName hname).2
    · simp [hname, Text.join]
  · have hentries : (FileTree.directory entries).WellFormed :=
      hroot.find? (Disk.open?_eq_ok hopen).2
    obtain ⟨front, stem, -, hnames, hrelative⟩ := exists_stem_of_mem hentries hf
    exact ⟨front, _, hnames, hrelative⟩

end SourceFile

namespace Outputs

variable {front front' : List String} {stem stem' s t : String} {outputDir : Path}

theorem isName_append_extension
    (hslash : '/' ∉ stem.toList) :
    Path.IsName (stem ++ ".htmlx") := by
  have hlength : 2 < (stem ++ ".htmlx").toList.length := by
    rw [String.toList_append, List.length_append]
    exact Nat.lt_of_lt_of_le (by decide) (Nat.le_add_left _ _)
  refine ⟨List.ne_nil_of_length_pos (by omega), ?_, ?_, ?_⟩
  · rw [String.toList_append, List.mem_append, not_or]
    exact ⟨hslash, by decide⟩
  · intro heq
    simp [heq] at hlength
  · intro heq
    simp [heq] at hlength

/-- Whether an output of one source is an output of another, or lies at the same place. -/
def Overlap (working : List String) (o o' : Outputs) : Prop :=
  ∃ p ∈ o.all, ∃ q ∈ o'.all,
    p.same q = true ∨ Disk.destination working p = Disk.destination working q

theorem Overlap.refl
    (working : List String)
    (o : Outputs) :
    Overlap working o o :=
  ⟨o.html, List.mem_cons_self, o.html, List.mem_cons_self, .inl (decide_eq_true rfl)⟩

/-- Outputs that are the same path, or lie at the same place, belong to one directory and stem. -/
theorem eq_of_path
    {working : List String}
    (hsource : ∀ n ∈ front ++ [stem ++ ".htmlx"], Path.IsName n)
    (hsource' : ∀ n ∈ front' ++ [stem' ++ ".htmlx"], Path.IsName n)
    (hs : IsSuffix s)
    (ht : IsSuffix t)
    (hpath : (path outputDir front stem s).same (path outputDir front' stem' t) = true ∨
      Disk.destination working (path outputDir front stem s) =
        Disk.destination working (path outputDir front' stem' t)) :
    front = front' ∧ stem = stem' := by
  have hnames : front ++ [stem ++ s] = front' ++ [stem' ++ t] := by
    rcases hpath with hsame | hplace
    · have hcomponents := of_decide_eq_true hsame
      rw [path, path,
        Path.components_join_names (List.concat_ne_nil _ _) (isName_of_isSuffix hsource hs),
        Path.components_join_names (List.concat_ne_nil _ _) (isName_of_isSuffix hsource' ht)]
        at hcomponents
      exact List.map_injective_iff.2 (fun a b h => Path.Component.name.inj h)
        (List.append_cancel_left hcomponents)
    · rw [destination_path hsource hs, destination_path hsource' ht] at hplace
      exact List.append_cancel_left hplace
  obtain ⟨hfront, hlast⟩ := List.append_inj' hnames rfl
  exact ⟨hfront, (append_inj hs ht (List.cons.inj hlast).1).1⟩

/-- The outputs of a source differ by their suffixes only. -/
theorem exists_suffix_of_mem_all
    (hsource : ∀ n ∈ front ++ [stem ++ ".htmlx"], Path.IsName n)
    (hstem : stem ≠ "")
    {p : Path}
    (hp : p ∈ (ofSource ⟨Text.join "/" (front ++ [stem ++ ".htmlx"])⟩ outputDir).all) :
    ∃ s, IsSuffix s ∧ p = path outputDir front stem s := by
  rw [all_ofSource hsource hstem] at hp
  obtain ⟨s, hs, rfl⟩ := List.mem_map.1 hp
  exact ⟨s, isSuffix_of_mem hs, rfl⟩

end Outputs

namespace SourceFile

variable {d : Disk} {input : Path} {list : List SourceFile} {f g : SourceFile}
  {front front' : List String} {stem stem' : String}

/-- Whether two sources have the same stem in the same directory, seen from their inputs. -/
def SameStem (f g : SourceFile) : Prop :=
  f.relative.components.dropLast = g.relative.components.dropLast ∧
    f.relative.stem = g.relative.stem

/-- A source with a stem in a directory, seen from its input. It has the outputs of the file there
that has the extension of sources, whatever its own extension is. -/
structure LiesAt
    (f : SourceFile)
    (front : List String)
    (stem : String) : Prop where
  nonempty : stem ≠ ""
  names : ∀ n ∈ front ++ [stem ++ ".htmlx"], Path.IsName n
  directory_eq : f.relative.components.dropLast = front.map .name
  stem_eq : f.relative.stem = some stem
  outputs_eq : ∀ outputDir, Outputs.ofSource f.relative outputDir =
    Outputs.ofSource ⟨Text.join "/" (front ++ [stem ++ ".htmlx"])⟩ outputDir

theorem liesAt_of_names
    {name : String}
    (hnames : ∀ n ∈ front ++ [name], Path.IsName n)
    (hrelative : f.relative = ⟨Text.join "/" (front ++ [name])⟩) :
    f.LiesAt front (String.ofList (Path.cutName name.toList).1) := by
  obtain ⟨hfront, hname⟩ := List.forall_mem_append.1 hnames
  rw [List.forall_mem_singleton] at hname
  obtain ⟨hinitial, hne⟩ := Path.cutName_fst name.toList
  have hstem : String.ofList (Path.cutName name.toList).1 ≠ "" := by
    simpa using hne hname.nonempty
  have hsource : Path.IsName (String.ofList (Path.cutName name.toList).1 ++ ".htmlx") := by
    refine Outputs.isName_append_extension ?_
    rw [String.toList_ofList]
    exact fun hmem => hname.slash (hinitial.subset hmem)
  have hslash : ∀ n ∈ front, '/' ∉ n.toList := fun n hn => (hfront n hn).slash
  refine ⟨hstem, List.forall_mem_append.2 ⟨hfront, List.forall_mem_singleton.2 hsource⟩, ?_,
    hrelative ▸ Path.stem_names hnames, fun outputDir => ?_⟩
  · rw [hrelative, Path.dropLast_components_names hnames]
  · rw [hrelative, Outputs.ofSource, Outputs.ofSource,
      Path.withoutExtension_names hslash hname Prod.mk.eta.symm,
      Path.withoutExtension_names hslash hsource (Path.cutName_source hstem),
      String.ofList_toList]

theorem liesAt_ofPlace
    (directory : Path)
    (hstem : stem ≠ "")
    (hnames : ∀ n ∈ front ++ [stem ++ ".htmlx"], Path.IsName n) :
    (ofPlace directory (front ++ [stem ++ ".htmlx"])).LiesAt front stem := by
  have hplace := liesAt_of_names (f := ofPlace directory _) hnames rfl
  rwa [Path.cutName_source hstem, String.ofList_toList] at hplace

/-- Every source that is found lies somewhere, by its relative path. -/
theorem exists_liesAt
    (hroot : d.root.WellFormed)
    (hlist : found d input = .ok list)
    (hf : f ∈ list) :
    ∃ front stem, f.LiesAt front stem := by
  obtain ⟨front, name, hnames, hrelative⟩ := exists_names_of_found hroot hlist hf
  exact ⟨front, _, liesAt_of_names hnames hrelative⟩

/-- Two sources have one stem exactly if they lie in one place. -/
theorem LiesAt.sameStem_iff
    (hf : f.LiesAt front stem)
    (hg : g.LiesAt front' stem') :
    f.SameStem g ↔ front = front' ∧ stem = stem' := by
  rw [SameStem, hf.directory_eq, hg.directory_eq, hf.stem_eq, hg.stem_eq, Option.some.injEq,
    (List.map_injective_iff.2 fun a b h => Path.Component.name.inj h).eq_iff]

/-- Sources with one stem share all outputs. -/
theorem LiesAt.outputs_congr
    (hf : f.LiesAt front stem)
    (hg : g.LiesAt front' stem')
    (hsame : f.SameStem g)
    (outputDir : Path) :
    Outputs.ofSource f.relative outputDir = Outputs.ofSource g.relative outputDir := by
  obtain ⟨rfl, rfl⟩ := (hf.sameStem_iff hg).1 hsame
  rw [hf.outputs_eq, hg.outputs_eq]

/-- Sources share an output exactly if they have one stem. -/
theorem LiesAt.overlap_iff
    (hf : f.LiesAt front stem)
    (hg : g.LiesAt front' stem')
    (outputDir : Path)
    (working : List String) :
    Outputs.Overlap working (Outputs.ofSource f.relative outputDir)
      (Outputs.ofSource g.relative outputDir) ↔ f.SameStem g := by
  constructor
  · rintro ⟨p, hp, q, hq, hpath⟩
    rw [hf.outputs_eq] at hp
    rw [hg.outputs_eq] at hq
    obtain ⟨s, hs, rfl⟩ := Outputs.exists_suffix_of_mem_all hf.names hf.nonempty hp
    obtain ⟨t, ht, rfl⟩ := Outputs.exists_suffix_of_mem_all hg.names hg.nonempty hq
    exact (hf.sameStem_iff hg).2 (Outputs.eq_of_path hf.names hg.names hs ht hpath)
  · intro hsame
    rw [hf.outputs_congr hg hsame]
    exact Outputs.Overlap.refl _ _

/-- Sources of one input that have the same stem in the same directory are one source. -/
theorem eq_of_sameStem
    (hroot : d.root.WellFormed)
    (hlist : found d input = .ok list)
    (hf : f ∈ list)
    (hg : g ∈ list)
    (hsame : f.SameStem g) :
    f = g := by
  rcases found_eq_ok hlist with ⟨place, file, hopen, rfl⟩ | ⟨place, entries, hopen, rfl⟩
  · rw [List.mem_singleton.1 hf, List.mem_singleton.1 hg]
  · have hentries : (FileTree.directory entries).WellFormed :=
      hroot.find? (Disk.open?_eq_ok hopen).2
    obtain ⟨front, stem, hstem, hnames, rfl⟩ := exists_ofPlace_of_mem hentries hf
    obtain ⟨front', stem', hstem', hnames', rfl⟩ := exists_ofPlace_of_mem hentries hg
    -- All sources of a directory have one extension, so the stem tells the name.
    obtain ⟨rfl, rfl⟩ := ((liesAt_ofPlace input hstem hnames).sameStem_iff
      (liesAt_ofPlace input hstem' hnames')).1 hsame
    rfl

/-- The sources of a list of inputs overlap exactly if they have the same stem in the same
directory, each seen from its own input, and then they have all outputs in common. Different sources
of one input never overlap. -/
theorem overlap_iff_sameStem
    {inputs : List Path}
    {sources : List SourceFile}
    {d' : Disk}
    (hroot : d.root.WellFormed)
    (hsources : (discover inputs : DiskM _).run d = (.ok sources, d')) :
    (∀ f ∈ sources, ∀ g ∈ sources, ∀ outputDir working,
      (Outputs.Overlap working (Outputs.ofSource f.relative outputDir)
        (Outputs.ofSource g.relative outputDir) ↔ f.SameStem g) ∧
      (f.SameStem g →
        Outputs.ofSource f.relative outputDir = Outputs.ofSource g.relative outputDir)) ∧
    ∃ lists : List (List SourceFile),
      inputs.map (fun input => (discoverOne input : DiskM _).run d) =
        lists.map (fun list => (.ok list, d)) ∧
      sources = lists.flatten ∧
      ∀ list ∈ lists, ∀ f ∈ list, ∀ g ∈ list, f.path.same g.path = false →
        ∀ outputDir working, ¬ Outputs.Overlap working (Outputs.ofSource f.relative outputDir)
          (Outputs.ofSource g.relative outputDir) := by
  have hplace {f : SourceFile} (hf : f ∈ sources) : ∃ front stem, f.LiesAt front stem := by
    obtain ⟨input, list, hfound, hmem⟩ := exists_found_of_mem hroot hsources hf
    exact exists_liesAt hroot hfound hmem
  obtain ⟨lists, hlists, rfl⟩ := exists_map_found hroot hsources
  refine ⟨fun f hf g hg outputDir working => ?_, lists, ?_, rfl,
    fun list hlist f hf g hg hpath outputDir working hoverlap => ?_⟩
  · obtain ⟨front, stem, hf⟩ := hplace hf
    obtain ⟨front', stem', hg⟩ := hplace hg
    exact ⟨hf.overlap_iff hg outputDir working, fun hsame => hf.outputs_congr hg hsame outputDir⟩
  · have hruns := congrArg (List.map (·, d)) hlists
    rw [List.map_map, List.map_map] at hruns
    simp only [run_discoverOne hroot]
    exact hruns
  · obtain ⟨input, -, hfound⟩ := List.mem_map.1 (hlists ▸ List.mem_map_of_mem hlist)
    obtain ⟨front, stem, hf'⟩ := exists_liesAt hroot hfound hf
    obtain ⟨front', stem', hg'⟩ := exists_liesAt hroot hfound hg
    obtain rfl := eq_of_sameStem hroot hfound hf hg ((hf'.overlap_iff hg' outputDir working).1
      hoverlap)
    exact absurd (decide_eq_true rfl) (ne_true_of_eq_false hpath)

def twinDisk : Disk :=
  ⟨.directory [
    ("a", .directory [("x.htmlx", .file (.regular .empty)), ("x.md", .file (.regular .empty))]),
    ("b", .directory [
      ("posts", .directory [("x.htmlx", .file (.regular .empty))]),
      ("x.htmlx", .file (.regular .empty))])], []⟩

theorem overlap_iff_sameStem_twinDisk :
    twinDisk.root.WellFormed ∧
      (discover [⟨"a/x.md"⟩, ⟨"b"⟩] : DiskM _).run twinDisk =
        (.ok [⟨⟨"a/x.md"⟩, ⟨"x.md"⟩⟩, ⟨⟨"b/posts/x.htmlx"⟩, ⟨"posts/x.htmlx"⟩⟩,
          ⟨⟨"b/x.htmlx"⟩, ⟨"x.htmlx"⟩⟩], twinDisk) ∧
      ∀ outputDir working,
        Outputs.Overlap working (Outputs.ofSource ⟨"x.md"⟩ outputDir)
          (Outputs.ofSource ⟨"x.htmlx"⟩ outputDir) ∧
        ¬ Outputs.Overlap working (Outputs.ofSource ⟨"x.md"⟩ outputDir)
          (Outputs.ofSource ⟨"posts/x.htmlx"⟩ outputDir) := by
  have hroot : twinDisk.root.WellFormed := by
    simp only [twinDisk, FileTree.wellFormed_directory_iff, List.forall_mem_cons,
      List.not_mem_nil, false_implies, implies_true, FileTree.wellFormed_file]
    decide
  have hrun : (discover [⟨"a/x.md"⟩, ⟨"b"⟩] : DiskM _).run twinDisk =
      (.ok [⟨⟨"a/x.md"⟩, ⟨"x.md"⟩⟩, ⟨⟨"b/posts/x.htmlx"⟩, ⟨"posts/x.htmlx"⟩⟩,
        ⟨⟨"b/x.htmlx"⟩, ⟨"x.htmlx"⟩⟩], twinDisk) := by
    have hfile : found twinDisk ⟨"a/x.md"⟩ = .ok [⟨⟨"a/x.md"⟩, ⟨"x.md"⟩⟩] := by
      rfl
    have hdirectory : found twinDisk ⟨"b"⟩ =
        .ok (ofPlaces ⟨"b"⟩ [["posts", "x.htmlx"], ["x.htmlx"]]) := by
      rfl
    rw [run_discover_cons hroot, hfile, run_discover hroot, hdirectory, ofPlaces,
      List.filter_eq_self.2 (by decide +kernel), List.mergeSort_of_pairwise (by decide +kernel)]
    rfl
  obtain ⟨hoverlap, -⟩ := overlap_iff_sameStem hroot hrun
  refine ⟨hroot, hrun, fun outputDir working => ⟨?_, ?_⟩⟩
  · exact (hoverlap _ (.head _) _ (.tail _ (.tail _ (.head _))) outputDir working).1.2 ⟨rfl, rfl⟩
  · rw [(hoverlap _ (.head _) _ (.tail _ (.head _)) outputDir working).1]
    rintro ⟨hdirectory, -⟩
    revert hdirectory
    decide +kernel

/-- Files of the same name that are asked for by their paths are written to the same page, whatever
directories they are in. -/
theorem discover_shares_outputs :
    ∃ sources, (discover [⟨"a/x.htmlx"⟩, ⟨"b/x.htmlx"⟩] : DiskM _).run twinDisk =
        (.ok sources, twinDisk) ∧
      ∃ f ∈ sources, ∃ g ∈ sources, f.path.same g.path = false ∧
        ∀ outputDir working, Outputs.Overlap working (Outputs.ofSource f.relative outputDir)
          (Outputs.ofSource g.relative outputDir) := by
  refine ⟨[⟨⟨"a/x.htmlx"⟩, ⟨"x.htmlx"⟩⟩, ⟨⟨"b/x.htmlx"⟩, ⟨"x.htmlx"⟩⟩], rfl, _, .head _, _,
    .tail _ (.head _), by decide +kernel, fun outputDir working => ?_⟩
  exact Outputs.Overlap.refl _ _

end SourceFile

end BlockMarkup
