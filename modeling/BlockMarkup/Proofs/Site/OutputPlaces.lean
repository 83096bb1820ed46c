import BlockMarkup.Proofs.Site.Discovery
import BlockMarkup.Site.Pipeline
import Mathlib.Tactic

/-!
# Where the outputs of sources go

The outputs of a source, and the files they are first written to, lie in one directory and are told
apart by what stands behind the name of the source. None of these endings is the end of another, so
that outputs of different sources never have the same place, whatever dots are in their names.
-/

namespace BlockMarkup

theorem Text.join_concat
    (separator last suffix : String)
    (front : List String) :
    join separator (front ++ [last]) ++ suffix = join separator (front ++ [last ++ suffix]) := by
  induction front with
  | nil => rfl
  | cons first front ih =>
      have hcons (s : String) : join separator (first :: (front ++ [s])) =
          first ++ separator ++ join separator (front ++ [s]) :=
        join.eq_3 separator first _ (List.concat_ne_nil s front)
      rw [List.cons_append, List.cons_append, hcons, hcons, String.append_assoc, ih]

namespace Path

variable {p q : Path}

theorem append_join
    {suffix : String}
    (hq : q.isAbsolute = false)
    (hsuffix : (q.append suffix).isAbsolute = false) :
    (p.join q).append suffix = p.join (q.append suffix) := by
  rw [join, join, hq, hsuffix]
  simp only [Bool.false_eq_true, if_false]
  split
  · simp [append, String.append_assoc]
  · simp [append, String.append_assoc]

/-- A name is cut at its last dot, unless it starts there. -/
theorem cutName_eq_some_iff
    {name stem ending : List Char} :
    cutName name = (stem, some ending) ↔
      name = stem ++ '.' :: ending ∧ stem ≠ [] ∧ '.' ∉ ending := by
  constructor
  · intro hcut
    rw [cutName] at hcut
    split at hcut
    · cases hcut
    · next after before hsplit =>
        obtain ⟨hname, hdot⟩ := Text.splitFirst_eq_some_iff.1 hsplit
        split at hcut
        · cases hcut
        · next hbefore =>
            cases hcut
            refine ⟨?_, by simpa using hbefore, by simpa using hdot⟩
            rw [← List.reverse_inj, hname]
            simp
  · rintro ⟨rfl, hstem, hdot⟩
    have hsplit : Text.splitFirst '.' (stem ++ '.' :: ending).reverse =
        some (ending.reverse, stem.reverse) := by
      rw [List.reverse_append, List.reverse_cons, List.append_assoc, List.singleton_append]
      exact Text.splitFirst_append (by simpa using hdot) _
    rw [cutName, hsplit]
    simp [hstem]

theorem cutName_source
    {stem : String}
    (hstem : stem ≠ "") :
    cutName (stem ++ ".htmlx").toList = (stem.toList, some "htmlx".toList) := by
  refine cutName_eq_some_iff.2 ⟨?_, by simpa using hstem, by decide⟩
  rw [String.toList_append]
  rfl

/-- A path of names loses the extension of the last one. -/
theorem withoutExtension_names
    {front : List String}
    {last : String}
    {stem : List Char}
    {ending : Option (List Char)}
    (hfront : ∀ name ∈ front, '/' ∉ name.toList)
    (hlast : IsName last)
    (hcut : cutName last.toList = (stem, ending)) :
    (mk (Text.join "/" (front ++ [last]))).withoutExtension =
      mk (Text.join "/" (front ++ [String.ofList stem])) := by
  have hpieces := pieces_names (List.concat_ne_nil last front)
    (List.forall_mem_append.2 ⟨hfront, by simpa using hlast.slash⟩)
  have hcomponent := component?_of_isName hlast
  have hidle : isIdle last.toList = false := by
    by_contra hidle
    simp [component?, hidle] at hcomponent
  have hparent : last.toList ≠ ['.', '.'] := fun h => hlast.ne_parent (String.toList_inj.1 h)
  rw [withoutExtension, hpieces, List.map_append, List.reverse_append]
  simp [hidle, hparent, hcut, ofPieces]

/-- A source has a stem in front of its extension. -/
theorem exists_stem_of_extension
    {front : List String}
    {last : String}
    (hnames : ∀ name ∈ front ++ [last], IsName name)
    (hextension : (mk (Text.join "/" (front ++ [last]))).extension = some "htmlx") :
    ∃ stem, stem ≠ "" ∧ last = stem ++ ".htmlx" := by
  rw [extension, fileName_names hnames, Option.bind_some, Option.map_eq_some_iff] at hextension
  obtain ⟨ending, hending, hhtmlx⟩ := hextension
  obtain ⟨stem, hcut⟩ : ∃ stem, cutName last.toList = (stem, some ending) :=
    ⟨_, Prod.ext_iff.2 ⟨rfl, hending⟩⟩
  obtain ⟨hlast, hstem, -⟩ := cutName_eq_some_iff.1 hcut
  have hending' : ending = "htmlx".toList := by
    rw [← String.toList_inj, String.toList_ofList] at hhtmlx
    exact hhtmlx
  refine ⟨String.ofList stem, by simpa using hstem, ?_⟩
  rw [← String.toList_inj, String.toList_append, String.toList_ofList, hlast, hending']
  rfl

end Path

namespace SourceFile

/-- The name of a source has something in front of its extension. -/
theorem exists_stem
    {names : List String}
    (hne : names ≠ [])
    (hnames : ∀ name ∈ names, Path.IsName name)
    (hsource : isSourcePlace names = true) :
    ∃ front stem, stem ≠ "" ∧ names = front ++ [stem ++ ".htmlx"] := by
  obtain ⟨front, last, rfl⟩ := List.eq_nil_or_concat' names |>.resolve_left hne
  have hcomponents : (Path.mk (Text.join "/" (front ++ [last]))).components =
      [] ++ (front ++ [last]).map .name := Path.components_names hnames
  have hextension := ((isSourcePlace_iff hne hnames hcomponents).1 hsource).2
  obtain ⟨stem, hstem, rfl⟩ := Path.exists_stem_of_extension hnames hextension
  exact ⟨front, stem, hstem, rfl⟩

theorem exists_ofPlace_of_mem
    {directory : Path}
    {entries : List (String × FileTree)}
    {f : SourceFile}
    (hentries : (FileTree.directory entries).WellFormed)
    (hf : f ∈ ofPlaces directory (FileTree.directory entries).files) :
    ∃ front stem, stem ≠ "" ∧ (∀ name ∈ front ++ [stem ++ ".htmlx"], Path.IsName name) ∧
      f = ofPlace directory (front ++ [stem ++ ".htmlx"]) := by
  obtain ⟨names, contents, hfind, hsource, rfl⟩ := (mem_sources_iff hentries).1 hf
  have hne : names ≠ [] := by
    rintro rfl
    simp at hfind
  have hnames := hentries.isName_of_find? hfind
  obtain ⟨front, stem, hstem, rfl⟩ := exists_stem hne hnames hsource
  exact ⟨front, stem, hstem, hnames, rfl⟩

/-- Every source below a directory has a stem, and its relative path is made of names. -/
theorem exists_stem_of_mem
    {directory : Path}
    {entries : List (String × FileTree)}
    {f : SourceFile}
    (hentries : (FileTree.directory entries).WellFormed)
    (hf : f ∈ ofPlaces directory (FileTree.directory entries).files) :
    ∃ front stem, stem ≠ "" ∧ (∀ name ∈ front ++ [stem ++ ".htmlx"], Path.IsName name) ∧
      f.relative = ⟨Text.join "/" (front ++ [stem ++ ".htmlx"])⟩ := by
  obtain ⟨front, stem, hstem, hnames, rfl⟩ := exists_ofPlace_of_mem hentries hf
  exact ⟨front, stem, hstem, hnames, rfl⟩

end SourceFile

namespace Outputs

/-- What stands behind the names of outputs. -/
def suffixes : List String := [".html", ".html.map", ".css", ".js"]

/-- The path of an output of the source with a stem in a directory of sources. -/
def path (outputDir : Path) (front : List String) (stem suffix : String) : Path :=
  outputDir.join ⟨Text.join "/" (front ++ [stem ++ suffix])⟩

/-- Whether a text can stand behind the name of an output, finished or not. -/
def IsSuffix (suffix : String) : Prop :=
  suffix ∈ suffixes ++ suffixes.map (· ++ ".tmp")

instance (suffix : String) : Decidable (IsSuffix suffix) :=
  inferInstanceAs (Decidable (suffix ∈ _))

theorem isSuffix_of_mem
    {suffix : String}
    (hsuffix : suffix ∈ suffixes) :
    IsSuffix suffix :=
  List.mem_append_left _ hsuffix

theorem isSuffix_temporary
    {suffix : String}
    (hsuffix : suffix ∈ suffixes) :
    IsSuffix (suffix ++ ".tmp") :=
  List.mem_append_right _ (List.mem_map_of_mem hsuffix)

/-- No suffix of an output ends in another. -/
theorem eq_of_isSuffix
    {s t : String}
    (hs : IsSuffix s)
    (ht : IsSuffix t)
    (hst : s.toList <:+ t.toList) :
    s = t := by
  have hall : ∀ s ∈ suffixes ++ suffixes.map (· ++ ".tmp"),
      ∀ t ∈ suffixes ++ suffixes.map (· ++ ".tmp"), s.toList <:+ t.toList → s = t := by
    decide +kernel
  exact hall s hs t ht hst

/-- From the name of an output both the stem and what stands behind it can be read off. -/
theorem append_inj
    {stem stem' s t : String}
    (hs : IsSuffix s)
    (ht : IsSuffix t)
    (heq : stem ++ s = stem' ++ t) :
    stem = stem' ∧ s = t := by
  rw [← String.toList_inj, String.toList_append, String.toList_append] at heq
  have hst : s = t := by
    rcases List.suffix_or_suffix_of_suffix (List.suffix_append stem.toList s.toList)
      (heq ▸ List.suffix_append stem'.toList t.toList) with h | h
    · exact eq_of_isSuffix hs ht h
    · exact (eq_of_isSuffix ht hs h).symm
  subst hst
  exact ⟨String.toList_inj.1 (List.append_cancel_right heq), rfl⟩

section Stem

variable {front : List String} {stem suffix : String}

/-- Outputs of a source have names, as the source has. -/
theorem isName_of_isSuffix
    (hsource : ∀ name ∈ front ++ [stem ++ ".htmlx"], Path.IsName name)
    (hsuffix : IsSuffix suffix) :
    ∀ name ∈ front ++ [stem ++ suffix], Path.IsName name := by
  rw [List.forall_mem_append, List.forall_mem_singleton] at hsource ⊢
  refine ⟨hsource.1, ?_⟩
  have hall : ∀ s ∈ suffixes ++ suffixes.map (· ++ ".tmp"),
      '/' ∉ s.toList ∧ 2 < s.toList.length := by
    decide +kernel
  obtain ⟨hslash, hlength⟩ := hall suffix hsuffix
  have hlength' : 2 < (stem ++ suffix).toList.length := by
    rw [String.toList_append, List.length_append]
    omega
  refine ⟨List.ne_nil_of_length_pos (by omega), ?_, ?_, ?_⟩
  · have hstem := hsource.2.slash
    rw [String.toList_append, List.mem_append] at hstem ⊢
    exact fun h => h.elim (fun h => hstem (.inl h)) hslash
  · rintro heq
    simp [heq] at hlength'
  · rintro heq
    simp [heq] at hlength'

theorem isAbsolute_of_isSuffix
    (hsource : ∀ name ∈ front ++ [stem ++ ".htmlx"], Path.IsName name)
    (hsuffix : IsSuffix suffix) :
    (Path.mk (Text.join "/" (front ++ [stem ++ suffix]))).isAbsolute = false := by
  have hnames := isName_of_isSuffix hsource hsuffix
  exact Path.isAbsolute_names (fun name hname => (hnames name hname).nonempty)
    fun name hname => (hnames name hname).slash

/-- The outputs of a source: its stem with the four suffixes. -/
theorem ofSource_eq
    (hsource : ∀ name ∈ front ++ [stem ++ ".htmlx"], Path.IsName name)
    (hstem : stem ≠ "")
    (outputDir : Path) :
    ofSource ⟨Text.join "/" (front ++ [stem ++ ".htmlx"])⟩ outputDir =
      ⟨path outputDir front stem ".html", path outputDir front stem ".html.map",
        path outputDir front stem ".css", path outputDir front stem ".js"⟩ := by
  have hnames := List.forall_mem_append.1 hsource
  have hlast := hnames.2 _ List.mem_cons_self
  have hslash : '/' ∉ stem.toList := fun h => hlast.slash (by simp [h])
  have hbase : (Path.mk (Text.join "/" (front ++ [stem]))).isAbsolute = false := by
    refine Path.isAbsolute_names ?_ ?_
    · rw [List.forall_mem_append, List.forall_mem_singleton]
      exact ⟨fun name hname => (hnames.1 name hname).nonempty, by simpa using hstem⟩
    · rw [List.forall_mem_append, List.forall_mem_singleton]
      exact ⟨fun name hname => (hnames.1 name hname).slash, hslash⟩
  have hpath {suffix : String} (hsuffix : IsSuffix suffix) :
      (outputDir.join ⟨Text.join "/" (front ++ [stem])⟩).append suffix =
        path outputDir front stem suffix := by
    have happend : (Path.mk (Text.join "/" (front ++ [stem]))).append suffix =
        ⟨Text.join "/" (front ++ [stem ++ suffix])⟩ :=
      congrArg Path.mk (Text.join_concat "/" stem suffix front)
    rw [Path.append_join hbase (by rw [happend]; exact isAbsolute_of_isSuffix hsource hsuffix),
      happend, path]
  rw [ofSource, Path.withoutExtension_names (fun name hname => (hnames.1 name hname).slash) hlast
    (Path.cutName_source hstem), String.ofList_toList, hpath (by decide), hpath (by decide),
    hpath (by decide), hpath (by decide)]

theorem temporary_path
    (hsource : ∀ name ∈ front ++ [stem ++ ".htmlx"], Path.IsName name)
    (hsuffix : suffix ∈ suffixes)
    (outputDir : Path) :
    temporary (path outputDir front stem suffix) =
      path outputDir front stem (suffix ++ ".tmp") := by
  have happend : (Path.mk (Text.join "/" (front ++ [stem ++ suffix]))).append ".tmp" =
      ⟨Text.join "/" (front ++ [stem ++ (suffix ++ ".tmp")])⟩ := by
    rw [← String.append_assoc]
    exact congrArg Path.mk (Text.join_concat "/" (stem ++ suffix) ".tmp" front)
  have habsolute := isAbsolute_of_isSuffix hsource (isSuffix_temporary hsuffix)
  rw [temporary, path, Path.append_join (isAbsolute_of_isSuffix hsource (isSuffix_of_mem hsuffix))
    (by rwa [happend]), happend, path]

/-- An output lies in the output directory, below the directory of its source. -/
theorem destination_path
    (hsource : ∀ name ∈ front ++ [stem ++ ".htmlx"], Path.IsName name)
    (hsuffix : IsSuffix suffix)
    (outputDir : Path)
    (working : List String) :
    Disk.destination working (path outputDir front stem suffix) =
      Disk.destination working outputDir ++ (front ++ [stem ++ suffix]) := by
  have hnames := isName_of_isSuffix hsource hsuffix
  rw [path, Disk.destination_join (isAbsolute_of_isSuffix hsource hsuffix),
    Disk.names_of_isName hnames, Disk.spelled_of_isName hnames]

/-- All outputs of a source have the same way. -/
theorem onWay_path
    {place : List String}
    (hsource : ∀ name ∈ front ++ [stem ++ ".htmlx"], Path.IsName name)
    (hsuffix : IsSuffix suffix)
    (outputDir : Path)
    (working : List String) :
    Disk.OnWay working (path outputDir front stem suffix) place ↔
      ∃ route, route <+: Disk.names outputDir ++ front ∧
        place = Disk.spelled (if outputDir.isAbsolute then [] else working) route := by
  have habsolute := isAbsolute_of_isSuffix hsource hsuffix
  have hnames : Disk.names (path outputDir front stem suffix) =
      Disk.names outputDir ++ front ++ [stem ++ suffix] := by
    rw [path, Disk.names_join habsolute, Disk.names_of_isName (isName_of_isSuffix hsource hsuffix),
      List.append_assoc]
  rw [Disk.OnWay, hnames, path, Path.isAbsolute_join habsolute]
  constructor
  · rintro ⟨route, name, rest, hroute, hplace⟩
    refine ⟨route, ?_, hplace⟩
    have hlength := congrArg List.length hroute
    simp only [List.length_append, List.length_cons, List.length_nil] at hlength
    refine List.prefix_of_prefix_length_le (hroute ▸ List.prefix_append route _)
      (List.prefix_append _ _) ?_
    rw [List.length_append]
    omega
  · rintro ⟨route, ⟨rest, hroute⟩, hplace⟩
    obtain ⟨name, more, hmore⟩ :=
      List.exists_cons_of_ne_nil (List.concat_ne_nil (stem ++ suffix) rest)
    refine ⟨route, name, more, ?_, hplace⟩
    rw [← hroute, List.append_assoc, hmore]

end Stem

end Outputs

end BlockMarkup
