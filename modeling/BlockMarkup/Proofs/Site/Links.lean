import BlockMarkup.Proofs.Page.AttributeNames
import BlockMarkup.Proofs.Site.Agreement
import BlockMarkup.Proofs.Site.Overlaps

/-!
# Links to companions

A page links a stylesheet and a script, which are written beside it. The links are made from the
name that a source has in diagnostics, in which every backslash is a slash, and the files from the
path of the source, which keeps its backslashes. So a page links the files beside it exactly if the
name of its source has no backslash. Those in the names of directories do no harm.
-/

namespace BlockMarkup

namespace Page

section ReadTag

variable {tag pending : List Char} {items : List (List Char × Option (List Char))}

/-- The words of a tag that was cut at its quotes, with their values. What stands before a value
ends in the name that it belongs to. -/
def readItems : List (List Char) → List (List Char × Option (List Char))
  | [] => []
  | [outside] => (Text.blankSeparated outside).map (·, none)
  | outside :: value :: rest =>
      (Text.blankSeparated outside).dropLast.map (·, none) ++
        (Text.blankSeparated outside).getLast?.toList.map
          (fun word => (word.takeWhile (· ≠ '='), some value)) ++
        readItems rest

/-- The name of a tag, and behind it the attributes. -/
def readTag (tag : List Char) : List (List Char × Option (List Char)) :=
  readItems (Text.splitAt (· = '"') tag)

/-- Written attributes are read back. The text in front of them is divided into words. -/
theorem readTag_append
    (hpending : '"' ∉ pending)
    (hitems : ∀ item ∈ items, IsPlainItem item) :
    readTag (pending ++ items.flatMap writtenItem) =
      (Text.blankSeparated pending).map (·, none) ++ items := by
  induction items generalizing pending with
  | nil =>
      rw [List.flatMap_nil, List.append_nil, List.append_nil, readTag,
        Text.splitAt_eq_singleton hpending, readItems]
  | cons item items ih =>
      rw [List.forall_mem_cons] at hitems
      obtain ⟨name, value⟩ := item
      have hname : '"' ∉ name := hitems.1.1.quote_not_mem
      have hwords : Text.blankSeparated (pending ++ ' ' :: itemWord (name, value)) =
          Text.blankSeparated pending ++ [itemWord (name, value)] := by
        rw [Text.blankSeparated_append_cons (by decide),
          Text.blankSeparated_word (isWord_itemWord hitems.1.1)]
      have htake : (itemWord (name, value)).takeWhile (· ≠ '=') = name :=
        takeWhile_itemWord hitems.1.1
      cases value with
      | none =>
          -- The name joins the words that wait for the next quote.
          have htext : pending ++ ((name, none) :: items).flatMap writtenItem =
              (pending ++ ' ' :: itemWord (name, none)) ++ items.flatMap writtenItem := by
            simp [writtenItem, itemWord]
          rw [htext, ih (by simp [itemWord, hpending, hname]) hitems.2, hwords]
          simp [itemWord]
      | some value =>
          have htext : pending ++ ((name, some value) :: items).flatMap writtenItem =
              (pending ++ ' ' :: itemWord (name, some value)) ++
                '"' :: (value ++ '"' :: ([] ++ items.flatMap writtenItem)) := by
            simp [writtenItem, itemWord]
          have hrest := ih List.not_mem_nil hitems.2
          rw [readTag] at hrest
          rw [htext, readTag, Text.splitAt_append_cons,
            Text.splitAt_eq_singleton (by simp [itemWord, hpending, hname]),
            Text.splitAt_append_cons, Text.splitAt_eq_singleton (hitems.1.2 value rfl).1,
            List.singleton_append, List.singleton_append, readItems, hrest, hwords,
            List.dropLast_concat, List.getLast?_concat, Option.toList_some, List.map_singleton,
            htake, List.append_assoc]
          rfl

theorem readTag_written
    (htag : IsPlainName tag)
    (hitems : ∀ item ∈ items, IsPlainItem item) :
    readTag (tag ++ items.flatMap writtenItem) = (tag, none) :: items := by
  have hword : Text.IsWord tag := ⟨htag.nonempty, fun c hc => (htag.chars c hc).1⟩
  rw [readTag_append htag.quote_not_mem hitems, Text.blankSeparated_word hword, List.map_singleton,
    List.singleton_append]

end ReadTag

section Links

variable {document : Document}

def isTag
    (name : String)
    (tag : List Char) : Bool :=
  (readTag tag).head? = some (name.toList, none)

/-- The value that an attribute of a tag stands for. -/
def attributeValue
    (name : String)
    (tag : List Char) : Option String :=
  ((readTag tag).tail.find? (·.1 = name.toList)).bind fun item =>
    item.2.map fun value => String.ofList (unescape value)

/-- What the first `link` of a page leads to. -/
def stylesheetOf (page : List Char) : Option String :=
  ((allStartTags page).find? (isTag "link")).bind (attributeValue "href")

/-- What the last `script` of a page is loaded from. -/
def scriptOf (page : List Char) : Option String :=
  ((allStartTags page).reverse.find? (isTag "script")).bind (attributeValue "src")

theorem unescape_escape_append
    (s : String)
    {ending : List Char}
    (hending : ending.flatMap escapeChar = ending) :
    unescape ((escape s).toList ++ ending) = s.toList ++ ending := by
  have hescape : (escape s).toList ++ ending = (s.toList ++ ending).flatMap escapeChar := by
    rw [escape, String.toList_ofList, List.flatMap_append, hending]
  rw [hescape, unescape_flatMap_escapeChar]

section Written

variable {tag name : String} {items : List (List Char × Option (List Char))}
  (htag : IsPlainName tag.toList) (hitems : ∀ item ∈ items, IsPlainItem item)

include htag hitems

theorem isTag_written :
    isTag tag (tag.toList ++ items.flatMap writtenItem) = true := by
  rw [isTag, readTag_written htag hitems]
  exact decide_eq_true rfl

/-- A value that was escaped is found under its name. -/
theorem attributeValue_written
    (s : String)
    {ending : List Char}
    (hending : ending.flatMap escapeChar = ending)
    (hitem : items.find? (·.1 = name.toList) =
      some (name.toList, some ((escape s).toList ++ ending))) :
    attributeValue name (tag.toList ++ items.flatMap writtenItem) =
      some (s ++ String.ofList ending) := by
  rw [attributeValue, readTag_written htag hitems, List.tail_cons, hitem, Option.bind_some,
    Option.map_some, unescape_escape_append s hending, String.ofList_append, String.ofList_toList]

end Written

/-- A page names the stylesheet of its own stem. -/
theorem stylesheetOf_html
    (hclean : ∀ n ∈ Node.preorderList document, n.Clean)
    (file : String) :
    stylesheetOf (document.html file).toList = some (stemOf file ++ ".css") := by
  have htag : IsPlainName "link".toList := isPlainName_of_all (by decide)
  have hitems := isPlainItem_stylesheetItems (stemOf file)
  -- The link stands in front of all elements of the document, which may be links too.
  have hopening : openingTags.find? (isTag "link") = none := by decide +kernel
  rw [stylesheetOf, allStartTags_html hclean, headTags, List.append_assoc, List.append_assoc,
    List.find?_append, hopening, Option.none_or, List.cons_append,
    List.find?_cons_of_pos (isTag_written htag hitems), Option.bind_some,
    attributeValue_written htag hitems (stemOf file) (by decide) rfl]
  rfl

/-- A page names the script of its own stem. -/
theorem scriptOf_html
    (hclean : ∀ n ∈ Node.preorderList document, n.Clean)
    (file : String) :
    scriptOf (document.html file).toList = some (stemOf file ++ ".js") := by
  have htag : IsPlainName "script".toList := isPlainName_of_all (by decide)
  have hitems := isPlainItem_scriptItems (stemOf file)
  rw [scriptOf, allStartTags_html hclean, footTags, List.reverse_append, List.reverse_singleton,
    List.singleton_append, List.find?_cons_of_pos (isTag_written htag hitems), Option.bind_some,
    attributeValue_written htag hitems (stemOf file) (by decide) rfl]
  rfl

end Links

section Stem

variable {file name : String}

theorem stemOf_of_fileName
    (hname : (Path.mk file).fileName = some name) :
    stemOf file = String.ofList (Path.cutName name.toList).1 := by
  have hstem : String.ofList (Path.cutName name.toList).1 ≠ "" := by
    simpa using (Path.cutName_fst name.toList).2 (Path.mem_pieces_of_fileName hname).2.nonempty
  rw [stemOf, Path.stem, hname, Option.map_some]
  simp only
  rw [if_neg (by simpa using hstem)]

/-- The stem of a name has no other characters than the name. -/
theorem not_mem_stemOf
    {c : Char}
    (hfile : c ∉ file.toList)
    (hindex : c ∉ "index".toList) :
    c ∉ (stemOf file).toList := by
  cases hname : (Path.mk file).fileName with
  | none =>
      rw [stemOf, Path.stem, hname]
      exact hindex
  | some name =>
      rw [stemOf_of_fileName hname, String.toList_ofList]
      intro hmem
      have hpiece := Text.infix_of_mem_splitAt (Path.mem_pieces_of_fileName hname).1
      exact hfile (hpiece.subset ((Path.cutName_fst name.toList).1.subset hmem))

end Stem

end Page

namespace Path

variable {front : List String} {name : String}

theorem toList_join_names
    (hnames : ∀ n ∈ front ++ [name], IsName n) :
    (Text.join "/" (front ++ [name])).toList =
      (front.map String.toList).flatMap (· ++ ['/']) ++ name.toList := by
  have hpieces := pieces_names (List.concat_ne_nil name front) fun n hn => (hnames n hn).slash
  have hflat := Text.flatMap_splitAt '/' (Text.join "/" (front ++ [name])).toList
  rw [show Text.splitAt (· = '/') (Text.join "/" (front ++ [name])).toList = _ from hpieces,
    List.map_append, List.map_singleton, List.flatMap_append, List.flatMap_singleton,
    ← List.append_assoc] at hflat
  exact (List.append_cancel_right hflat).symm

/-- A file name stays if slashes and its own characters do. -/
theorem fileName_map
    {change : Char → Char}
    (hnames : ∀ n ∈ front ++ [name], IsName n)
    (hslash : change '/' = '/')
    (hname : ∀ c ∈ name.toList, change c = c) :
    (mk (String.ofList ((Text.join "/" (front ++ [name])).toList.map change))).fileName =
      some name := by
  have hlast : IsName name := hnames name (by simp)
  have hkept : name.toList.map change = name.toList :=
    (List.map_congr_left hname).trans (List.map_id' _)
  have hfront : ((front.map String.toList).flatMap (· ++ ['/'])).map change =
      (front.map fun n => n.toList.map change).flatMap (· ++ ['/']) := by
    simp [List.map_flatMap, List.flatMap_map, hslash]
  have hpieces : (mk (String.ofList ((Text.join "/" (front ++ [name])).toList.map change))).pieces =
      (front.map fun n => n.toList.map change).flatMap (Text.splitAt (· = '/')) ++
        [name.toList] := by
    rw [pieces, String.toList_ofList, toList_join_names hnames, List.map_append, hkept, hfront,
      Text.splitAt_flatMap_append, Text.splitAt_eq_singleton hlast.slash]
  exact fileName_of_pieces hlast hpieces

end Path

namespace Draft

variable {d : Draft} {front : List String} {name : String}

/-- The name of a draft has slashes only. -/
theorem backslash_not_mem_name
    (d : Draft) :
    '\\' ∉ d.name.toList := by
  rw [Draft.name, String.toList_ofList, List.mem_map]
  rintro ⟨c, -, hc⟩
  split_ifs at hc with hslash
  · exact absurd hc (by decide)
  · exact hslash hc

theorem fileName_name
    (hnames : ∀ n ∈ front ++ [name], Path.IsName n)
    (hrelative : d.relative = ⟨Text.join "/" (front ++ [name])⟩)
    (hname : '\\' ∉ name.toList) :
    (Path.mk d.name).fileName = some name := by
  rw [Draft.name, hrelative]
  refine Path.fileName_map hnames (if_neg (by decide)) fun c hc => if_neg ?_
  rintro rfl
  exact hname hc

/-- The companions of a page have the stem of its source exactly if this has no backslash. -/
theorem stemOf_name_iff
    {stem : String}
    (hstem : stem ≠ "")
    (hnames : ∀ n ∈ front ++ [stem ++ ".htmlx"], Path.IsName n)
    (hrelative : d.relative = ⟨Text.join "/" (front ++ [stem ++ ".htmlx"])⟩) :
    Page.stemOf d.name = stem ↔ '\\' ∉ stem.toList := by
  constructor
  · rintro rfl
    exact Page.not_mem_stemOf d.backslash_not_mem_name (by decide)
  · -- The names of directories may be cut at their backslashes, but the last piece stays.
    intro hbackslash
    have hname : '\\' ∉ (stem ++ ".htmlx").toList := by
      rw [String.toList_append, List.mem_append, not_or]
      exact ⟨hbackslash, by decide⟩
    rw [Page.stemOf_of_fileName (fileName_name hnames hrelative hname), Path.cutName_source hstem,
      String.ofList_toList]

/-- The bundle of a draft is that of its source. -/
theorem compile_of_built
    {options : CompileOptions}
    {bundle : Bundle}
    (hd : d.IsFresh)
    (hbundle : (d.built options).bundle = some bundle) :
    compile d.source d.name options = .ok bundle := by
  have hagrees := agrees_built hd options
  unfold Agrees at hagrees
  split at hagrees
  · next made hmade =>
      rw [hmade, ← Option.some.inj (hagrees.1.symm.trans hbundle)]
  · rw [hagrees.2.2.1] at hbundle
    cases hbundle

/-- The links on the page that is built from a draft. -/
theorem links_of_built
    {options : CompileOptions}
    {bundle : Bundle}
    (hd : d.IsFresh)
    (hbundle : (d.built options).bundle = some bundle) :
    Page.stylesheetOf bundle.html.toList = some (Page.stemOf d.name ++ ".css") ∧
      Page.scriptOf bundle.html.toList = some (Page.stemOf d.name ++ ".js") := by
  obtain ⟨document, warnings, hread, hvalid, rfl⟩ :=
    exists_document_of_compile (compile_of_built hd hbundle)
  have hclean := Document.clean_of_isOk hread hvalid
  rw [Document.html_bundle]
  exact ⟨Page.stylesheetOf_html hclean d.name, Page.scriptOf_html hclean d.name⟩

end Draft

theorem Outputs.fileName_path
    {front : List String}
    {stem suffix : String}
    (hsource : ∀ n ∈ front ++ [stem ++ ".htmlx"], Path.IsName n)
    (hsuffix : IsSuffix suffix)
    (outputDir : Path) :
    (path outputDir front stem suffix).fileName = some (stem ++ suffix) := by
  have hcomponents := Path.components_join_names (p := outputDir) (List.concat_ne_nil _ _)
    (isName_of_isSuffix hsource hsuffix)
  rw [List.map_append, List.map_singleton, ← List.append_assoc] at hcomponents
  exact Path.fileName_of_components hcomponents

/-- The page of a source links the stylesheet and the script that are written beside it, each of
them exactly if the stem of the source has no backslash. -/
theorem links_eq_outputs_iff
    {d d' : Disk}
    {inputs : List Path}
    {sources : List SourceFile}
    {f : SourceFile}
    {text : String}
    {options : CompileOptions}
    {bundle : Bundle}
    (hroot : d.root.WellFormed)
    (hsources : (SourceFile.discover inputs : DiskM _).run d = (.ok sources, d'))
    (hf : f ∈ sources)
    (hextension : f.relative.extension = some "htmlx")
    (hbundle : ((Draft.ofSource f.path f.relative text).built options).bundle = some bundle)
    (outputDir : Path) :
    ∃ stem, f.relative.fileName = some (stem ++ ".htmlx") ∧
      (Outputs.ofSource f.relative outputDir).css.fileName = some (stem ++ ".css") ∧
      (Outputs.ofSource f.relative outputDir).js.fileName = some (stem ++ ".js") ∧
      (Page.stylesheetOf bundle.html.toList =
          (Outputs.ofSource f.relative outputDir).css.fileName ↔ '\\' ∉ stem.toList) ∧
      (Page.scriptOf bundle.html.toList =
          (Outputs.ofSource f.relative outputDir).js.fileName ↔ '\\' ∉ stem.toList) := by
  obtain ⟨input, list, hfound, hmem⟩ := SourceFile.exists_found_of_mem hroot hsources hf
  obtain ⟨front, name, hnames, hrelative⟩ := SourceFile.exists_names_of_found hroot hfound hmem
  rw [hrelative] at hextension
  obtain ⟨stem, hstem, rfl⟩ := Path.exists_stem_of_extension hnames hextension
  have hcss : (Outputs.ofSource f.relative outputDir).css.fileName = some (stem ++ ".css") := by
    rw [hrelative, Outputs.ofSource_eq hnames hstem, Outputs.fileName_path hnames (by decide)]
  have hjs : (Outputs.ofSource f.relative outputDir).js.fileName = some (stem ++ ".js") := by
    rw [hrelative, Outputs.ofSource_eq hnames hstem, Outputs.fileName_path hnames (by decide)]
  obtain ⟨hstylesheet, hscript⟩ := Draft.links_of_built ⟨rfl, rfl, rfl, rfl⟩ hbundle
  have hiff := Draft.stemOf_name_iff (d := Draft.ofSource f.path f.relative text) hstem hnames
    hrelative
  refine ⟨stem, ?_, hcss, hjs, ?_, ?_⟩
  · rw [hrelative, Path.fileName_names hnames]
  · rw [hstylesheet, hcss, Option.some.injEq, String.append_left_inj, hiff]
  · rw [hscript, hjs, Option.some.injEq, String.append_left_inj, hiff]

/-- A source with two dots in its name, in a directory with a backslash in its name, and one with a
backslash in its own name. -/
def slashedDisk : Disk :=
  ⟨.directory [
    ("a\\b", .directory [("page.v2.htmlx", .file (.regular .empty))]),
    ("src", .directory [("a\\b.htmlx", .file (.regular .empty))])], []⟩

theorem wellFormed_slashedDisk : slashedDisk.root.WellFormed := by
  simp only [slashedDisk, FileTree.wellFormed_directory_iff, List.forall_mem_cons,
    List.not_mem_nil, false_implies, implies_true, FileTree.wellFormed_file]
  decide

theorem links_eq_outputs_iff_slashedDisk :
    slashedDisk.root.WellFormed ∧
      (SourceFile.discover [⟨"."⟩] : DiskM _).run slashedDisk =
        (.ok [⟨⟨"./a\\b/page.v2.htmlx"⟩, ⟨"a\\b/page.v2.htmlx"⟩⟩,
          ⟨⟨"./src/a\\b.htmlx"⟩, ⟨"src/a\\b.htmlx"⟩⟩], slashedDisk) ∧
      ∃ bundle, ((Draft.ofSource ⟨"./a\\b/page.v2.htmlx"⟩ ⟨"a\\b/page.v2.htmlx"⟩
          "p").built CompileOptions.standard).bundle = some bundle ∧
        ∀ outputDir,
          Page.stylesheetOf bundle.html.toList =
            (Outputs.ofSource ⟨"a\\b/page.v2.htmlx"⟩ outputDir).css.fileName ∧
          Page.scriptOf bundle.html.toList =
            (Outputs.ofSource ⟨"a\\b/page.v2.htmlx"⟩ outputDir).js.fileName := by
  have hroot := wellFormed_slashedDisk
  have hrun : (SourceFile.discover [⟨"."⟩] : DiskM _).run slashedDisk =
      (.ok [⟨⟨"./a\\b/page.v2.htmlx"⟩, ⟨"a\\b/page.v2.htmlx"⟩⟩,
        ⟨⟨"./src/a\\b.htmlx"⟩, ⟨"src/a\\b.htmlx"⟩⟩], slashedDisk) := by
    have hfound : SourceFile.found slashedDisk ⟨"."⟩ = .ok (SourceFile.ofPlaces ⟨"."⟩
        [["a\\b", "page.v2.htmlx"], ["src", "a\\b.htmlx"]]) := by
      rfl
    rw [SourceFile.run_discover hroot, hfound, SourceFile.ofPlaces,
      List.filter_eq_self.2 (by decide +kernel), List.mergeSort_of_pairwise (by decide +kernel)]
    rfl
  have hsome : ((Draft.ofSource ⟨"./a\\b/page.v2.htmlx"⟩ ⟨"a\\b/page.v2.htmlx"⟩
      "p").built CompileOptions.standard).bundle.isSome = true := by decide +kernel
  obtain ⟨bundle, hbundle⟩ := Option.isSome_iff_exists.1 hsome
  refine ⟨hroot, hrun, bundle, hbundle, fun outputDir => ?_⟩
  obtain ⟨stem, hname, -, -, hstylesheet, hscript⟩ :=
    links_eq_outputs_iff hroot hrun (.head _) (by decide +kernel) hbundle outputDir
  have hstem : '\\' ∉ stem.toList := by
    have hfile : (Path.mk "a\\b/page.v2.htmlx").fileName = some ("page.v2" ++ ".htmlx") := by
      decide +kernel
    rw [hfile, Option.some.injEq, String.append_left_inj] at hname
    rw [← hname]
    decide
  exact ⟨hstylesheet.2 hstem, hscript.2 hstem⟩

/-- A source with a backslash in its name is found, but its page links other files than those that
are written beside it. -/
theorem links_miss_outputs :
    (SourceFile.discover [⟨"src"⟩] : DiskM _).run slashedDisk =
        (.ok [⟨⟨"src/a\\b.htmlx"⟩, ⟨"a\\b.htmlx"⟩⟩], slashedDisk) ∧
      ∃ bundle, ((Draft.ofSource ⟨"src/a\\b.htmlx"⟩ ⟨"a\\b.htmlx"⟩
          "div \x7b Hello \x7d").built CompileOptions.standard).bundle = some bundle ∧
        Page.stylesheetOf bundle.html.toList = some "b.css" ∧
        Page.scriptOf bundle.html.toList = some "b.js" ∧
        (Outputs.ofSource ⟨"a\\b.htmlx"⟩ ⟨"dist"⟩).css.fileName = some "a\\b.css" ∧
        (Outputs.ofSource ⟨"a\\b.htmlx"⟩ ⟨"dist"⟩).js.fileName = some "a\\b.js" := by
  have hsome : ((Draft.ofSource ⟨"src/a\\b.htmlx"⟩ ⟨"a\\b.htmlx"⟩
      "div \x7b Hello \x7d").built CompileOptions.standard).bundle.isSome = true := by
    decide +kernel
  obtain ⟨bundle, hbundle⟩ := Option.isSome_iff_exists.1 hsome
  obtain ⟨hstylesheet, hscript⟩ := Draft.links_of_built ⟨rfl, rfl, rfl, rfl⟩ hbundle
  have hfound : SourceFile.found slashedDisk ⟨"src"⟩ =
      .ok (SourceFile.ofPlaces ⟨"src"⟩ [["a\\b.htmlx"]]) := by
    rfl
  have hstem : Page.stemOf (Draft.ofSource ⟨"src/a\\b.htmlx"⟩ ⟨"a\\b.htmlx"⟩
      "div \x7b Hello \x7d").name = "b" := by decide +kernel
  rw [hstem] at hstylesheet hscript
  refine ⟨?_, bundle, hbundle, hstylesheet, hscript, by decide +kernel, by decide +kernel⟩
  rw [SourceFile.run_discover wellFormed_slashedDisk, hfound, SourceFile.ofPlaces,
    List.filter_eq_self.2 (by decide +kernel), List.mergeSort_singleton]
  rfl

end BlockMarkup
