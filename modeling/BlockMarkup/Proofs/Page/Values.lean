import BlockMarkup.Proofs.Node.Values
import BlockMarkup.Proofs.Page.Hidden
import BlockMarkup.Proofs.Page.Lookup
import BlockMarkup.Proofs.Token.Literals

/-!
# The values of plain attributes, from source to page

A text is written into a source as a string literal, with backslashes, and onto a page as the value
of an attribute, with entities. Both ways of writing can be undone, so every text comes through: it
is the text of one token, then the value of one attribute, and it is what a reader of the page gets
who resolves the entities in that attribute.
-/

namespace BlockMarkup

namespace Attribute

/-- Whether `name` is the name of an attribute that has its text as its value and is shown with it.
-/
structure IsPlain (name : String) : Prop where
  not_style : name ≠ styleName
  not_animate : name ≠ animateName
  not_reserved : isReserved name = false

variable {name : String}

theorem IsPlain.goesBy
    (hplain : IsPlain name)
    (value : String) :
    (text value).GoesBy name := by
  have hne : ∀ {reserved : String}, isReserved reserved = true → name ≠ reserved := by
    rintro reserved hreserved rfl
    simp [hplain.not_reserved] at hreserved
  exact ⟨hplain.not_style, hne (by decide), hne (by decide)⟩

end Attribute

theorem Grammar.Pair.entry_of_isPlain
    {p : Pair}
    (hplain : Attribute.IsPlain p.key) :
    p.entry = (p.key, .text p.text) := by
  obtain ⟨hstyle, hcall, hdata⟩ := hplain.goesBy p.text
  have hderive : Attribute.derive p.key p.text = .ok (.text p.text) := by
    simp only [Attribute.derive, Attribute.styleName, Directive.callName, Directive.dataName,
      hstyle, hcall, hdata, if_false]
  rw [entry, hderive]
  rfl

namespace Document

variable {source file : String} {document : Document}

/-- No two elements that were read are the same, since they stand at different places. -/
theorem nodup_headers
    (hread : read source file = .ok document) :
    document.headers.Nodup := by
  have hordered := (read_ordered hread).filterMap (S := fun h later : Header =>
    h.position.Before later.position) Node.header? fun n later hbefore h hh h' hh' => by
      cases n <;> cases later <;> cases hh <;> cases hh'
      exact hbefore
  refine hordered.imp fun {h later} hbefore heq => ?_
  subst heq
  exact hbefore.asymm hbefore

/-- A page shows the elements that do not stand below a void element. -/
theorem mem_shownHeaders_iff
    (hread : read source file = .ok document)
    {h : Header}
    (hh : h ∈ document.headers) :
    h ∈ document.shownHeaders ↔ h ∉ document.hiddenHeaders := by
  have hperm := document.perm_headers
  have hnodup := hperm.nodup_iff.1 (nodup_headers hread)
  have hmem := List.mem_append.1 (hperm.mem_iff.1 hh)
  constructor
  · exact fun hshown hhidden => (List.nodup_append.1 hnodup).2.2 h hshown h hhidden rfl
  · exact fun hhidden => hmem.resolve_right hhidden

end Document

namespace Page

/-- The start tag of the element `h` shows the attribute `name` with `value` between the quotes. The
tag is found by the number of the element among those that the page shows, and it can be taken apart
in just one way. -/
def ShowsAttribute
    (page : List Char)
    (document : Document)
    (h : Header)
    (name value : List Char) : Prop :=
  ∃ (k : Nat) (chars : List Char) (pairs : List (List Char × List Char)),
    document.shownHeaders[k]? = some h ∧ (startTags page)[k]? = some chars ∧
      (∀ split, Splits chars split ↔ split = (h.tag.toList, pairs)) ∧ (name, value) ∈ pairs

/-- A plain attribute is written with its own name. -/
theorem mem_writtenPairs_of_isPlain
    {h : Header}
    {name value : String}
    (hplain : Attribute.IsPlain name)
    (hentry : (name, .text value) ∈ h.attributes.entries) :
    (name.toList, (escape value).toList) ∈ writtenPairs h := by
  obtain ⟨-, hcall, hdata⟩ := hplain.goesBy value
  have hkept : h.leavesOut (name, .text value) = false := by
    rw [h.leavesOut_text (hplain.goesBy value), hplain.not_reserved,
      decide_eq_false hplain.not_animate]
    rfl
  have hshown : (name, value) ∈ h.shownAttributes := by
    refine List.mem_append_right _ (List.mem_map.2 ⟨(name, .text value), ?_, ?_⟩)
    · exact List.mem_filter.2 ⟨hentry, by rw [hkept]; rfl⟩
    · simp only [Attribute.shownName, if_neg hcall, if_neg hdata]
      rfl
  exact List.mem_map.2 ⟨(name, value), hshown, rfl⟩

/-- A page shows the plain attributes of an element if it shows the element. -/
theorem showsAttribute_iff_of_isPlain
    {document : Document}
    {h : Header}
    {name value : String}
    (hclean : ∀ n ∈ Node.preorderList document, n.Clean)
    (hplain : Attribute.IsPlain name)
    (hentry : (name, .text value) ∈ h.attributes.entries)
    (file : String) :
    ShowsAttribute (document.html file).toList document h name.toList (escape value).toList ↔
      h ∈ document.shownHeaders := by
  constructor
  · rintro ⟨k, -, -, hk, -⟩
    exact List.mem_of_getElem? hk
  intro hh
  obtain ⟨k, hk⟩ := List.mem_iff_getElem?.1 hh
  obtain ⟨children, hmem⟩ :=
    Document.mem_preorderList_of_mem_headers (Document.mem_headers_of_mem_shownHeaders hh)
  have hsplits := splits_startChars (hclean _ hmem)
  refine ⟨k, startChars h, writtenPairs h, hk, ?_, fun split => ⟨hsplits.unique, ?_⟩,
    mem_writtenPairs_of_isPlain hplain hentry⟩
  · rw [startTags_html hclean, List.getElem?_map, hk]
    rfl
  · rintro rfl
    exact hsplits

end Page

/-- Every text can be the value of a plain attribute. Where a source breaks off in an open attribute
list, a literal is read as one token with its text, whatever the text and the quotes are. In a
source that is compiled, this token is the value of an attribute of an element. If the attribute is
plain, the page shows it with the text as its value, in entities that can be resolved again, unless
its element stands below a void element. -/
theorem compile_shows_every_value
    {front : String}
    {place : Position}
    (hopen : Token.scan front = .error ⟨.unterminatedAttributes, place⟩) :
    ∃ before, Token.ReadsLiterals front before ∧
      ∀ quote value back file options bundle,
        compile (front ++ Token.asLiteral quote value ++ back) file options = .ok bundle →
        ∃ document heading p,
          Document.read (front ++ Token.asLiteral quote value ++ back) file = .ok document ∧
          heading.header none ∈ document.headers ∧
          Grammar.EndsInPair (before ++ [Token.literalBehind front value]) heading p ∧
          (Attribute.IsPlain p.key →
            (Page.ShowsAttribute bundle.html.toList document (heading.header none) p.key.toList
                (Page.escape value).toList ↔
              heading.header none ∉ document.hiddenHeaders)) ∧
          Page.unescape (Page.escape value).toList = value.toList := by
  obtain ⟨before, hliterals⟩ := Token.exists_readsLiterals hopen
  refine ⟨before, hliterals, fun quote value back file options bundle hcompile => ?_⟩
  obtain ⟨document, warnings, hread, hvalid, rfl⟩ := exists_document_of_compile hcompile
  obtain ⟨parsed, hparse, -⟩ := Document.read_eq_ok hread
  obtain ⟨tokens, htokens, -⟩ := Document.parse_eq_ok hparse
  obtain ⟨behind, hscan⟩ := hliterals.exists_behind (by rw [htokens]; rfl)
  obtain ⟨heading, p, hends, hheader⟩ := Document.exists_endsInPair_of_read hread rfl hscan
  refine ⟨document, heading, p, hread, hheader, hends, fun hplain => ?_, Page.unescape_escape value⟩
  have hclean := Document.clean_of_isOk hread hvalid
  have hentry : (p.key, .text value) ∈ (heading.header none).attributes.entries := by
    have hvalue : p.text = value := congrArg Token.text hends.tokens_eq.1
    exact List.mem_map.2 ⟨p, hends.mem, by rw [p.entry_of_isPlain hplain, hvalue]⟩
  rw [Document.html_bundle, Page.showsAttribute_iff_of_isPlain hclean hplain hentry,
    Document.mem_shownHeaders_iff hread hheader]

/-- A heading that breaks off where the value of its second attribute is due. -/
def openTitle : String := "p.a(lang: \"en\",\n  title: "

/-- A text with both quotes, a line break, markup, and backslashes before a quote and at its end. -/
def awkwardTitle : String := "\\\"it's\"\n<b> & \\"

def awkwardSource : String :=
  openTitle ++ Token.asLiteral .single awkwardTitle ++ ", id: 'x') \x7b Hi \x7d\n"

theorem compile_shows_every_value_awkwardTitle :
    Token.scan openTitle = .error ⟨.unterminatedAttributes, ⟨1, 4⟩⟩ ∧
      ∃ bundle document h, compile awkwardSource "page" CompileOptions.standard = .ok bundle ∧
        Document.read awkwardSource "page" = .ok document ∧
        Page.ShowsAttribute bundle.html.toList document h "title".toList
          "\\&quot;it&#x27;s&quot;\n&lt;b&gt; &amp; \\".toList ∧
        Page.unescape "\\&quot;it&#x27;s&quot;\n&lt;b&gt; &amp; \\".toList =
          awkwardTitle.toList := by
  have hopen : Token.scan openTitle = .error ⟨.unterminatedAttributes, ⟨1, 4⟩⟩ := by
    decide +kernel
  have hok : (compile awkwardSource "page" CompileOptions.standard).isOk = true := by
    decide +kernel
  have hnone : (Document.read awkwardSource "page").toOption.map Document.hiddenHeaders =
      some [] := by
    decide +kernel
  have htitle : (Token.scan (openTitle ++ Token.asLiteral .single awkwardTitle ++ ")")).toOption.map
      (fun tokens => tokens.reverse[4]?.map Token.text) = some (some "title") := by
    decide +kernel
  have hescape : Page.escape awkwardTitle = "\\&quot;it&#x27;s&quot;\n&lt;b&gt; &amp; \\" := by
    decide +kernel
  cases hcompile : compile awkwardSource "page" CompileOptions.standard with
  | error e =>
      rw [hcompile] at hok
      cases hok
  | ok bundle =>
      obtain ⟨before, hliterals, hvalues⟩ := compile_shows_every_value hopen
      obtain ⟨document, heading, p, hread, -, hends, hshows, hback⟩ := hvalues _ _ _ _ _ _ hcompile
      -- the parenthesis behind the literal shows the tokens before it
      have hkey : p.key = "title" := by
        obtain ⟨closing, ending, hscan⟩ := hliterals.closed .single awkwardTitle
        rw [hscan] at htitle
        simpa [Except.toOption, hends.tokens_eq.2, Grammar.Pair.key] using htitle
      have hplain : Attribute.IsPlain p.key := by
        rw [hkey]
        exact ⟨by decide, by decide, by decide⟩
      have hhidden : document.hiddenHeaders = [] := by
        have hread' : Document.read awkwardSource "page" = .ok document := hread
        simpa [hread', Except.toOption] using hnone
      have hshown := (hshows hplain).2 (by simp [hhidden])
      rw [hescape, hkey] at hshown
      rw [hescape] at hback
      exact ⟨hopen, bundle, document, heading.header none, rfl, hread, hshown, hback⟩

/-- A heading below a void element that breaks off where a value is due. -/
def openBelowBreak : String := "br \x7b\n  p(title: "

def titleBelowBreak : String := openBelowBreak ++ Token.asLiteral .double "x" ++ ")\n\x7d\n"

/-- The page shows nothing of an element below a void element, its plain attributes neither. -/
theorem page_hides_titleBelowBreak :
    Token.scan openBelowBreak = .error ⟨.unterminatedAttributes, ⟨2, 4⟩⟩ ∧
      Attribute.IsPlain "title" ∧
      ∃ bundle, compile titleBelowBreak "index.htmlx" CompileOptions.standard = .ok bundle ∧
        Page.startTags bundle.html.toList = ["br".toList] := by
  have hopen : Token.scan openBelowBreak = .error ⟨.unterminatedAttributes, ⟨2, 4⟩⟩ := by
    decide +kernel
  have hok : (compile titleBelowBreak "index.htmlx" CompileOptions.standard).isOk = true := by
    decide +kernel
  have hstart : (Document.read titleBelowBreak "index.htmlx").toOption.map (fun document =>
      Page.startTags ((Page.fragments document "index.htmlx").flatMap Page.Fragment.chars)) =
      some ["br".toList] := by
    decide +kernel
  cases hcompile : compile titleBelowBreak "index.htmlx" CompileOptions.standard with
  | error e =>
      rw [hcompile] at hok
      cases hok
  | ok bundle =>
      obtain ⟨document, warnings, hread, -, rfl⟩ := exists_document_of_compile hcompile
      rw [hread] at hstart
      refine ⟨hopen, ⟨by decide, by decide, by decide⟩, _, rfl, ?_⟩
      rw [Document.html_bundle, Document.toList_html]
      exact Option.some.inj hstart

end BlockMarkup
