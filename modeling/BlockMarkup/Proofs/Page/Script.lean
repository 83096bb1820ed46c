import BlockMarkup.Page.Script
import BlockMarkup.Proofs.Dict
import BlockMarkup.Proofs.Json.Literal
import BlockMarkup.Proofs.Page.Shown

/-!
# Page and script agree on directives

A script has a line for each endpoint and for each key of the directives in a document, under the
same texts that the start tags of the page show. The page writes these texts with entities, and the
script as literals, twice on a line; both are read back as the text of the directive, whatever
characters it has, and a literal never leaves its line.
-/

namespace BlockMarkup

namespace Directive

def endpoint? : Directive → Option String
  | call endpoint => some endpoint
  | data _ => none

def key? : Directive → Option String
  | data key => some key
  | call _ => none

/-- The name of the attribute that shows a directive in a page. -/
def shownName : Directive → String
  | call _ => "data-api-call"
  | data _ => "data-dynamic"

/-- Whether the text of a directive is listed: endpoints and keys do not mix. -/
def IsListed
    (endpoints keys : List String) :
    Directive → Prop
  | call endpoint => endpoint ∈ endpoints
  | data key => key ∈ keys

end Directive

namespace Script

/-! ## The lines of a script -/

/-- The line of an endpoint whose literal is `literal`. -/
def handlerChars (literal : List Char) : List Char :=
  "    ".toList ++ literal ++ ": function (element, init) \x7b return callApi(".toList ++ literal ++
    ", element, init); \x7d,".toList

/-- The line of a key whose literal is `literal`. -/
def updaterChars (literal : List Char) : List Char :=
  "    ".toList ++ literal ++ ": function (value) \x7b applyData(".toList ++ literal ++
    ", value); \x7d,".toList

/-- The lines of a script with its literals. All else is the same in every script. -/
def linesOf
    (base : List Char)
    (endpoints keys : List (List Char)) : List (List Char) :=
  ["(function () \x7b", "  \"use strict\";", ""].map String.toList ++
    ("  const API_BASE = ".toList ++ base ++ ";".toList) ::
    ["", "  const apiHandlers = \x7b"].map String.toList ++
  endpoints.map handlerChars ++
  ["  \x7d;", "", "  const dataBindings = \x7b"].map String.toList ++
  keys.map updaterChars ++
  ["  \x7d;", ""].map String.toList ++
  fixedLines.map String.toList ++
  ["\x7d)();"].map String.toList

/-- Whether a text is the script with these values, each of them written as a literal. -/
def Registers
    (text : List Char)
    (base : String)
    (endpoints keys : List String) : Prop :=
  ∃ baseLiteral endpointLiterals keyLiterals,
    Json.IsLiteral baseLiteral base ∧
      List.Forall₂ Json.IsLiteral endpointLiterals endpoints ∧
      List.Forall₂ Json.IsLiteral keyLiterals keys ∧
      Text.splitAt (· = '\n') text = linesOf baseLiteral endpointLiterals keyLiterals ++ [[]]

/-- Lines without line feeds can be told apart in their text. -/
theorem splitAt_lines
    {ls : List String}
    (hls : ∀ l ∈ ls, '\n' ∉ l.toList) :
    Text.splitAt (· = '\n') (lines ls).toList = ls.map String.toList ++ [[]] := by
  have hlines : (lines ls).toList = (ls.map String.toList).flatMap (· ++ ['\n']) ++ [] := by
    simp [lines, Page.toList_join, List.flatMap_map]
  rw [hlines, Text.splitAt_flatMap_append, List.flatMap_map]
  congr 1
  have hone : ∀ l ∈ ls, Text.splitAt (· = '\n') l.toList = [l.toList] := fun l hl =>
    Text.splitAt_eq_singleton (hls l hl)
  rw [List.flatMap_congr hone, List.map_eq_flatMap]

/-- Whether a written text has a line feed is decided by its characters. -/
theorem newline_not_mem_ofList
    {cs : List Char}
    (hcs : '\n' ∉ cs) :
    '\n' ∉ (String.ofList cs).toList := by
  rwa [String.toList_ofList]

theorem newline_not_mem_append
    {s t : String}
    (hs : '\n' ∉ s.toList)
    (ht : '\n' ∉ t.toList) :
    '\n' ∉ (s ++ t).toList := by
  rw [String.toList_append, List.mem_append, not_or]
  exact ⟨hs, ht⟩

theorem newline_not_mem_functionLines : ∀ l ∈ functionLines, '\n' ∉ l.toList := by
  unfold functionLines
  repeat refine List.forall_mem_cons.2 ⟨newline_not_mem_ofList (by decide), ?_⟩
  exact List.forall_mem_nil _

theorem newline_not_mem_startLines : ∀ l ∈ startLines, '\n' ∉ l.toList := by
  unfold startLines
  repeat refine List.forall_mem_cons.2 ⟨newline_not_mem_ofList (by decide), ?_⟩
  exact List.forall_mem_nil _

theorem newline_not_mem_fixedLines : ∀ l ∈ fixedLines, '\n' ∉ l.toList := by
  have hexport : '\n' ∉ exportLine.toList := newline_not_mem_append
    (newline_not_mem_ofList (by decide)) (newline_not_mem_ofList (by decide))
  unfold fixedLines
  refine List.forall_mem_append.2 ⟨newline_not_mem_functionLines, ?_⟩
  refine List.forall_mem_cons.2 ⟨hexport, List.forall_mem_cons.2 ⟨?_, newline_not_mem_startLines⟩⟩
  exact newline_not_mem_ofList (by decide)

/-- A literal never leaves its line. -/
theorem newline_not_mem_literal
    (s : String) :
    '\n' ∉ (Json.literal s).toList := by
  intro hmem
  exact absurd ((Json.isLiteral_literal s).printable _ hmem) (by decide)

theorem toList_handlerLine
    (endpoint : String) :
    (handlerLine endpoint).toList = handlerChars (Json.literal endpoint).toList := by
  unfold handlerLine handlerChars
  simp only [String.toList_append]

theorem toList_updaterLine
    (key : String) :
    (updaterLine key).toList = updaterChars (Json.literal key).toList := by
  unfold updaterLine updaterChars
  simp only [String.toList_append]

/-- A line that writes a literal twice has no line feed but those of the text around it. -/
theorem newline_not_mem_around_literals
    {front middle back : String}
    (name : String)
    (hfront : '\n' ∉ front.toList)
    (hmiddle : '\n' ∉ middle.toList)
    (hback : '\n' ∉ back.toList) :
    '\n' ∉ (front ++ Json.literal name ++ middle ++ Json.literal name ++ back).toList := by
  have hliteral := newline_not_mem_literal name
  have hfirst := newline_not_mem_append hfront hliteral
  have hsecond := newline_not_mem_append (newline_not_mem_append hfirst hmiddle) hliteral
  exact newline_not_mem_append hsecond hback

theorem newline_not_mem_handlerLine
    (endpoint : String) :
    '\n' ∉ (handlerLine endpoint).toList :=
  newline_not_mem_around_literals endpoint (newline_not_mem_ofList (by decide))
    (newline_not_mem_ofList (by decide)) (newline_not_mem_ofList (by decide))

theorem newline_not_mem_updaterLine
    (key : String) :
    '\n' ∉ (updaterLine key).toList :=
  newline_not_mem_around_literals key (newline_not_mem_ofList (by decide))
    (newline_not_mem_ofList (by decide)) (newline_not_mem_ofList (by decide))

/-- The lines of a script. -/
def textLines (s : Script) : List String :=
  ["(function () \x7b", "  \"use strict\";", "",
    "  const API_BASE = " ++ Json.literal s.apiBase ++ ";", "", "  const apiHandlers = \x7b"] ++
  s.endpoints.map handlerLine ++ ["  \x7d;", "", "  const dataBindings = \x7b"] ++
  s.keys.map updaterLine ++ ["  \x7d;", ""] ++ fixedLines ++ ["\x7d)();"]

theorem newline_not_mem_textLines
    (s : Script) :
    ∀ l ∈ s.textLines, '\n' ∉ l.toList := by
  have hbase : '\n' ∉ ("  const API_BASE = " ++ Json.literal s.apiBase ++ ";").toList :=
    newline_not_mem_append
      (newline_not_mem_append (newline_not_mem_ofList (by decide))
        (newline_not_mem_literal s.apiBase))
      (newline_not_mem_ofList (by decide))
  unfold textLines
  simp only [List.forall_mem_append, List.forall_mem_map]
  refine ⟨⟨⟨⟨⟨⟨?_, fun e _ => newline_not_mem_handlerLine e⟩, ?_⟩,
    fun k _ => newline_not_mem_updaterLine k⟩, ?_⟩, newline_not_mem_fixedLines⟩, ?_⟩
  · iterate 3 refine List.forall_mem_cons.2 ⟨newline_not_mem_ofList (by decide), ?_⟩
    refine List.forall_mem_cons.2 ⟨hbase, ?_⟩
    iterate 2 refine List.forall_mem_cons.2 ⟨newline_not_mem_ofList (by decide), ?_⟩
    exact List.forall_mem_nil _
  · iterate 3 refine List.forall_mem_cons.2 ⟨newline_not_mem_ofList (by decide), ?_⟩
    exact List.forall_mem_nil _
  · iterate 2 refine List.forall_mem_cons.2 ⟨newline_not_mem_ofList (by decide), ?_⟩
    exact List.forall_mem_nil _
  · exact List.forall_mem_singleton.2 (newline_not_mem_ofList (by decide))

/-- A script is read line by line as it was written. -/
theorem splitAt_text
    (s : Script) :
    Text.splitAt (· = '\n') s.text.toList = s.textLines.map String.toList ++ [[]] :=
  splitAt_lines s.newline_not_mem_textLines

theorem isLiteral_map
    (names : List String) :
    List.Forall₂ Json.IsLiteral (names.map fun name => (Json.literal name).toList) names := by
  rw [List.forall₂_map_left_iff, List.forall₂_same]
  exact fun name _ => Json.isLiteral_literal name

/-- A script registers its endpoints and its keys. -/
theorem registers_text
    (s : Script) :
    Registers s.text.toList s.apiBase s.endpoints s.keys := by
  refine ⟨_, _, _, Json.isLiteral_literal s.apiBase, isLiteral_map s.endpoints,
    isLiteral_map s.keys, ?_⟩
  rw [splitAt_text]
  simp only [textLines, linesOf, List.map_append, List.map_cons, List.map_nil, List.map_map,
    Function.comp_def, toList_handlerLine, toList_updaterLine, String.toList_append,
    List.cons_append, List.nil_append]

/-- The base of a script is the one that is given, without slashes at its end. -/
theorem apiBase_ofDocument
    (document : Document)
    (apiBase : String) :
    (∃ count, apiBase.toList =
        (ofDocument document apiBase).apiBase.toList ++ List.replicate count '/') ∧
      (ofDocument document apiBase).apiBase.toList.getLast? ≠ some '/' := by
  have hbase : (ofDocument document apiBase).apiBase.toList =
      (apiBase.toList.reverse.dropWhile (· = '/')).reverse := String.toList_ofList
  rw [hbase]
  constructor
  · have hslashes : apiBase.toList.reverse.takeWhile (· = '/') =
        List.replicate (apiBase.toList.reverse.takeWhile (· = '/')).length '/' :=
      List.eq_replicate_of_mem fun c hc => by simpa using List.mem_takeWhile_imp hc
    refine ⟨(apiBase.toList.reverse.takeWhile (· = '/')).length, ?_⟩
    rw [← List.reverse_inj, List.reverse_append, List.reverse_reverse, List.reverse_replicate,
      ← hslashes, List.takeWhile_append_dropWhile]
  · rw [List.getLast?_reverse]
    intro hhead
    have hstop := List.head?_dropWhile_not (· = '/') apiBase.toList.reverse
    rw [hhead] at hstop
    simp at hstop

end Script

def Attribute.directive? : Attribute → Option Directive
  | directive d => some d
  | text _ | style _ => none

/-- The directives among the attributes of an element. -/
def Header.entryDirectives (h : Header) : List Directive :=
  h.attributes.entries.filterMap fun entry => entry.2.directive?

theorem Header.directives_eq_entryDirectives
    (h : Header) :
    h.directives = h.entryDirectives := by
  refine List.filterMap_congr fun entry _ => ?_
  obtain ⟨name, value⟩ := entry
  cases value <;> rfl

namespace Document

/-- The directives of the elements of a document, in the order of the source. -/
def directives (document : Document) : List Directive :=
  document.headers.flatMap Header.entryDirectives

/-- The directives that a script is made of are those among the attributes of the elements. -/
theorem flatMap_directives_elements
    (document : Document) :
    (document.elements.flatMap fun e => e.header.directives) = document.directives := by
  rw [directives, ← elements_map_header, List.flatMap_map]
  exact List.flatMap_congr fun e _ => e.header.directives_eq_entryDirectives

/-- The endpoints of a script are those that the document calls, without repetition. -/
theorem endpoints_ofDocument
    (document : Document)
    (apiBase : String) :
    (Script.ofDocument document apiBase).endpoints =
      (document.directives.filterMap Directive.endpoint?).eraseDups := by
  rw [← flatMap_directives_elements]
  refine congrArg List.eraseDups (List.filterMap_congr fun d _ => ?_)
  cases d <;> rfl

theorem keys_ofDocument
    (document : Document)
    (apiBase : String) :
    (Script.ofDocument document apiBase).keys =
      (document.directives.filterMap Directive.key?).eraseDups := by
  rw [← flatMap_directives_elements]
  refine congrArg List.eraseDups (List.filterMap_congr fun d _ => ?_)
  cases d <;> rfl

/-- Every directive of a document is listed in its script. -/
theorem isListed_of_mem_directives
    {document : Document}
    {d : Directive}
    (hd : d ∈ document.directives)
    (apiBase : String) :
    d.IsListed (Script.ofDocument document apiBase).endpoints
      (Script.ofDocument document apiBase).keys := by
  cases d with
  | call endpoint =>
      rw [Directive.IsListed, endpoints_ofDocument, List.mem_eraseDups]
      exact List.mem_filterMap.2 ⟨_, hd, rfl⟩
  | data key =>
      rw [Directive.IsListed, keys_ofDocument, List.mem_eraseDups]
      exact List.mem_filterMap.2 ⟨_, hd, rfl⟩

end Document

/-- The name that an attribute is written with: a directive has a name of its own. -/
def Attribute.writtenName
    (name : String) :
    Attribute → String
  | directive d => d.shownName
  | text _ | style _ => name

namespace Page

/-! ## Directives in start tags -/

/-- An attribute as it stands in a start tag, with the entry of the element that it is written for.
The id and the classes of an element are no entries. -/
structure WrittenAttribute where
  origin : Option (String × Attribute)
  name : String
  value : List Char

namespace WrittenAttribute

def chars (w : WrittenAttribute) : List Char := writtenPair (w.name.toList, w.value)

/-- Whether an attribute has the name that is due to its entry and, when its entities are read, the
text of it. -/
def Shows (w : WrittenAttribute) : Prop :=
  match w.origin with
  | none => w.name = "id" ∨ w.name = "class"
  | some (name, value) =>
    w.name = value.writtenName name ∧ unescape w.value = value.shownText.toList

/-- The attribute that an entry is written as. -/
def ofEntry (entry : String × Attribute) : WrittenAttribute :=
  ⟨some entry, entry.2.writtenName entry.1, (escape entry.2.shownText).toList⟩

end WrittenAttribute

/-- Whether characters are the given attributes, and these are written for the given entries. No
entry is written twice, and directives are not left out. -/
structure Writes
    (written : List WrittenAttribute)
    (chars : List Char)
    (entries : List (String × Attribute)) : Prop where
  chars_eq : chars = written.flatMap WrittenAttribute.chars
  quoted : ∀ w ∈ written, '"' ∉ w.value
  shows : ∀ w ∈ written, w.Shows
  origins : (written.filterMap WrittenAttribute.origin).Sublist entries
  complete : ∀ entry ∈ entries, entry.2.directive? ≠ none →
    entry ∈ written.filterMap WrittenAttribute.origin

theorem Writes.append
    {written others : List WrittenAttribute}
    {chars more : List Char}
    {entries rest : List (String × Attribute)}
    (h : Writes written chars entries)
    (hothers : Writes others more rest) :
    Writes (written ++ others) (chars ++ more) (entries ++ rest) where
  chars_eq := by rw [h.chars_eq, hothers.chars_eq, List.flatMap_append]
  quoted := List.forall_mem_append.2 ⟨h.quoted, hothers.quoted⟩
  shows := List.forall_mem_append.2 ⟨h.shows, hothers.shows⟩
  origins := by
    rw [List.filterMap_append]
    exact h.origins.append hothers.origins
  complete := by
    rw [List.filterMap_append, List.forall_mem_append]
    exact ⟨fun entry hentry hd => List.mem_append_left _ (h.complete entry hentry hd),
      fun entry hentry hd => List.mem_append_right _ (hothers.complete entry hentry hd)⟩

theorem quote_not_mem_escape
    (s : String) :
    '"' ∉ (escape s).toList :=
  not_mem_escape s (Or.inr (Or.inr rfl))

/-- The id and the classes are written before all entries. -/
theorem writes_front
    {front : List (String × String)}
    (hfront : ∀ a ∈ front, a.1 = "id" ∨ a.1 = "class") :
    Writes (front.map fun a => ⟨none, a.1, (escape a.2).toList⟩)
      (front.flatMap fun a => (attributeText a).toList) [] where
  chars_eq := by simp only [List.flatMap_map, WrittenAttribute.chars, toList_attributeText]
  quoted := List.forall_mem_map.2 fun a _ => quote_not_mem_escape a.2
  shows := List.forall_mem_map.2 hfront
  origins := by simp
  complete := List.forall_mem_nil _

theorem writes_ofEntry
    (entry : String × Attribute) :
    Writes [.ofEntry entry]
      (attributeText (entry.2.writtenName entry.1, entry.2.shownText)).toList [entry] where
  chars_eq := by
    simp [WrittenAttribute.chars, WrittenAttribute.ofEntry, toList_attributeText]
  quoted := List.forall_mem_singleton.2 (quote_not_mem_escape _)
  shows := List.forall_mem_singleton.2 ⟨rfl, unescape_escape _⟩
  origins := List.Sublist.refl _
  complete := fun _ hentry _ => hentry

theorem writes_nothing
    {entry : String × Attribute}
    (hentry : entry.2.directive? = none) :
    Writes [] [] [entry] where
  chars_eq := rfl
  quoted := List.forall_mem_nil _
  shows := List.forall_mem_nil _
  origins := List.nil_sublist _
  complete := List.forall_mem_singleton.2 fun hd => absurd hentry hd

/-- What a start tag writes for entries, if each of them is written as it is due or, unless it is a
directive, left out. -/
theorem exists_writes_entries
    {shown : String × Attribute → List (String × String)}
    (hshown : ∀ entry,
      shown entry = [(entry.2.writtenName entry.1, entry.2.shownText)] ∨
        shown entry = [] ∧ entry.2.directive? = none)
    (entries : List (String × Attribute)) :
    ∃ written, Writes written
      ((entries.flatMap shown).flatMap fun a => (attributeText a).toList) entries := by
  induction entries with
  | nil =>
      exact ⟨[], writes_front (List.forall_mem_nil _)⟩
  | cons entry entries ih =>
      obtain ⟨written, hwritten⟩ := ih
      rw [List.flatMap_cons, List.flatMap_append]
      rcases hshown entry with hwrite | ⟨hskip, hentry⟩
      · rw [hwrite, List.flatMap_singleton]
        exact ⟨_, (writes_ofEntry entry).append hwritten⟩
      · rw [hskip, List.flatMap_nil]
        exact ⟨_, (writes_nothing hentry).append hwritten⟩

/-- The attributes of a start tag are an id, classes, and what is written for the entries. -/
theorem attributes_eq_front_append
    (h : Header) :
    ∃ front shown, attributes h = front ++ h.attributes.entries.flatMap shown ∧
      (∀ a ∈ front, a.1 = "id" ∨ a.1 = "class") ∧
      ∀ entry : String × Attribute,
        shown entry = [(entry.2.writtenName entry.1, entry.2.shownText)] ∨
          shown entry = [] ∧ entry.2.directive? = none := by
  refine ⟨_, _, rfl, List.forall_mem_append.2 ⟨?_, ?_⟩, ?_⟩
  · exact List.forall_mem_map.2 fun id _ => .inl rfl
  · intro a ha
    split_ifs at ha with hclasses
    · cases ha
    · rw [List.mem_singleton.1 ha]
      exact .inr rfl
  · rintro ⟨name, value | declarations | endpoint | key⟩
    · dsimp only
      split
      · exact .inr ⟨rfl, rfl⟩
      · exact .inl rfl
    · dsimp only
      split
      · exact .inl rfl
      · exact .inr ⟨rfl, rfl⟩
    · exact .inl rfl
    · exact .inl rfl

/-- A start tag is its tag and its attributes, which are written for the entries of its element. -/
theorem exists_writes_startTag
    (h : Header) :
    ∃ written chars, (startTag h).toList = '<' :: (h.tag.toList ++ (chars ++ ['>'])) ∧
      Writes written chars h.attributes.entries := by
  obtain ⟨front, shown, hattributes, hfront, hshown⟩ := attributes_eq_front_append h
  obtain ⟨written, hwritten⟩ := exists_writes_entries hshown h.attributes.entries
  have hall := (writes_front hfront).append hwritten
  rw [List.nil_append, ← List.flatMap_append, ← hattributes] at hall
  refine ⟨_, _, ?_, hall⟩
  simp [startTag, toList_join, List.flatMap_map]

/-- A directive that an attribute is written for is one of the element. -/
theorem Writes.mem_entryDirectives
    {h : Header}
    {written : List WrittenAttribute}
    {chars : List Char}
    (hwrites : Writes written chars h.attributes.entries)
    {w : WrittenAttribute}
    (hw : w ∈ written)
    {name : String}
    {d : Directive}
    (horigin : w.origin = some (name, .directive d)) :
    d ∈ h.entryDirectives := by
  have hmem := hwrites.origins.subset (List.mem_filterMap.2 ⟨w, hw, horigin⟩)
  exact List.mem_filterMap.2 ⟨_, hmem, rfl⟩

end Page

namespace Document

/-- Page and script agree on directives. The script has one line for each endpoint and each key, in
the order of first use, and each line holds its text as a literal. The attributes in the start tags
of the page are written for the attributes of the elements, and what is written for a directive is
one of these texts. -/
theorem js_registers_shown_directives
    (document : Document)
    (apiBase file : String) :
    ∃ base endpoints keys,
      (∃ count, apiBase.toList = base.toList ++ List.replicate count '/') ∧
      base.toList.getLast? ≠ some '/' ∧
      FirstUses (document.directives.filterMap Directive.endpoint?) endpoints ∧
      FirstUses (document.directives.filterMap Directive.key?) keys ∧
      Script.Registers (document.js apiBase).toList base endpoints keys ∧
      Text.Holds (document.shownHeaders.map fun h => (Page.startTag h).toList)
        (document.html file).toList ∧
      ∀ h ∈ document.shownHeaders, ∃ written chars,
        (Page.startTag h).toList = '<' :: (h.tag.toList ++ (chars ++ ['>'])) ∧
          Page.Writes written chars h.attributes.entries ∧
          ∀ w ∈ written, ∀ name d, w.origin = some (name, .directive d) →
            w.name = d.shownName ∧ Page.unescape w.value = d.target.toList ∧
              d.IsListed endpoints keys := by
  obtain ⟨hslashes, hlast⟩ := Script.apiBase_ofDocument document apiBase
  refine ⟨_, _, _, hslashes, hlast, ?_, ?_, Script.registers_text _,
    Page.holds_startTags document file, fun h hh => ?_⟩
  · rw [endpoints_ofDocument]
    exact firstUses_eraseDups _
  · rw [keys_ofDocument]
    exact firstUses_eraseDups _
  · obtain ⟨written, chars, htag, hwrites⟩ := Page.exists_writes_startTag h
    refine ⟨written, chars, htag, hwrites, fun w hw name d horigin => ?_⟩
    have hshows := hwrites.shows w hw
    rw [Page.WrittenAttribute.Shows, horigin] at hshows
    have hd := hwrites.mem_entryDirectives hw horigin
    refine ⟨hshows.1, hshows.2, isListed_of_mem_directives ?_ apiBase⟩
    exact List.mem_flatMap.2 ⟨h, mem_headers_of_mem_shownHeaders hh, hd⟩

/-- Two elements call one endpoint, and a third is hidden. A plain attribute has the name that
directives are shown with. -/
def livePage : Document :=
  [.element ⟨"button", none, [],
      .ofList [("⚡-call", .directive (.call "save \"all\""))], ⟨1, 1⟩, none⟩ [],
    .element ⟨"p", some "a", ["big"],
      .ofList [("title", .text "<b>"), ("⚡-data", .directive (.data "user</script>"))],
      ⟨2, 1⟩, none⟩ [],
    .element ⟨"br", none, [], .empty, ⟨3, 1⟩, none⟩
      [.element ⟨"a", none, [], .ofList [("⚡-call", .directive (.call "ping"))], ⟨4, 3⟩, none⟩ []],
    .element ⟨"a", none, [],
      .ofList [("data-api-call", .text "plain"), ("⚡-call", .directive (.call "save \"all\""))],
      ⟨5, 1⟩, none⟩ []]

theorem js_registers_shown_directives_livePage :
    livePage.shownHeaders.map Page.startTag =
        ["<button data-api-call=\"save &quot;all&quot;\">",
          "<p id=\"a\" class=\"big\" title=\"&lt;b&gt;\" data-dynamic=\"user&lt;/script&gt;\">",
          "<br>", "<a data-api-call=\"plain\" data-api-call=\"save &quot;all&quot;\">"] ∧
      ((Text.splitAt (· = '\n') (livePage.js "/api/").toList).take 14).map String.ofList =
        ["(function () \x7b", "  \"use strict\";", "", "  const API_BASE = \"/api\";", "",
          "  const apiHandlers = \x7b",
          "    \"save \\\"all\\\"\": function (element, init) \x7b return callApi(" ++
            "\"save \\\"all\\\"\", element, init); \x7d,",
          "    \"ping\": function (element, init) \x7b return callApi(" ++
            "\"ping\", element, init); \x7d,",
          "  \x7d;", "", "  const dataBindings = \x7b",
          "    \"user</script>\": function (value) \x7b applyData(\"user</script>\", value); \x7d,",
          "  \x7d;", ""] ∧
      ∃ base, Script.Registers (livePage.js "/api/").toList base
        ["save \"all\"", "ping"] ["user</script>"] := by
  obtain ⟨base, endpoints, keys, -, -, hendpoints, hkeys, hregisters, -⟩ :=
    js_registers_shown_directives livePage "/api/" "live"
  have hcalled : FirstUses (livePage.directives.filterMap Directive.endpoint?)
      ["save \"all\"", "ping"] := by
    convert firstUses_eraseDups _ using 1
    decide +kernel
  have hdata : FirstUses (livePage.directives.filterMap Directive.key?) ["user</script>"] := by
    convert firstUses_eraseDups _ using 1
    decide +kernel
  rw [hendpoints.unique hcalled, hkeys.unique hdata] at hregisters
  refine ⟨by decide +kernel, ?_, base, hregisters⟩
  rw [js, Script.splitAt_text]
  decide +kernel

end Document

end BlockMarkup
