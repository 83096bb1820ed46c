import BlockMarkup.Proofs.Node.WellFormed
import BlockMarkup.Proofs.Page.Styling

/-!
# Names of attributes in start tags

The attributes of a start tag come from four places: the id of the element, its classes, its
directives, which are shown under names of their own, and its other attributes. Within each of them
no name comes twice, but an attribute may be called by a name that another one is shown under.
`Header.NamesApart` says that this does not happen, and it decides whether the start tags of a page
repeat a name (`compile_attributeNames_nodup_iff`).
-/

namespace BlockMarkup

namespace Header

variable {h : Header}

/-- Whether no attribute is called like the id, the classes or a directive that is shown too. -/
structure NamesApart (h : Header) : Prop where
  id : h.id.isSome = true → "id" ∉ h.attributes.keys
  classes : h.shownClasses ≠ [] → "class" ∉ h.attributes.keys
  call : "⚡-call" ∈ h.attributes.keys → "data-api-call" ∉ h.attributes.keys
  data : "⚡-data" ∈ h.attributes.keys → "data-dynamic" ∉ h.attributes.keys

/-- The names in the source of the attributes that are shown. -/
def keptKeys (h : Header) : List String :=
  (h.attributes.entries.filter fun entry => !h.leavesOut entry).map Prod.fst

/-- The names that are shown, by where they come from. -/
theorem map_fst_shownAttributes :
    h.shownAttributes.map Prod.fst =
      h.id.toList.map (fun _ => "id") ++ (if h.shownClasses = [] then [] else ["class"]) ++
        h.keptKeys.map Attribute.shownName := by
  simp only [shownAttributes, keptKeys, List.map_append, List.map_map, Function.comp_def]
  split <;> rfl

theorem nodup_keptKeys : h.keptKeys.Nodup :=
  h.attributes.nodup.sublist (List.filter_sublist.map Prod.fst)

/-- The names that can be shown for more than one reason, and those of the directives. -/
def clashingNames : List String :=
  ["id", "class", "⚡-call", "data-api-call", "⚡-data", "data-dynamic"]

/-- The names that take part in a clash are never left out. -/
theorem mem_keptKeys_iff
    (name : String)
    (hname : name ∈ clashingNames) :
    name ∈ h.keptKeys ↔ name ∈ h.attributes.keys := by
  have hkept : ∀ value, h.leavesOut (name, value) = false := by
    intro value
    have hnames : (clashingNames.all fun name => !(decide (name = "animate") ||
        ("⚡-".toList.isPrefixOf name.toList && name ≠ "⚡-call" && name ≠ "⚡-data") ||
        decide (name = "style"))) = true := by decide +kernel
    have hfree := List.all_eq_true.1 hnames name hname
    simp only [Bool.not_eq_true', Bool.or_eq_false_iff] at hfree
    simp only [leavesOut, hfree, Bool.false_or, Bool.false_and]
  simp only [keptKeys, Dict.keys, List.mem_map, List.mem_filter]
  constructor
  · rintro ⟨entry, hentry, rfl⟩
    exact ⟨entry, hentry.1, rfl⟩
  · rintro ⟨⟨_, value⟩, hentry, rfl⟩
    exact ⟨_, ⟨hentry, by simp [hkept value]⟩, rfl⟩

end Header

namespace Attribute

/-- Two names are shown alike only if one is a directive and the other is the name it is shown
under. -/
theorem shownName_eq_iff
    {a b : String} :
    shownName a = shownName b ↔
      a = b ∨ (a = "⚡-call" ∧ b = "data-api-call") ∨ (a = "data-api-call" ∧ b = "⚡-call") ∨
        (a = "⚡-data" ∧ b = "data-dynamic") ∨ (a = "data-dynamic" ∧ b = "⚡-data") := by
  unfold shownName
  split_ifs <;> grind

/-- No directive is shown as an id or a class. -/
theorem mem_map_shownName_iff
    {name : String}
    (hname : name = "id" ∨ name = "class")
    {keys : List String} :
    name ∈ keys.map shownName ↔ name ∈ keys := by
  have hself : shownName name = name := by
    rcases hname with rfl | rfl <;> rfl
  have hother : ∀ key, shownName key = name ↔ key = name := by
    intro key
    rw [← hself, shownName_eq_iff, hself]
    rcases hname with rfl | rfl <;> simp
  simp [List.mem_map, hother]

end Attribute

namespace Header

variable {h : Header}

/-- A directive and a plain attribute clash exactly if the plain one has the name that the directive
is shown with. -/
theorem nodup_map_shownName_iff :
    (h.keptKeys.map Attribute.shownName).Nodup ↔
      ("⚡-call" ∈ h.attributes.keys → "data-api-call" ∉ h.attributes.keys) ∧
        ("⚡-data" ∈ h.attributes.keys → "data-dynamic" ∉ h.attributes.keys) := by
  rw [List.nodup_map_iff_inj_on nodup_keptKeys,
    ← mem_keptKeys_iff "⚡-call" (by simp [clashingNames]),
    ← mem_keptKeys_iff "data-api-call" (by simp [clashingNames]),
    ← mem_keptKeys_iff "⚡-data" (by simp [clashingNames]),
    ← mem_keptKeys_iff "data-dynamic" (by simp [clashingNames])]
  constructor
  · intro hinj
    refine ⟨fun hcall hshown => ?_, fun hdata hshown => ?_⟩
    · exact absurd (hinj _ hcall _ hshown (Attribute.shownName_eq_iff.2 (by simp))) (by simp)
    · exact absurd (hinj _ hdata _ hshown (Attribute.shownName_eq_iff.2 (by simp))) (by simp)
  · rintro ⟨hcall, hdata⟩ a ha b hb hsame
    rcases Attribute.shownName_eq_iff.1 hsame with
      heq | ⟨rfl, rfl⟩ | ⟨rfl, rfl⟩ | ⟨rfl, rfl⟩ | ⟨rfl, rfl⟩
    · exact heq
    · exact absurd hb (hcall ha)
    · exact absurd ha (hcall hb)
    · exact absurd hb (hdata ha)
    · exact absurd ha (hdata hb)

/-- The names in a start tag differ exactly if no attribute is called like another one is shown. -/
theorem nodup_shownAttributes_iff :
    (h.shownAttributes.map Prod.fst).Nodup ↔ h.NamesApart := by
  have hid : "id" ∈ h.keptKeys.map Attribute.shownName ↔ "id" ∈ h.attributes.keys := by
    rw [Attribute.mem_map_shownName_iff (by simp), mem_keptKeys_iff _ (by simp [clashingNames])]
  have hclass : "class" ∈ h.keptKeys.map Attribute.shownName ↔ "class" ∈ h.attributes.keys := by
    rw [Attribute.mem_map_shownName_iff (by simp), mem_keptKeys_iff _ (by simp [clashingNames])]
  have hfront : ∀ name, name ∈ h.id.toList.map (fun _ => "id") ++
      (if h.shownClasses = [] then [] else ["class"]) ↔
        name = "id" ∧ h.id.isSome = true ∨ name = "class" ∧ h.shownClasses ≠ [] := by
    intro name
    cases h.id <;> split <;> simp_all
  have hnodup : (h.id.toList.map (fun _ => "id") ++
      if h.shownClasses = [] then [] else ["class"]).Nodup := by
    cases h.id <;> split <;> simp
  rw [map_fst_shownAttributes, List.nodup_append', nodup_map_shownName_iff]
  constructor
  · rintro ⟨-, ⟨hcall, hdata⟩, hdisjoint⟩
    refine ⟨fun hsome hmem => ?_, fun hclasses hmem => ?_, hcall, hdata⟩
    · exact hdisjoint ((hfront "id").2 (Or.inl ⟨rfl, hsome⟩)) (hid.2 hmem)
    · exact hdisjoint ((hfront "class").2 (Or.inr ⟨rfl, hclasses⟩)) (hclass.2 hmem)
  · intro hapart
    refine ⟨hnodup, ⟨hapart.call, hapart.data⟩, fun name hname hmem => ?_⟩
    rcases (hfront name).1 hname with ⟨rfl, hsome⟩ | ⟨rfl, hclasses⟩
    · exact hapart.id hsome (hid.1 hmem)
    · exact hapart.classes hclasses (hclass.1 hmem)

end Header

namespace Page

/-- A tag without its quotes and what stands between them. -/
def withoutValues (quoted : Bool) : List Char → List Char
  | [] => []
  | c :: cs =>
    if c = '"' then withoutValues (!quoted) cs
    else if quoted then withoutValues quoted cs
    else c :: withoutValues quoted cs

/-- The names of the attributes of a start tag, in order: of the words outside quotes, the first one
is the name of the tag, and the name of an attribute goes on to the equals sign. -/
def attributeNames (tag : List Char) : List (List Char) :=
  (Text.blankSeparated (withoutValues false tag)).tail.map (List.takeWhile (· ≠ '='))

section Names

theorem withoutValues_append
    {cs : List Char}
    (hcs : '"' ∉ cs)
    (rest : List Char) :
    withoutValues false (cs ++ rest) = cs ++ withoutValues false rest := by
  induction cs with
  | nil =>
      rfl
  | cons c cs ih =>
      rw [List.mem_cons, not_or] at hcs
      simp [withoutValues, Ne.symm hcs.1, ih hcs.2]

theorem withoutValues_value
    {value : List Char}
    (hvalue : '"' ∉ value)
    (rest : List Char) :
    withoutValues true (value ++ '"' :: rest) = withoutValues false rest := by
  induction value with
  | nil =>
      simp [withoutValues]
  | cons c value ih =>
      rw [List.mem_cons, not_or] at hvalue
      simp [withoutValues, Ne.symm hvalue.1, ih hvalue.2]

/-- An attribute as it stands in a start tag. It may have no value. -/
def writtenItem (item : List Char × Option (List Char)) : List Char :=
  ' ' :: (item.1 ++ item.2.toList.flatMap fun value => '=' :: '"' :: (value ++ ['"']))

theorem writtenPair_eq :
    writtenPair = fun pair => writtenItem (pair.1, some pair.2) := by
  funext pair
  simp [writtenPair, writtenItem]

/-- Whether a name can stand in a start tag. -/
structure IsPlainName (name : List Char) : Prop where
  nonempty : name ≠ []
  chars : ∀ c ∈ name, Text.isBlank c = false ∧ c ≠ '=' ∧ c ≠ '"' ∧ c ≠ '>'

/-- Whether an attribute can stand in a start tag. -/
def IsPlainItem (item : List Char × Option (List Char)) : Prop :=
  IsPlainName item.1 ∧ ∀ value ∈ item.2, '"' ∉ value ∧ '>' ∉ value

theorem IsPlainName.quote_not_mem
    {name : List Char}
    (hname : IsPlainName name) :
    '"' ∉ name :=
  fun hmem => (hname.chars _ hmem).2.2.1 rfl

theorem IsPlainName.close_not_mem
    {name : List Char}
    (hname : IsPlainName name) :
    '>' ∉ name :=
  fun hmem => (hname.chars _ hmem).2.2.2 rfl

/-- What is left of an attribute without its value. -/
def itemWord (item : List Char × Option (List Char)) : List Char :=
  item.1 ++ item.2.toList.map fun _ => '='

theorem isWord_itemWord
    {item : List Char × Option (List Char)}
    (hname : IsPlainName item.1) :
    Text.IsWord (itemWord item) := by
  refine ⟨by simp [itemWord, hname.nonempty], fun c hc => ?_⟩
  rcases List.mem_append.1 hc with hc | hc
  · exact (hname.chars c hc).1
  · obtain ⟨-, -, rfl⟩ := List.mem_map.1 hc
    decide

theorem takeWhile_itemWord
    {item : List Char × Option (List Char)}
    (hname : IsPlainName item.1) :
    (itemWord item).takeWhile (· ≠ '=') = item.1 := by
  refine takeWhile_append_eq_left (fun c hc => decide_eq_true (hname.chars c hc).2.1) ?_
  cases item.2 <;> simp

theorem withoutValues_items
    {items : List (List Char × Option (List Char))}
    (hitems : ∀ item ∈ items, IsPlainItem item) :
    withoutValues false (items.flatMap writtenItem) =
      (items.map itemWord).flatMap (' ' :: ·) := by
  induction items with
  | nil =>
      rfl
  | cons item items ih =>
      rw [List.forall_mem_cons] at hitems
      obtain ⟨name, value⟩ := item
      have hname := hitems.1.1.quote_not_mem
      have hrest := ih hitems.2
      rw [List.flatMap_cons, writtenItem, List.cons_append, List.append_assoc, ← List.cons_append,
        withoutValues_append (by simpa using hname)]
      cases value with
      | none =>
          simp [itemWord, hrest]
      | some value =>
          have hvalue := withoutValues_value (hitems.1.2 value rfl).1 (items.flatMap writtenItem)
          simp [itemWord, hrest, hvalue, withoutValues]

/-- The names of written attributes are read off the tag. -/
theorem attributeNames_written
    {tag : List Char}
    {items : List (List Char × Option (List Char))}
    (htag : IsPlainName tag)
    (hitems : ∀ item ∈ items, IsPlainItem item) :
    attributeNames (tag ++ items.flatMap writtenItem) = items.map Prod.fst := by
  have hwords : ∀ w ∈ tag :: items.map itemWord, Text.IsWord w := by
    rw [List.forall_mem_cons]
    refine ⟨⟨htag.nonempty, fun c hc => (htag.chars c hc).1⟩, fun w hw => ?_⟩
    obtain ⟨item, hitem, rfl⟩ := List.mem_map.1 hw
    exact isWord_itemWord (hitems item hitem).1
  rw [attributeNames, withoutValues_append htag.quote_not_mem, withoutValues_items hitems,
    Text.blankSeparated_flatMap hwords, List.tail_cons, List.map_map]
  exact List.map_congr_left fun item hitem => takeWhile_itemWord (hitems item hitem).1

theorem isPlainName_of_isAttributeChar
    {name : List Char}
    (hnonempty : name ≠ [])
    (hname : ∀ c ∈ name, Token.isAttributeChar c = true) :
    IsPlainName name := by
  refine ⟨hnonempty, fun c hc => ⟨?_, ?_, ?_, ?_⟩⟩
  · have hchar := hname c hc
    simp only [Token.isAttributeChar, Bool.or_eq_true, decide_eq_true_eq] at hchar
    rcases hchar with (((hchar | rfl) | rfl) | rfl) | rfl
    · exact isBlank_of_isIdentifierChar (by simp [isIdentifierChar, hchar])
    · decide
    · decide
    · decide
    · decide
  all_goals
    rintro rfl
    exact absurd (hname _ hc) (by decide)

theorem isPlainName_of_all
    {name : List Char}
    (hname : (!name.isEmpty && name.all Token.isAttributeChar) = true) :
    IsPlainName name := by
  rw [Bool.and_eq_true, Bool.not_eq_true', List.isEmpty_eq_false_iff, List.all_eq_true] at hname
  exact isPlainName_of_isAttributeChar hname.1 hname.2

theorem nonempty_of_mem_shownAttributes
    {header : Header}
    {children : List Node}
    (hclean : (Node.element header children).Clean)
    {a : String × String}
    (ha : a ∈ header.shownAttributes) :
    a.1.toList ≠ [] := by
  have hname := List.mem_map_of_mem ha (f := Prod.fst)
  simp only [Header.map_fst_shownAttributes, Header.keptKeys, List.mem_append, List.mem_map,
    List.mem_filter] at hname
  rcases hname with (⟨_, -, hname⟩ | hname) | ⟨_, ⟨entry, hentry, rfl⟩, hname⟩
  · simp [← hname]
  · split at hname <;> simp_all
  · have hkey := (hclean.2 entry hentry.1).1.nonempty
    rw [← hname, Attribute.shownName]
    split_ifs
    · simp
    · simp
    · exact hkey

/-- The names that are read off the start tag of an element are those that it shows. -/
theorem attributeNames_startChars
    {header : Header}
    {children : List Node}
    (hclean : (Node.element header children).Clean) :
    attributeNames (startChars header) = header.shownAttributes.map fun a => a.1.toList := by
  have htag : IsPlainName header.tag.toList := by
    obtain ⟨first, rest, hlist, -, hchars⟩ := exists_of_isIdentifier hclean.1
    refine isPlainName_of_isAttributeChar (by simp [hlist]) fun c hc => ?_
    have hc := hchars c hc
    simp only [isIdentifierChar, Bool.or_eq_true] at hc
    simp only [Token.isAttributeChar, Bool.or_eq_true]
    exact Or.inl (Or.inl hc)
  have hitems : ∀ item ∈ (writtenPairs header).map fun pair => (pair.1, some pair.2),
      IsPlainItem item := by
    intro item hitem
    obtain ⟨pair, hpair, rfl⟩ := List.mem_map.1 hitem
    have hchars := not_mem_writtenPairs hclean hpair
    obtain ⟨a, ha, rfl⟩ := List.mem_map.1 hpair
    refine ⟨isPlainName_of_isAttributeChar (nonempty_of_mem_shownAttributes hclean ha)
      (isAttributeChar_of_mem_shownAttributes hclean ha), fun value hvalue => ?_⟩
    cases hvalue
    exact hchars.2.2
  have hnames := attributeNames_written htag hitems
  rw [List.flatMap_map, List.map_map] at hnames
  simpa [startChars, writtenPairs, writtenPair_eq, Function.comp_def] using hnames

end Names

section StartTags

/-- The start tags of a whole page, of its head too. -/
def allStartTags (page : List Char) : List (List Char) :=
  (contentsOf page).filterMap Piece.startTag?

/-- Whether a text adds start tags to a page, whatever comes behind it. -/
def Adds
    (cs : List Char)
    (tags : List (List Char)) : Prop :=
  ∀ rest, allStartTags (cs ++ rest) = tags ++ allStartTags rest

theorem Adds.append
    {cs ds : List Char}
    {tags others : List (List Char)}
    (hcs : Adds cs tags)
    (hds : Adds ds others) :
    Adds (cs ++ ds) (tags ++ others) := by
  intro rest
  rw [List.append_assoc, hcs, hds, List.append_assoc]

theorem startTag?_contents_text
    (chars : List Char) :
    (Piece.text chars).contents.filterMap Piece.startTag? = [] := by
  simp [Piece.contents, Piece.startTag?]

/-- A tag and the text before it. -/
theorem adds_tag
    {text tag : List Char}
    (htext : '<' ∉ text)
    (htag : '>' ∉ tag) :
    Adds (text ++ '<' :: (tag ++ ['>'])) (Piece.tag tag).startTag?.toList := by
  intro rest
  have hcontents := contentsOf_tag htext htag rest
  simp only [allStartTags, List.append_assoc, List.cons_append, List.nil_append, hcontents,
    List.filterMap_append, startTag?_contents_text]
  cases hstart : (Piece.tag tag).startTag? <;> simp [hstart]

theorem adds_newline :
    Adds ['\n'] [] :=
  fun rest => by simp [allStartTags, contentsOf_newline]

/-- A line with one tag. -/
theorem adds_line
    {s : String}
    (tag : List Char)
    (hs : s.toList = '<' :: (tag ++ ['>']))
    (htag : '>' ∉ tag)
    (depth : Nat) :
    Adds (line depth s).chars (Piece.tag tag).startTag?.toList := by
  rw [chars_line, hs, ← List.append_nil (Piece.tag tag).startTag?.toList]
  exact (adds_tag (open_not_mem_margin depth) htag).append adds_newline

/-- No start tag is closed by what is written inside of it. -/
theorem close_not_mem_written
    {tag : List Char}
    {items : List (List Char × Option (List Char))}
    (htag : IsPlainName tag)
    (hitems : ∀ item ∈ items, IsPlainItem item) :
    '>' ∉ tag ++ items.flatMap writtenItem := by
  rw [List.mem_append, List.mem_flatMap]
  rintro (hmem | ⟨item, hitem, hmem⟩)
  · exact htag.close_not_mem hmem
  · obtain ⟨hname, hvalue⟩ := hitems item hitem
    have hclose := hname.close_not_mem
    cases hitem : item.2 <;> simp_all [writtenItem]

theorem isPlainItem_escape
    {name : List Char}
    (hname : IsPlainName name)
    (s : String)
    {ending : List Char}
    (hending : '"' ∉ ending ∧ '>' ∉ ending) :
    IsPlainItem (name, some ((escape s).toList ++ ending)) := by
  refine ⟨hname, fun value hvalue => ?_⟩
  cases hvalue
  have hquote : '"' ∉ (escape s).toList := not_mem_escape s (Or.inr (Or.inr rfl))
  have hclose : '>' ∉ (escape s).toList := not_mem_escape s (Or.inr (Or.inl rfl))
  simp [hquote, hclose, hending]

/-- The attributes of the tag that links the stylesheet. -/
def stylesheetItems (stem : String) : List (List Char × Option (List Char)) :=
  [("rel".toList, some "stylesheet".toList),
    ("href".toList, some ((escape stem).toList ++ ".css".toList))]

/-- The attributes of the tag that loads the script. -/
def scriptItems (stem : String) : List (List Char × Option (List Char)) :=
  [("src".toList, some ((escape stem).toList ++ ".js".toList)), ("defer".toList, none)]

theorem isPlainItem_stylesheetItems
    (stem : String) :
    ∀ item ∈ stylesheetItems stem, IsPlainItem item := by
  rw [stylesheetItems, List.forall_mem_cons, List.forall_mem_singleton]
  refine ⟨⟨isPlainName_of_all (by decide), fun value hvalue => ?_⟩, ?_⟩
  · rw [← Option.mem_some_iff.1 hvalue]
    decide
  · exact isPlainItem_escape (isPlainName_of_all (by decide)) stem (by decide)

theorem isPlainItem_scriptItems
    (stem : String) :
    ∀ item ∈ scriptItems stem, IsPlainItem item := by
  rw [scriptItems, List.forall_mem_cons, List.forall_mem_singleton]
  refine ⟨isPlainItem_escape (isPlainName_of_all (by decide)) stem (by decide), ?_⟩
  exact ⟨isPlainName_of_all (by decide), by simp⟩

/-- The start tags that every page begins with. -/
def openingTags : List (List Char) :=
  ["!DOCTYPE html".toList, "html lang=\"en\"".toList, "head".toList,
    "meta charset=\"UTF-8\"".toList,
    "meta name=\"viewport\" content=\"width=device-width, initial-scale=1.0\"".toList,
    "meta name=\"generator\" content=\"htmlx\"".toList, "title".toList]

/-- The start tags above the nodes of a page. -/
def headTags (stem : String) : List (List Char) :=
  openingTags ++ ["link".toList ++ (stylesheetItems stem).flatMap writtenItem, "body".toList]

/-- The start tags below the nodes of a page. -/
def footTags (stem : String) : List (List Char) :=
  ["script".toList ++ (scriptItems stem).flatMap writtenItem]

theorem adds_head
    (stem : String) :
    Adds ((head stem).flatMap Fragment.chars) (headTags stem) := by
  have htitle : Adds (line 1 ("<title>" ++ escape (Text.title stem) ++ "</title>")).chars
      ["title".toList] := by
    have hstart : Adds ((margin 1).toList ++ '<' :: ("title".toList ++ ['>'])) ["title".toList] :=
      adds_tag (open_not_mem_margin 1) (by decide)
    have hend : Adds ((escape (Text.title stem)).toList ++ '<' :: ("/title".toList ++ ['>'])) [] :=
      adds_tag (not_mem_escape _ (Or.inl rfl)) (by decide)
    simpa [chars_line] using (hstart.append hend).append adds_newline
  have hlink : Adds (line 1 ("<link rel=\"stylesheet\" href=\"" ++ escape stem ++ ".css\">")).chars
      ["link".toList ++ (stylesheetItems stem).flatMap writtenItem] := by
    have hclose : '>' ∉ "link".toList ++ (stylesheetItems stem).flatMap writtenItem :=
      close_not_mem_written (isPlainName_of_all (by decide)) (isPlainItem_stylesheetItems stem)
    refine adds_line _ ?_ hclose 1
    simp [stylesheetItems, writtenItem]
  have hline (depth : Nat) (tag : String) (htag : '>' ∉ tag.toList) :
      Adds (line depth ("<" ++ tag ++ ">")).chars (Piece.tag tag.toList).startTag?.toList :=
    adds_line tag.toList (by simp) htag depth
  exact (hline 0 "!DOCTYPE html" (by decide)).append <|
    (hline 0 "html lang=\"en\"" (by decide)).append <|
    (hline 0 "head" (by decide)).append <|
    (hline 1 "meta charset=\"UTF-8\"" (by decide)).append <|
    (hline 1 "meta name=\"viewport\" content=\"width=device-width, initial-scale=1.0\""
      (by decide)).append <|
    (hline 1 "meta name=\"generator\" content=\"htmlx\"" (by decide)).append <|
    htitle.append <| hlink.append <| (hline 0 "/head" (by decide)).append <|
    (hline 0 "body" (by decide)).append fun _ => rfl

theorem adds_foot
    (stem : String) :
    Adds ((foot stem).flatMap Fragment.chars) (footTags stem) := by
  have hscript : Adds (line 1 ("<script src=\"" ++ escape stem ++ ".js\" defer></script>")).chars
      ["script".toList ++ (scriptItems stem).flatMap writtenItem] := by
    have hclose : '>' ∉ "script".toList ++ (scriptItems stem).flatMap writtenItem :=
      close_not_mem_written (isPlainName_of_all (by decide)) (isPlainItem_scriptItems stem)
    have hstart := adds_tag (open_not_mem_margin 1) hclose
    have hend : Adds ([] ++ '<' :: ("/script".toList ++ ['>'])) [] :=
      adds_tag List.not_mem_nil (by decide)
    simpa [chars_line, scriptItems, writtenItem, Piece.startTag?] using
      (hstart.append hend).append adds_newline
  exact hscript.append <| (adds_line "/body".toList (by decide) (by decide) 0).append <|
    (adds_line "/html".toList (by decide) (by decide) 0).append fun _ => rfl

/-- The start tags of a page are those of the elements that it shows between those of its head and
its foot. -/
theorem allStartTags_html
    {document : Document}
    (hclean : ∀ n ∈ Node.preorderList document, n.Clean)
    (file : String) :
    allStartTags (document.html file).toList =
      headTags (stemOf file) ++ document.shownHeaders.map startChars ++ footTags (stemOf file) := by
  have hbody : Adds ((nodesFragments 1 document).flatMap Fragment.chars)
      (document.shownHeaders.map startChars) := by
    intro rest
    rw [allStartTags, contentsOf_body hclean, List.filterMap_append,
      filterMap_startTag?_pieces hclean, allStartTags]
  have hpage := (((adds_head (stemOf file)).append hbody).append (adds_foot (stemOf file))) []
  simpa [Document.toList_html, fragments, allStartTags, contentsOf_nil] using hpage

/-- What every page has above its nodes repeats no attribute. -/
theorem nodup_attributeNames_headTags
    (stem : String) :
    ∀ tag ∈ headTags stem, (attributeNames tag).Nodup := by
  have hlink : (attributeNames
      ("link".toList ++ (stylesheetItems stem).flatMap writtenItem)).Nodup := by
    rw [attributeNames_written (isPlainName_of_all (by decide)) (isPlainItem_stylesheetItems stem)]
    exact show ["rel".toList, "href".toList].Nodup by decide
  rw [headTags, List.forall_mem_append, List.forall_mem_cons, List.forall_mem_singleton]
  exact ⟨by decide +kernel, hlink, by decide +kernel⟩

theorem nodup_attributeNames_footTags
    (stem : String) :
    ∀ tag ∈ footTags stem, (attributeNames tag).Nodup := by
  rw [footTags, List.forall_mem_singleton,
    attributeNames_written (isPlainName_of_all (by decide)) (isPlainItem_scriptItems stem)]
  exact show ["src".toList, "defer".toList].Nodup by decide

/-- The start tags of a page are those of the elements that it shows and some more, which repeat no
name. -/
theorem exists_allStartTags_html
    {document : Document}
    (hclean : ∀ n ∈ Node.preorderList document, n.Clean)
    (file : String) :
    ∃ above below,
      allStartTags (document.html file).toList =
        above ++ document.shownHeaders.map startChars ++ below ∧
      ∀ tag ∈ above ++ below, (attributeNames tag).Nodup :=
  ⟨_, _, allStartTags_html hclean file, List.forall_mem_append.2
    ⟨nodup_attributeNames_headTags _, nodup_attributeNames_footTags _⟩⟩

end StartTags

end Page

/-- The start tags of a compiled page repeat no attribute exactly if no attribute of an element on
it is called like its id, its classes or a directive of it is shown. -/
theorem compile_attributeNames_nodup_iff
    {source file : String}
    {options : CompileOptions}
    {bundle : Bundle}
    (hcompile : compile source file options = .ok bundle) :
    ∃ document, Document.read source file = .ok document ∧
      ((∀ tag ∈ Page.allStartTags bundle.html.toList, (Page.attributeNames tag).Nodup) ↔
        ∀ h ∈ document.shownHeaders, h.NamesApart) := by
  obtain ⟨document, warnings, hread, hvalid, rfl⟩ := exists_document_of_compile hcompile
  have hclean := Document.clean_of_isOk hread hvalid
  have hheader : ∀ h ∈ document.shownHeaders,
      ((Page.attributeNames (Page.startChars h)).Nodup ↔ h.NamesApart) := by
    intro h hh
    obtain ⟨children, hnode⟩ := Document.mem_preorderList_of_mem_headers
      (Document.mem_headers_of_mem_shownHeaders hh)
    rw [Page.attributeNames_startChars (hclean _ hnode), ← Header.nodup_shownAttributes_iff,
      ← List.nodup_map_iff (fun _ _ => String.toList_injective), List.map_map]
    rfl
  obtain ⟨above, below, htags, hfixed⟩ := Page.exists_allStartTags_html hclean file
  refine ⟨document, hread, ?_⟩
  rw [Document.html_bundle, htags]
  simp only [List.forall_mem_append, List.forall_mem_map] at hfixed ⊢
  constructor
  · rintro ⟨⟨-, hnodup⟩, -⟩ h hh
    exact (hheader h hh).1 (hnodup h hh)
  · intro hapart
    exact ⟨⟨hfixed.1, fun h hh => (hheader h hh).2 (hapart h hh)⟩, hfixed.2⟩

/-- An element with an id, a class, both directives, a style that moves to the stylesheet and an
attribute that the page leaves out. -/
def namedPage : String :=
  "p#top.note(style: \"color: red\", ⚡-call: \"load\", ⚡-data: \"user\", title: \"a\", " ++
    "⚡-x: \"b\")\n"

def namedPageTag : String :=
  "p id=\"top\" class=\"note\" data-api-call=\"load\" data-dynamic=\"user\" title=\"a\""

theorem compile_attributeNames_nodup_iff_namedPage :
    ∃ bundle, compile namedPage "page" CompileOptions.standard = .ok bundle ∧
      Page.startTags bundle.html.toList = [namedPageTag.toList] ∧
      (∀ tag ∈ Page.allStartTags bundle.html.toList, (Page.attributeNames tag).Nodup) ∧
      ∃ document, Document.read namedPage "page" = .ok document ∧
        ∀ h ∈ document.shownHeaders, h.NamesApart := by
  have hok : (compile namedPage "page" CompileOptions.standard).isOk = true := by decide +kernel
  have hshown : (Document.read namedPage "page").toOption.map (fun document =>
        (document.shownHeaders.map Page.startChars,
          document.shownHeaders.all fun h => decide (h.shownAttributes.map Prod.fst).Nodup)) =
      some ([namedPageTag.toList], true) := by
    decide +kernel
  cases hcompile : compile namedPage "page" CompileOptions.standard with
  | error e =>
      rw [hcompile] at hok
      cases hok
  | ok bundle =>
      obtain ⟨document, hread, hnodup⟩ := compile_attributeNames_nodup_iff hcompile
      rw [hread] at hshown
      obtain ⟨htags, hnames⟩ := Prod.mk.inj (Option.some.inj hshown)
      have hapart : ∀ h ∈ document.shownHeaders, h.NamesApart := fun h hh =>
        h.nodup_shownAttributes_iff.1 (of_decide_eq_true (List.all_eq_true.1 hnames h hh))
      exact ⟨bundle, rfl, (startTags_of_compile hcompile hread).trans htags, hnodup.2 hapart,
        document, hread, hapart⟩

/-- An element with an id and an attribute of that name. Both are shown. -/
def doubleId : String := "p#a(id: \"b\")\n"

theorem attributeNames_doubleId_repeat :
    ∃ bundle, compile doubleId "index.htmlx" CompileOptions.standard = .ok bundle ∧
      ∃ tag ∈ Page.allStartTags bundle.html.toList, ¬(Page.attributeNames tag).Nodup := by
  have hok : (compile doubleId "index.htmlx" CompileOptions.standard).isOk = true := by
    decide +kernel
  -- The characters of the fragments, since those of the written page are slow to decode.
  have hrepeat : (Document.read doubleId "index.htmlx").toOption.any (fun document =>
      (Page.allStartTags ((Page.fragments document "index.htmlx").flatMap Page.Fragment.chars)).any
        fun tag => decide ¬(Page.attributeNames tag).Nodup) = true := by decide +kernel
  cases hcompile : compile doubleId "index.htmlx" CompileOptions.standard with
  | error e =>
      rw [hcompile] at hok
      cases hok
  | ok bundle =>
      obtain ⟨document, warnings, hread, -, rfl⟩ := exists_document_of_compile hcompile
      simp only [hread, Except.toOption, Option.any_some, List.any_eq_true,
        decide_eq_true_eq] at hrepeat
      refine ⟨_, rfl, ?_⟩
      rwa [Document.html_bundle, Document.toList_html]

end BlockMarkup
