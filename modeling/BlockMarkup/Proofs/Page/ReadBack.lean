import BlockMarkup.Proofs.Page.Attributes
import BlockMarkup.Proofs.Page.Body
import BlockMarkup.Proofs.Page.SourceMap
import BlockMarkup.Proofs.Text.Blank

/-!
# A page carries its document

A document is a sequence of events: elements start and stop, and texts stand between. The tags in
the body of a page and the lines between them are these events, one after another, and nothing
else: no string of the source can open, close or hide a tag, or move a quote. Each start tag
splits in one way, and its attributes are the ones that its element shows. Only texts without
characters leave no trace.

The proof follows the page from left to right. What a piece of the page contributes does not
depend on what comes behind it, so the statements about nodes carry the rest of the page along.
-/

namespace BlockMarkup

namespace Page

inductive Event where
  | start (header : Header)
  | stop (header : Header)
  | text (value : String)
  deriving DecidableEq

/-- `event.ReadsAs piece`: a reader of the page takes `piece` for the event. The start of an
element is a tag that splits in one way, into the name and the shown attributes of the element. -/
def Event.ReadsAs : Event → Piece → Prop
  | start header, .tag chars =>
    ∃ split, Splits chars split ∧ (∀ other, Splits chars other → other = split) ∧
      split.1 = header.tag.toList ∧
      split.2.map (fun pair => (pair.1, unescape pair.2)) =
        header.shownAttributes.map fun a => (a.1.toList, a.2.toList)
  | stop header, .tag chars => chars = '/' :: header.tag.toList
  | text value, .text chars => chars = value.toList
  | _, _ => False

end Page

namespace Node

open Page (Event)

mutual

/-- The events of a node. A void element does not stop, and what is inside it does not happen. -/
def events : Node → List Event
  | .element header children =>
    .start header :: if header.isVoid then [] else eventsList children ++ [.stop header]
  | .text run => [.text run.value]

def eventsList : List Node → List Event
  | [] => []
  | n :: rest => n.events ++ eventsList rest

end

theorem eventsList_eq_flatMap
    (ns : List Node) :
    eventsList ns = ns.flatMap events := by
  induction ns with
  | nil =>
      rfl
  | cons n rest ih =>
      rw [eventsList, ih, List.flatMap_cons]

theorem mem_preorder_of_start_mem_events
    {n : Node}
    {header : Header}
    (hstart : .start header ∈ n.events) :
    .element header [] ∈ n.preorder := by
  induction n with
  | element found children ih =>
      rw [events, List.mem_cons] at hstart
      rw [preorder, List.mem_cons]
      rcases hstart with heq | hstart
      · injection heq with heq
        exact Or.inl (heq ▸ rfl)
      · right
        split at hstart
        · simp at hstart
        · have hinside : .start header ∈ eventsList children := by
            simpa using hstart
          rw [eventsList_eq_flatMap, List.mem_flatMap] at hinside
          obtain ⟨child, hchild, hmem⟩ := hinside
          exact mem_preorderList.2 ⟨child, hchild, ih child hchild hmem⟩
  | text run =>
      simp [events] at hstart

/-- Whether the label of a node can be written without being mistaken for something else. -/
def Clean : Node → Prop
  | .element header _ =>
    isIdentifier header.tag = true ∧ ∀ entry ∈ header.attributes.entries,
      Token.IsAttributeName entry.1.toList ∧ Attribute.Suits entry.1 entry.2
  | .text run => '\n' ∉ run.value.toList ∧ run.value.toList.head? ≠ some ' '

theorem clean_of_preorder
    {n : Node}
    (hclean : ∀ m ∈ n.preorder, m.Clean) :
    n.Clean := by
  cases n with
  | element header children =>
      exact hclean (.element header []) List.mem_cons_self
  | text run =>
      exact hclean (.text run) List.mem_cons_self

/-- What comes from tokens and has no errors can be told apart in a page. -/
theorem ComesFrom.clean
    {source : List Char}
    {n : Node}
    (hfrom : n.ComesFrom (Token.Faithful source) Token.NamesAttribute)
    (hvalid : ∀ header children, n = .element header children → header.errors = []) :
    n.Clean := by
  cases n with
  | element header children =>
      refine ⟨Header.isIdentifier_tag (hvalid header children rfl), fun entry hentry => ?_⟩
      obtain ⟨⟨t, ht, hkind, hname⟩, hsuits⟩ := hfrom.2 entry hentry
      exact ⟨hname ▸ ht hkind, hsuits⟩
  | text run =>
      obtain ⟨t, ht, hkind, hvalue, -⟩ := hfrom
      rw [Clean, hvalue]
      exact ⟨ht.oneLine hkind, ht.unindented hkind⟩

end Node

namespace Page

section StartTag

variable {header : Header} {children : List Node}

/-- The attributes of an element as they are written. -/
def writtenPairs (header : Header) : List (List Char × List Char) :=
  header.shownAttributes.map fun a => (a.1.toList, (escape a.2).toList)

/-- A start tag without its brackets. -/
def startChars (header : Header) : List Char :=
  header.tag.toList ++ (writtenPairs header).flatMap writtenPair

theorem toList_join
    (ss : List String) :
    (Text.join "" ss).toList = ss.flatMap String.toList := by
  fun_induction Text.join "" ss with
  | case1 =>
      rfl
  | case2 s =>
      simp
  | case3 s ss hss ih =>
      simp [ih]

theorem toList_attributeText
    (a : String × String) :
    (attributeText a).toList = writtenPair (a.1.toList, (escape a.2).toList) := by
  simp [attributeText, writtenPair]

/-- A start tag is written as its characters between angle brackets. -/
theorem toList_startTag
    (hclean : (Node.element header children).Clean) :
    (startTag header).toList = '<' :: (startChars header ++ ['>']) := by
  have hattributes := attributes_eq_shownAttributes fun entry hentry => (hclean.2 entry hentry).2
  simp only [startTag, startChars, writtenPairs, hattributes, String.toList_append, toList_join,
    List.flatMap_map, toList_attributeText]
  simp

/-- Every name that is shown could have been written in a source. -/
theorem isAttributeChar_of_mem_shownAttributes
    (hclean : (Node.element header children).Clean)
    {a : String × String}
    (ha : a ∈ header.shownAttributes) :
    ∀ c ∈ a.1.toList, Token.isAttributeChar c = true := by
  rw [Header.shownAttributes, List.mem_append, List.mem_append] at ha
  rcases ha with (hid | hclass) | hother
  · obtain ⟨id, -, rfl⟩ := List.mem_map.1 hid
    exact List.all_eq_true.1 (by decide : "id".toList.all Token.isAttributeChar = true)
  · split at hclass
    · simp at hclass
    · rw [List.mem_singleton.1 hclass]
      exact List.all_eq_true.1 (by decide : "class".toList.all Token.isAttributeChar = true)
  · obtain ⟨entry, hentry, rfl⟩ := List.mem_map.1 hother
    have hname := (hclean.2 entry (List.mem_of_mem_filter hentry)).1
    unfold Attribute.shownName
    split_ifs
    · exact List.all_eq_true.1 (by decide : "data-api-call".toList.all Token.isAttributeChar = true)
    · exact List.all_eq_true.1 (by decide : "data-dynamic".toList.all Token.isAttributeChar = true)
    · exact hname.chars

/-- Neither names nor values can end an attribute or a tag. -/
theorem not_mem_writtenPairs
    (hclean : (Node.element header children).Clean)
    {pair : List Char × List Char}
    (hpair : pair ∈ writtenPairs header) :
    '=' ∉ pair.1 ∧ '>' ∉ pair.1 ∧ '"' ∉ pair.2 ∧ '>' ∉ pair.2 := by
  obtain ⟨a, ha, rfl⟩ := List.mem_map.1 hpair
  have hname := isAttributeChar_of_mem_shownAttributes hclean ha
  have hquote : '"' ∉ (escape a.2).toList := not_mem_escape a.2 (Or.inr (Or.inr rfl))
  have hclose : '>' ∉ (escape a.2).toList := not_mem_escape a.2 (Or.inr (Or.inl rfl))
  dsimp only
  refine ⟨fun h => ?_, fun h => ?_, hquote, hclose⟩
  · exact absurd (hname _ h) (by decide)
  · exact absurd (hname _ h) (by decide)

theorem not_mem_tag
    (hclean : (Node.element header children).Clean)
    {c : Char}
    (hc : isIdentifierChar c = false) :
    c ∉ header.tag.toList := by
  obtain ⟨-, -, -, -, hchars⟩ := exists_of_isIdentifier hclean.1
  intro hmem
  simp [hchars c hmem] at hc

/-- A start tag ends where it is meant to. -/
theorem close_not_mem_startChars
    (hclean : (Node.element header children).Clean) :
    '>' ∉ startChars header := by
  rw [startChars, List.mem_append, not_or]
  refine ⟨not_mem_tag hclean (by decide), fun hmem => ?_⟩
  obtain ⟨pair, hpair, hmem⟩ := List.mem_flatMap.1 hmem
  obtain ⟨-, hname, -, hvalue⟩ := not_mem_writtenPairs hclean hpair
  simp [writtenPair, hname, hvalue] at hmem

/-- A start tag falls into its tag and its attributes in one way only. -/
theorem splits_startChars
    (hclean : (Node.element header children).Clean) :
    Splits (startChars header) (header.tag.toList, writtenPairs header) where
  written := rfl
  tag := not_mem_tag hclean (by decide)
  pairs := fun _ hpair =>
    have hchars := not_mem_writtenPairs hclean hpair
    ⟨hchars.1, hchars.2.2.1⟩

end StartTag

/-- The piece of a page that belongs to an event. -/
def Event.piece : Event → Piece
  | start header => .tag (startChars header)
  | stop header => .tag ('/' :: header.tag.toList)
  | text value => .text value.toList

/-- The pieces of a page that belong to events. A text without characters has none. -/
def pieces (events : List Event) : List Piece := (events.filter (· ≠ .text "")).map Event.piece

theorem pieces_append
    (events others : List Event) :
    pieces (events ++ others) = pieces events ++ pieces others := by
  rw [pieces, List.filter_append, List.map_append, pieces, pieces]

theorem pieces_tag
    {event : Event}
    (hevent : event ≠ .text "")
    (events : List Event) :
    pieces (event :: events) = event.piece :: pieces events := by
  simp [pieces, hevent]

section Nodes

theorem contentsOf_nodesFragments
    {depth : Nat}
    {ns : List Node}
    (hns : ∀ n ∈ ns, ∀ rest, contentsOf ((nodeFragments depth n).flatMap Fragment.chars ++ rest) =
      pieces n.events ++ contentsOf rest)
    (rest : List Char) :
    contentsOf ((nodesFragments depth ns).flatMap Fragment.chars ++ rest) =
      pieces (Node.eventsList ns) ++ contentsOf rest := by
  induction ns with
  | nil =>
      rfl
  | cons n ns ih =>
      rw [List.forall_mem_cons] at hns
      rw [nodesFragments, Node.eventsList, List.flatMap_append, List.append_assoc, hns.1, ih hns.2,
        pieces_append, List.append_assoc]

theorem open_not_mem_margin
    (depth : Nat) :
    '<' ∉ (margin depth).toList := by
  simp [margin]

theorem margin_zero :
    (margin 0).toList = [] := rfl

theorem contents_nil :
    (Piece.text []).contents = [] := contents_margin 0

theorem contentsOf_newline
    (rest : List Char) :
    contentsOf ('\n' :: rest) = contentsOf rest := by
  have hline := contentsOf_line List.not_mem_nil rest
  rwa [contents_nil, List.nil_append, List.nil_append] at hline

/-- A text is read back from its line, without the margin. -/
theorem contents_text
    {run : TextRun}
    (hclean : (Node.text run).Clean)
    (depth : Nat) :
    (Piece.text ((margin depth).toList ++ (escape run.value).toList)).contents =
      pieces (Node.text run).events := by
  rw [contents_margin_escape hclean.1 hclean.2, Node.events]
  by_cases hvalue : run.value = ""
  · simp [pieces, hvalue]
  · simp [pieces, hvalue, Event.piece]

/-- What stands between the tags of an element is read back as its children. -/
theorem contentsOf_contentFragments
    {depth : Nat}
    {children : List Node}
    (hclean : ∀ n ∈ children, n.Clean)
    (hchildren : ∀ n ∈ children, ∀ rest,
      contentsOf ((nodeFragments (depth + 1) n).flatMap Fragment.chars ++ rest) =
        pieces n.events ++ contentsOf rest)
    {tag : List Char}
    (htag : '>' ∉ tag)
    (rest : List Char) :
    contentsOf ((contentFragments depth children).flatMap Fragment.chars ++
        '<' :: (tag ++ '>' :: rest)) =
      pieces (Node.eventsList children) ++ .tag tag :: contentsOf rest := by
  unfold contentFragments
  split
  · -- nothing between the tags
    have hempty := contentsOf_tag List.not_mem_nil htag rest
    simpa [contents_nil, Node.eventsList, pieces] using hempty
  · -- a text between the tags, without a margin
    next run =>
      have hrun := contents_text (hclean (.text run) List.mem_cons_self) 0
      have hopen : '<' ∉ (escape run.value).toList := not_mem_escape _ (Or.inl rfl)
      have htext := contentsOf_tag hopen htag rest
      rw [margin_zero, List.nil_append] at hrun
      rw [hrun] at htext
      simpa [textFragments, Fragment.chars, Node.eventsList] using htext
  · -- nodes on lines of their own, and the end tag behind a margin
    have hnodes := contentsOf_nodesFragments hchildren
      ((margin depth).toList ++ '<' :: (tag ++ '>' :: rest))
    rw [contentsOf_tag (open_not_mem_margin depth) htag, contents_margin, List.nil_append] at hnodes
    rw [← contentsOf_newline] at hnodes
    simpa [Fragment.chars] using hnodes

theorem contentsOf_startTag
    {header : Header}
    {children : List Node}
    (hclean : (Node.element header children).Clean)
    (depth : Nat)
    (behind : List Fragment)
    (rest : List Char) :
    contentsOf ((.text (margin depth) :: .mark .element header.position (some header.tag) ::
        .text (startTag header) :: behind).flatMap Fragment.chars ++ rest) =
      .tag (startChars header) :: contentsOf (behind.flatMap Fragment.chars ++ rest) := by
  have htag := contentsOf_tag (open_not_mem_margin depth) (close_not_mem_startChars hclean)
    (behind.flatMap Fragment.chars ++ rest)
  rw [contents_margin, List.nil_append] at htag
  simpa [Fragment.chars, toList_startTag hclean] using htag

/-- The pieces of a node do not depend on what comes behind it. -/
theorem contentsOf_nodeFragments
    (n : Node)
    (hclean : ∀ m ∈ n.preorder, m.Clean)
    (depth : Nat)
    (rest : List Char) :
    contentsOf ((nodeFragments depth n).flatMap Fragment.chars ++ rest) =
      pieces n.events ++ contentsOf rest := by
  induction n generalizing depth rest with
  | element header children ih =>
      have hheader : (Node.element header children).Clean := Node.clean_of_preorder hclean
      have hinside : ∀ child ∈ children, ∀ m ∈ child.preorder, m.Clean := fun child hchild m hm =>
        hclean m (Node.mem_preorder_of_child hchild hm)
      rw [nodeFragments_element, contentsOf_startTag hheader, Node.events]
      split
      · simpa [Fragment.chars, pieces, Event.piece] using contentsOf_newline rest
      · have hclose : '>' ∉ '/' :: header.tag.toList := by
          simpa using not_mem_tag hheader (by decide)
        have hcontent := contentsOf_contentFragments
          (fun child hchild => Node.clean_of_preorder (hinside child hchild))
          (fun child hchild => ih child hchild (hinside child hchild) (depth + 1)) hclose
          ('\n' :: rest)
        rw [contentsOf_newline] at hcontent
        simpa [Fragment.chars, endTag, pieces, pieces_tag, pieces_append, Event.piece]
          using hcontent
  | text run =>
      have hrun := contents_text (Node.clean_of_preorder hclean) depth
      have hopen : '<' ∉ (margin depth).toList ++ (escape run.value).toList := by
        rw [List.mem_append, not_or]
        exact ⟨open_not_mem_margin depth, not_mem_escape _ (Or.inl rfl)⟩
      have hline := contentsOf_line hopen rest
      rw [hrun] at hline
      simpa [nodeFragments, textFragments, Fragment.chars] using hline

end Nodes

/-- A start tag is read as the tag and the attributes of its element. -/
theorem start_readsAs_piece
    {header : Header}
    {children : List Node}
    (hclean : (Node.element header children).Clean) :
    (Event.start header).ReadsAs (Event.piece (.start header)) := by
  refine ⟨_, splits_startChars hclean, fun other => (splits_startChars hclean).unique, rfl, ?_⟩
  rw [writtenPairs, List.map_map]
  refine List.map_congr_left fun a _ => ?_
  simp [unescape_escape]

/-- Every event is read off the piece that belongs to it. -/
theorem forall₂_readsAs_pieces
    {document : Document}
    (hclean : ∀ n ∈ Node.preorderList document, n.Clean) :
    List.Forall₂ Event.ReadsAs ((Node.eventsList document).filter (· ≠ .text ""))
      (pieces (Node.eventsList document)) := by
  rw [pieces, List.forall₂_map_right_iff, List.forall₂_same]
  intro event hevent
  cases event with
  | start header =>
      have hstart := List.mem_of_mem_filter hevent
      rw [Node.eventsList_eq_flatMap, List.mem_flatMap] at hstart
      obtain ⟨n, hn, hstart⟩ := hstart
      have hmem := Node.mem_preorder_of_start_mem_events hstart
      exact start_readsAs_piece (hclean _ (Node.mem_preorderList.2 ⟨n, hn, hmem⟩))
  | stop header =>
      rfl
  | text value =>
      rfl

/-- The body of a page is read back as the events of its document. -/
theorem contentsOf_bodyOf_html
    {document : Document}
    (hclean : ∀ n ∈ Node.preorderList document, n.Clean)
    (file : String) :
    contentsOf (bodyOf (document.html file).toList) = pieces (Node.eventsList document) := by
  have hnode : ∀ n ∈ document, ∀ m ∈ n.preorder, m.Clean := fun n hn m hm =>
    hclean m (Node.mem_preorderList.2 ⟨n, hn, hm⟩)
  have hnodes := contentsOf_nodesFragments
    (fun n hn => contentsOf_nodeFragments n (hnode n hn) 1) []
  rw [List.append_nil, contentsOf_nil, List.append_nil] at hnodes
  rw [Document.toList_html, bodyOf_fragments, hnodes]

end Page

/-- The nodes of a document that is read without a fault and found valid can be told apart in its
page. -/
theorem Document.clean_of_isOk
    {source file : String}
    {document : Document}
    {threshold : Nat}
    (hread : Document.read source file = .ok document)
    (hvalid : (document.validate file threshold).isOk = true) :
    ∀ n ∈ Node.preorderList document, n.Clean := by
  intro n hn
  refine (read_sound hread n hn).clean fun header children heq => ?_
  exact errors_eq_nil_of_isOk hvalid (heq ▸ hn)

theorem contentsOf_bodyOf_of_compile
    {source file : String}
    {options : CompileOptions}
    {bundle : Bundle}
    {document : Document}
    (hcompile : compile source file options = .ok bundle)
    (hread : Document.read source file = .ok document) :
    Page.contentsOf (Page.bodyOf bundle.html.toList) = Page.pieces (Node.eventsList document) := by
  obtain ⟨found, warnings, hfound, hvalid, rfl⟩ := exists_document_of_compile hcompile
  cases hfound.symm.trans hread
  exact Page.contentsOf_bodyOf_html (Document.clean_of_isOk hread hvalid) file

/-- The body of a compiled page carries exactly the document. Its tags and the lines between them
are the events of the document, in order, save for texts without characters. -/
theorem compile_html_reads_as_events
    {source file : String}
    {options : CompileOptions}
    {bundle : Bundle}
    (hcompile : compile source file options = .ok bundle) :
    ∃ document, Document.read source file = .ok document ∧
      List.Forall₂ Page.Event.ReadsAs ((Node.eventsList document).filter (· ≠ .text ""))
        (Page.contentsOf (Page.bodyOf bundle.html.toList)) := by
  obtain ⟨document, warnings, hread, hvalid, rfl⟩ := exists_document_of_compile hcompile
  have hclean := Document.clean_of_isOk hread hvalid
  refine ⟨document, hread, ?_⟩
  rw [Document.html_bundle, Page.contentsOf_bodyOf_html hclean]
  exact Page.forall₂_readsAs_pieces hclean

/-- A page with a script of its own, quotes in an attribute, an anchored style, a directive and a
text that looks like markup. -/
def trickySource : String :=
  "div.card(style: \"color: red\", title: \"a \\\" > <b\", ⚡-call: \"/api\") \x7b\n" ++
    "  </body> & more\n\x7d\n" ++ "script(src: \"x.js\") \x7b\n\x7d\nbr\n"

def trickyPieces : List Page.Piece :=
  [.tag ("div class=\"card hx-1-1\" title=\"a &quot; &gt; &lt;b\" data-api-call=\"/api\"").toList,
    .text "</body> & more".toList, .tag "/div".toList, .tag "script src=\"x.js\"".toList,
    .tag "/script".toList, .tag "br".toList]

theorem compile_html_reads_as_events_trickySource :
    ∃ bundle, compile trickySource "page" CompileOptions.standard = .ok bundle ∧
      Page.contentsOf (Page.bodyOf bundle.html.toList) = trickyPieces ∧
      ∃ document, Document.read trickySource "page" = .ok document ∧
        List.Forall₂ Page.Event.ReadsAs ((Node.eventsList document).filter (· ≠ .text ""))
          trickyPieces := by
  have hok : (compile trickySource "page" CompileOptions.standard).isOk = true := by decide +kernel
  have hpieces : (Document.read trickySource "page").toOption.map
      (fun document => Page.pieces (Node.eventsList document)) = some trickyPieces := by
    decide +kernel
  cases hcompile : compile trickySource "page" CompileOptions.standard with
  | error e =>
      rw [hcompile] at hok
      cases hok
  | ok bundle =>
      obtain ⟨document, hread, hevents⟩ := compile_html_reads_as_events hcompile
      rw [hread] at hpieces
      have hbody : Page.contentsOf (Page.bodyOf bundle.html.toList) = trickyPieces :=
        (contentsOf_bodyOf_of_compile hcompile hread).trans (Option.some.inj hpieces)
      rw [hbody] at hevents
      exact ⟨bundle, rfl, hbody, document, hread, hevents⟩

end BlockMarkup
