import BlockMarkup.Proofs.Page.Stylesheet

/-!
# The start tags of a page

A page has one start tag for each element that it shows, in the order of the source. This is said of
every document, about the text of the page as it is written (`Page.holds_startTags`), and of
documents without errors about the tags that a reader of the page finds (`Page.startTags_html`).
-/

namespace BlockMarkup

namespace Document

/-- The headers of the elements that a page shows, each before those inside it. -/
def shownHeaders (document : Document) : List Header :=
  (Node.visibleList document).filterMap Node.header?

theorem mem_headers_of_mem_shownHeaders
    {document : Document}
    {h : Header}
    (hh : h ∈ document.shownHeaders) :
    h ∈ document.headers := by
  obtain ⟨n, hn, hheader⟩ := List.mem_filterMap.1 hh
  exact List.mem_filterMap.2 ⟨n, Node.mem_preorderList_of_mem_visibleList hn, hheader⟩

theorem mem_preorderList_of_mem_headers
    {document : Document}
    {h : Header}
    (hh : h ∈ document.headers) :
    ∃ children, .element h children ∈ Node.preorderList document := by
  obtain ⟨n, hn, hheader⟩ := List.mem_filterMap.1 hh
  cases n with
  | element header children =>
      cases hheader
      exact ⟨children, hn⟩
  | text run =>
      cases hheader

end Document

/-- An element is anchored exactly if it has an anchor. -/
theorem Header.isAnchored_eq_isSome
    (h : Header) :
    h.isAnchored = h.anchor.isSome := by
  rw [← Bool.not_inj_iff, ← h.isNone_anchor, Option.not_isSome]

namespace Text

/-- Whether pieces stand in a text one after another. -/
def Holds : List (List Char) → List Char → Prop
  | [], _ => True
  | piece :: pieces, text => ∃ before after, text = before ++ (piece ++ after) ∧ Holds pieces after

theorem Holds.behind
    {pieces : List (List Char)}
    {text : List Char}
    (h : Holds pieces text)
    (before : List Char) :
    Holds pieces (before ++ text) := by
  cases pieces with
  | nil =>
      trivial
  | cons piece pieces =>
      obtain ⟨above, after, rfl, hpieces⟩ := h
      exact ⟨before ++ above, after, by rw [List.append_assoc], hpieces⟩

theorem Holds.append
    {pieces others : List (List Char)}
    {text more : List Char}
    (h : Holds pieces text)
    (hmore : Holds others more) :
    Holds (pieces ++ others) (text ++ more) := by
  induction pieces generalizing text with
  | nil =>
      exact hmore.behind text
  | cons piece pieces ih =>
      obtain ⟨before, after, rfl, hpieces⟩ := h
      exact ⟨before, after ++ more, by simp, ih hpieces⟩

end Text

namespace Page

open Text (Holds)

/-- The start tags of nodes. -/
def startTagsOf (ns : List Node) : List (List Char) :=
  (ns.filterMap Node.header?).map fun h => (startTag h).toList

theorem holds_nodesFragments
    {depth : Nat}
    {ns : List Node}
    (hns : ∀ n ∈ ns,
      Holds (startTagsOf n.visible) ((nodeFragments depth n).flatMap Fragment.chars)) :
    Holds (startTagsOf (Node.visibleList ns))
      ((nodesFragments depth ns).flatMap Fragment.chars) := by
  induction ns with
  | nil =>
      trivial
  | cons n ns ih =>
      rw [List.forall_mem_cons] at hns
      simpa [startTagsOf, Node.visibleList, nodesFragments] using hns.1.append (ih hns.2)

theorem holds_contentFragments
    {depth : Nat}
    {children : List Node}
    (hchildren : ∀ n ∈ children,
      Holds (startTagsOf n.visible) ((nodeFragments (depth + 1) n).flatMap Fragment.chars)) :
    Holds (startTagsOf (Node.visibleList children))
      ((contentFragments depth children).flatMap Fragment.chars) := by
  unfold contentFragments
  split
  · trivial
  · trivial
  · have hnodes := (holds_nodesFragments hchildren).behind "\n".toList
    have hmargin : Holds [] (margin depth).toList := trivial
    simpa [Fragment.chars] using hnodes.append hmargin

/-- By induction over the tree: start tags stand in the order of the elements. -/
theorem holds_nodeFragments
    (n : Node)
    (depth : Nat) :
    Holds (startTagsOf n.visible) ((nodeFragments depth n).flatMap Fragment.chars) := by
  induction n generalizing depth with
  | element header children ih =>
      have hbehind : Holds (startTagsOf (if header.isVoid then [] else Node.visibleList children))
          ((if header.isVoid then [.text "\n"]
            else contentFragments depth children ++ [.text (endTag header ++ "\n")]).flatMap
              Fragment.chars) := by
        split
        · trivial
        · have hcontent := holds_contentFragments fun child hchild => ih child hchild (depth + 1)
          have hend : Holds [] (endTag header ++ "\n").toList := trivial
          simpa [Fragment.chars] using hcontent.append hend
      rw [nodeFragments_element, Node.visible]
      exact ⟨(margin depth).toList, _, by simp [Fragment.chars], hbehind⟩
  | text run =>
      trivial

/-- The start tags of the elements that a page shows stand in the page one after another. -/
theorem holds_startTags
    (document : Document)
    (file : String) :
    Holds (document.shownHeaders.map fun h => (startTag h).toList) (document.html file).toList := by
  have hnodes : Holds (startTagsOf (Node.visibleList document))
      ((nodesFragments 1 document).flatMap Fragment.chars) :=
    holds_nodesFragments fun n _ => holds_nodeFragments n 1
  have hfoot : Holds [] ((foot (stemOf file)).flatMap Fragment.chars) := trivial
  rw [Document.toList_html, fragments, List.flatMap_append, List.flatMap_append, List.append_assoc]
  simpa [startTagsOf, Document.shownHeaders] using (hnodes.append hfoot).behind _

/-! ## Start tags as they are read -/

def Event.header? : Event → Option Header
  | start header => some header
  | stop _ | text _ => none

/-- The characters of a start tag. An end tag begins with a slash. -/
def Piece.startTag? : Piece → Option (List Char)
  | tag ('/' :: _) => none
  | tag chars => some chars
  | text _ => none

/-- The start tags in the body of a page. -/
def startTags (page : List Char) : List (List Char) :=
  (contentsOf (bodyOf page)).filterMap Piece.startTag?

/-- The events of a tree start the elements that are shown. -/
theorem filterMap_header?_events
    (n : Node) :
    n.events.filterMap Event.header? = n.visible.filterMap Node.header? := by
  induction n with
  | element header children ih =>
      rw [Node.events, Node.visible]
      split
      · rfl
      · have hchildren : (Node.eventsList children).filterMap Event.header? =
            (Node.visibleList children).filterMap Node.header? := by
          rw [Node.eventsList_eq_flatMap, Node.visibleList_eq_flatMap, List.filterMap_flatMap,
            List.filterMap_flatMap]
          exact List.flatMap_congr ih
        simp [Event.header?, Node.header?, hchildren]
  | text run =>
      rfl

theorem filterMap_header?_eventsList
    (document : Document) :
    (Node.eventsList document).filterMap Event.header? = document.shownHeaders := by
  rw [Document.shownHeaders, Node.eventsList_eq_flatMap, Node.visibleList_eq_flatMap,
    List.filterMap_flatMap, List.filterMap_flatMap]
  exact List.flatMap_congr fun n _ => filterMap_header?_events n

/-- An event that starts an element is written as its start tag. -/
theorem startTag?_piece
    {document : Document}
    (hclean : ∀ n ∈ Node.preorderList document, n.Clean)
    {event : Event}
    (hevent : event ∈ Node.eventsList document) :
    event.piece.startTag? = event.header?.map startChars := by
  cases event with
  | start header =>
      rw [Node.eventsList_eq_flatMap, List.mem_flatMap] at hevent
      obtain ⟨n, hn, hstart⟩ := hevent
      have hmem := Node.mem_preorder_of_start_mem_events hstart
      have htag := (hclean _ (Node.mem_preorderList.2 ⟨n, hn, hmem⟩)).1
      obtain ⟨first, rest, hlist, hfirst, -⟩ := exists_of_isIdentifier htag
      have hslash : first ≠ '/' := by
        rintro rfl
        exact absurd hfirst (by decide)
      rw [Event.piece, startChars, hlist, List.cons_append, Piece.startTag?]
      · simp [Event.header?, startChars, hlist]
      · intro more hmore
        exact hslash (List.cons.inj hmore).1
  | stop header =>
      rfl
  | text value =>
      rfl

/-- The start tags among the pieces of a document. -/
theorem filterMap_startTag?_pieces
    {document : Document}
    (hclean : ∀ n ∈ Node.preorderList document, n.Clean) :
    (pieces (Node.eventsList document)).filterMap Piece.startTag? =
      document.shownHeaders.map startChars := by
  rw [pieces, List.filterMap_map, List.filterMap_filter, ← filterMap_header?_eventsList,
    List.map_filterMap]
  refine List.filterMap_congr fun event hevent => ?_
  split
  · exact startTag?_piece hclean hevent
  · next hempty =>
      have hevent : event = .text "" := by simpa using hempty
      rw [hevent]
      rfl

/-- What a page has in its body does not depend on what comes behind it. -/
theorem contentsOf_body
    {document : Document}
    (hclean : ∀ n ∈ Node.preorderList document, n.Clean)
    (rest : List Char) :
    contentsOf ((nodesFragments 1 document).flatMap Fragment.chars ++ rest) =
      pieces (Node.eventsList document) ++ contentsOf rest :=
  contentsOf_nodesFragments (fun n hn => contentsOf_nodeFragments n
    (fun m hm => hclean m (Node.mem_preorderList.2 ⟨n, hn, hm⟩)) 1) rest

/-- The start tags that are read off a page belong to the elements that it shows. -/
theorem startTags_html
    {document : Document}
    (hclean : ∀ n ∈ Node.preorderList document, n.Clean)
    (file : String) :
    startTags (document.html file).toList = document.shownHeaders.map startChars := by
  have hbody := contentsOf_body hclean []
  rw [List.append_nil, contentsOf_nil, List.append_nil] at hbody
  rw [startTags, Document.toList_html, bodyOf_fragments, hbody, filterMap_startTag?_pieces hclean]

end Page

/-- The start tags of a compiled page are those of the elements that it shows. -/
theorem startTags_of_compile
    {source file : String}
    {options : CompileOptions}
    {bundle : Bundle}
    {document : Document}
    (hcompile : compile source file options = .ok bundle)
    (hread : Document.read source file = .ok document) :
    Page.startTags bundle.html.toList = document.shownHeaders.map Page.startChars := by
  obtain ⟨found, warnings, hfound, hvalid, rfl⟩ := exists_document_of_compile hcompile
  cases hfound.symm.trans hread
  exact Page.startTags_html (Document.clean_of_isOk hread hvalid) file

end BlockMarkup
