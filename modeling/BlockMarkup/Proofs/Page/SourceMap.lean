import BlockMarkup.Bundle
import BlockMarkup.Proofs.Node.Sound
import BlockMarkup.Proofs.Page.Markup
import BlockMarkup.Proofs.Page.Visible
import BlockMarkup.Proofs.Token.Written

/-!
# Source maps point at the right text

A page is written as fragments, some of which mark the place where a node starts. The fragments of
a page display the visible nodes of the document one after another: behind each mark comes the
text that the page shows for its node. From this it follows that the source map has one entry for
each visible node, that the generated places increase, and that the page has the right text at
each of them. That the source has the right text at the other side of each entry is what the
scanner guarantees.
-/

namespace BlockMarkup

namespace Node

def mappingKind : Node → MappingKind
  | element _ _ => .element
  | text _ => .text

def mappingName : Node → Option String
  | element header _ => some header.tag
  | text _ => none

/-- What the page shows first of a node. -/
def shown : Node → List Char
  | element header _ => '<' :: header.tag.toList
  | text run => (Page.escape run.value).toList

/-- Whether characters of a page begin a node for those who read it: with the tag of an element, or
with the text of a run, of which nothing is taken for markup. -/
def Begins : Node → List Char → Prop
  | element header _, chars => chars = '<' :: header.tag.toList
  | text run, chars =>
    Page.unescape chars = run.value.toList ∧ ∀ c ∈ chars, c ≠ '<' ∧ c ≠ '>' ∧ c ≠ '"'

/-- What the page shows of a node is read as its beginning. -/
theorem begins_shown
    (n : Node) :
    n.Begins n.shown := by
  cases n with
  | element header children => rfl
  | text run =>
      refine ⟨Page.unescape_escape run.value, fun c hc => ?_⟩
      have hplain : ¬ (c = '<' ∨ c = '>' ∨ c = '"') := fun hmarkup =>
        Page.not_mem_escape run.value hmarkup hc
      rwa [not_or, not_or] at hplain

end Node

namespace Page

namespace Fragment

/-- The text of fragments up to the first mark. -/
def leading : List Fragment → List Char
  | [] => []
  | .text s :: rest => s.toList ++ leading rest
  | .mark _ _ _ :: _ => []

/-- `Displays fragments nodes`: the marks of the fragments are those of the nodes, in order, and the
text behind each mark is not empty and begins with what is shown of its node. -/
inductive Displays : List Fragment → List Node → Prop
  | nil :
      Displays [] []
  | text
      {fragments : List Fragment} {nodes : List Node}
      (s : String)
      (hrest : Displays fragments nodes) :
      Displays (.text s :: fragments) nodes
  | mark
      {fragments : List Fragment} {nodes : List Node}
      (n : Node)
      (hshown : n.shown <+: leading fragments)
      (hnonempty : leading fragments ≠ [])
      (hrest : Displays fragments nodes) :
      Displays (.mark n.mappingKind n.position n.mappingName :: fragments) (n :: nodes)

theorem leading_isPrefix
    (fragments : List Fragment) :
    leading fragments <+: fragments.flatMap chars := by
  induction fragments with
  | nil =>
      simp [leading]
  | cons fragment rest ih =>
      cases fragment with
      | text s =>
          simpa [leading, chars] using ih
      | mark kind origin name =>
          simp [leading]

/-- No entry is at an earlier place than the one the fragments begin at. -/
theorem eq_or_before_of_mem_mappings
    {fragments : List Fragment}
    {place : Position}
    {m : Mapping}
    (hm : m ∈ mappings place fragments) :
    place = m.generated ∨ place.Before m.generated := by
  induction fragments generalizing place with
  | nil =>
      simp [mappings] at hm
  | cons fragment rest ih =>
      cases fragment with
      | text s =>
          by_cases hs : s.toList = []
          · rw [mappings, hs, Position.after_nil] at hm
            exact ih hm
          · rw [mappings] at hm
            have hbefore := place.before_after hs
            rcases ih hm with heq | hafter
            · exact Or.inr (heq ▸ hbefore)
            · exact Or.inr (hbefore.trans hafter)
      | mark kind origin name =>
          rw [mappings, List.mem_cons] at hm
          rcases hm with rfl | hm
          · exact Or.inl rfl
          · exact ih hm

theorem before_of_mem_mappings
    {fragments : List Fragment}
    (hnonempty : leading fragments ≠ [])
    {place : Position}
    {m : Mapping}
    (hm : m ∈ mappings place fragments) :
    place.Before m.generated := by
  induction fragments generalizing place with
  | nil =>
      simp [mappings] at hm
  | cons fragment rest ih =>
      cases fragment with
      | text s =>
          by_cases hs : s.toList = []
          · rw [mappings, hs, Position.after_nil] at hm
            rw [leading, hs, List.nil_append] at hnonempty
            exact ih hnonempty hm
          · rw [mappings] at hm
            have hbefore := place.before_after hs
            rcases eq_or_before_of_mem_mappings hm with heq | hafter
            · exact heq ▸ hbefore
            · exact hbefore.trans hafter
      | mark kind origin name =>
          simp [leading] at hnonempty

namespace Displays

variable {fragments : List Fragment} {nodes : List Node}

/-- The entries are those of the nodes that are displayed. -/
theorem map_mappings
    (h : Displays fragments nodes)
    (place : Position) :
    (mappings place fragments).map (fun m => (m.origin, m.kind, m.name)) =
      nodes.map fun n => (n.position, n.mappingKind, n.mappingName) := by
  induction h generalizing place with
  | nil =>
      rfl
  | text s hrest ih =>
      rw [mappings, ih]
  | mark n hshown hnonempty hrest ih =>
      rw [mappings, List.map_cons, List.map_cons, ih]

/-- The places of the entries increase, since there is text behind every mark. -/
theorem pairwise_mappings
    (h : Displays fragments nodes)
    (place : Position) :
    (mappings place fragments).Pairwise fun a b => a.generated.Before b.generated := by
  induction h generalizing place with
  | nil =>
      exact List.Pairwise.nil
  | text s hrest ih =>
      exact ih _
  | mark n hshown hnonempty hrest ih =>
      exact List.Pairwise.cons (fun m hm => before_of_mem_mappings hnonempty hm) (ih place)

/-- The text of each entry stands where the entry points. -/
theorem forall₂_mappings
    (h : Displays fragments nodes)
    (place : Position) :
    List.Forall₂
      (fun (m : Mapping) (n : Node) => m.origin = n.position ∧ ∃ before after,
        fragments.flatMap chars = before ++ (n.shown ++ after) ∧ m.generated = place.after before)
      (mappings place fragments) nodes := by
  induction h generalizing place with
  | nil =>
      exact List.Forall₂.nil
  | text s hrest ih =>
      refine (ih (place.after s.toList)).imp fun m n hm => ?_
      obtain ⟨horigin, before, after, htext, hplace⟩ := hm
      refine ⟨horigin, s.toList ++ before, after, ?_, by rw [hplace, Position.after_append]⟩
      simp [chars, htext]
  | @mark fragments nodes n hshown hnonempty hrest ih =>
      refine List.Forall₂.cons ?_ ((ih place).imp fun m n hm => ?_)
      · obtain ⟨after, hafter⟩ := hshown.trans (leading_isPrefix fragments)
        exact ⟨rfl, [], after, by simp [chars, hafter], rfl⟩
      · simpa [chars] using hm

theorem append_texts
    (h : Displays fragments nodes)
    {texts : List Fragment}
    (htexts : ∀ f ∈ texts, ∃ s, f = .text s) :
    Displays (texts ++ fragments) nodes := by
  induction texts with
  | nil =>
      exact h
  | cons f texts ih =>
      rw [List.forall_mem_cons] at htexts
      obtain ⟨⟨s, rfl⟩, htexts⟩ := htexts
      exact .text s (ih htexts)

end Displays

end Fragment

open Fragment

variable {fragments : List Fragment} {nodes : List Node}

theorem displays_textFragments
    (run : TextRun)
    (h : Displays fragments nodes)
    (hnonempty : leading fragments ≠ []) :
    Displays (textFragments run ++ fragments) (.text run :: nodes) := by
  refine Displays.mark (.text run) ?_ ?_ (.text _ h)
  · exact List.prefix_append _ _
  · simp [leading, hnonempty]

theorem displays_nodesFragments
    {depth : Nat}
    {ns : List Node}
    (hns : ∀ n ∈ ns, ∀ {fragments nodes}, Displays fragments nodes →
      Displays (nodeFragments depth n ++ fragments) (n.visible ++ nodes))
    (h : Displays fragments nodes) :
    Displays (nodesFragments depth ns ++ fragments) (Node.visibleList ns ++ nodes) := by
  induction ns with
  | nil =>
      exact h
  | cons n rest ih =>
      rw [List.forall_mem_cons] at hns
      rw [nodesFragments, Node.visibleList, List.append_assoc, List.append_assoc]
      exact hns.1 (ih hns.2)

theorem displays_contentFragments
    {depth : Nat}
    {children : List Node}
    (hchildren : ∀ n ∈ children, ∀ {fragments nodes}, Displays fragments nodes →
      Displays (nodeFragments (depth + 1) n ++ fragments) (n.visible ++ nodes))
    (h : Displays fragments nodes)
    (hnonempty : leading fragments ≠ []) :
    Displays (contentFragments depth children ++ fragments)
      (Node.visibleList children ++ nodes) := by
  unfold contentFragments
  split
  · exact h
  · next run =>
      simpa [Node.visibleList, Node.visible] using displays_textFragments run h hnonempty
  · simp only [List.cons_append, List.append_assoc]
    exact .text _ (displays_nodesFragments hchildren (.text _ h))

/-- By induction over the tree: a node displays itself and what is visible of it. -/
theorem displays_nodeFragments
    (n : Node)
    (depth : Nat)
    (h : Displays fragments nodes) :
    Displays (nodeFragments depth n ++ fragments) (n.visible ++ nodes) := by
  induction n generalizing depth fragments nodes with
  | element header children ih =>
      rw [nodeFragments_element, Node.visible]
      simp only [List.cons_append]
      refine .text _ (Displays.mark (.element header []) ?_ ?_ (.text _ ?_))
      · simp [leading, Node.shown, startTag]
      · simp [leading, startTag]
      · split
        · exact .text _ h
        · rw [List.append_assoc]
          refine displays_contentFragments (fun child hchild => ih child hchild (depth + 1))
            (.text _ h) ?_
          simp [leading]
  | text run =>
      rw [nodeFragments, Node.visible]
      simp only [List.cons_append, List.append_assoc]
      refine .text _ (displays_textFragments run (.text _ h) ?_)
      simp [leading]

/-- Whatever text the nodes of a document are followed by, its visible nodes are displayed. -/
theorem displays_upTo
    (document : Document)
    (file : String)
    {lower : List Fragment}
    (hlower : ∀ f ∈ lower, ∃ s, f = .text s) :
    Displays (head (stemOf file) ++ nodesFragments 1 document ++ lower)
      (Node.visibleList document) := by
  have hbehind : Displays lower [] := by
    simpa using Displays.nil.append_texts hlower
  have hnodes : Displays (nodesFragments 1 document ++ lower) (Node.visibleList document ++ []) :=
    displays_nodesFragments (fun n _ {_ _} => displays_nodeFragments n 1) hbehind
  have htexts : ∀ f ∈ head (stemOf file), ∃ s, f = .text s := by simp [head, line]
  rw [List.append_assoc, ← List.append_nil (Node.visibleList document)]
  exact hnodes.append_texts htexts

/-- A page displays the visible nodes of its document. -/
theorem displays_fragments
    (document : Document)
    (file : String) :
    Displays (Page.fragments document file) (Node.visibleList document) :=
  displays_upTo document file (by simp [foot, line])

end Page

namespace Node

theorem newline_not_mem_tag
    {header : Header}
    (htag : isIdentifier header.tag = true) :
    '\n' ∉ header.tag.toList := by
  obtain ⟨-, -, -, -, hchars⟩ := exists_of_isIdentifier htag
  intro hmem
  exact absurd (hchars '\n' hmem) (by decide)

/-- What is written and what is shown of a node of a valid document stays on one line. -/
theorem newline_not_mem_wording
    {source : List Char}
    {inner : Token → Prop}
    {n : Node}
    (hfrom : n.ComesFrom (Token.Faithful source) inner)
    (hvalid : ∀ header children, n = .element header children → header.errors = []) :
    '\n' ∉ n.wording.toList ∧ '\n' ∉ n.shown := by
  cases n with
  | element header children =>
      have htag := newline_not_mem_tag (Header.isIdentifier_tag (hvalid header children rfl))
      exact ⟨htag, by simpa [shown] using htag⟩
  | text run =>
      obtain ⟨t, ht, hkind, hvalue, -⟩ := hfrom
      have hline : '\n' ∉ run.value.toList := hvalue ▸ ht.oneLine hkind
      exact ⟨hline, Page.newline_not_mem_escape hline⟩

end Node

/-- What a successful compilation consists of. -/
theorem exists_document_of_compile
    {source file : String}
    {options : CompileOptions}
    {bundle : Bundle}
    (hcompile : compile source file options = .ok bundle) :
    ∃ document warnings, Document.read source file = .ok document ∧
      (document.validate file options.animationThreshold).isOk = true ∧
      bundle = document.bundle file options warnings := by
  unfold compile at hcompile
  split at hcompile
  · simp at hcompile
  · next document hread =>
      simp only at hcompile
      split at hcompile
      · next hvalid =>
          simp only [Except.ok.injEq] at hcompile
          exact ⟨document, _, hread, hvalid, hcompile.symm⟩
      · simp at hcompile

namespace Document

theorem mappings_sourceMap
    (document : Document)
    (file : String) :
    (document.sourceMap file).mappings =
      Page.Fragment.mappings Position.start (Page.fragments document file) := by
  simp only [sourceMap]

theorem toList_html
    (document : Document)
    (file : String) :
    (document.html file).toList =
      (Page.fragments document file).flatMap Page.Fragment.chars := by
  rw [html, Page.Fragment.written, String.toList_ofList]

theorem html_bundle
    (document : Document)
    (file : String)
    (options : CompileOptions)
    (warnings : List Diagnostic) :
    (document.bundle file options warnings).html = document.html file := rfl

theorem sourceMap_bundle
    (document : Document)
    (file : String)
    (options : CompileOptions)
    (warnings : List Diagnostic) :
    (document.bundle file options warnings).sourceMap = document.sourceMap file := rfl

/-- At each entry of the source map, page and source have the text of the node. -/
theorem forall₂_sourceMap
    {source file : String}
    {document : Document}
    (hread : read source file = .ok document)
    (hvalid : ∀ header children, .element header children ∈ Node.preorderList document →
      header.errors = []) :
    List.Forall₂
      (fun (m : Mapping) (n : Node) =>
        Text.Finds (document.html file).toList m.generated n.shown ∧
          Text.Finds source.toList m.origin n.wording.toList)
      (document.sourceMap file).mappings (Node.visibleList document) := by
  have hpoints := (Page.displays_fragments document file).forall₂_mappings Position.start
  rw [List.forall₂_iff_zip] at hpoints
  rw [mappings_sourceMap, toList_html, List.forall₂_iff_zip]
  refine ⟨hpoints.1, fun {m n} hmem => ?_⟩
  obtain ⟨horigin, before, after, htext, hplace⟩ := hpoints.2 hmem
  have hn := Node.mem_preorderList_of_mem_visibleList (List.of_mem_zip hmem).2
  have hfrom := read_sound hread n hn
  obtain ⟨hwording, hshown⟩ := Node.newline_not_mem_wording hfrom fun header children heq =>
    hvalid header children (heq ▸ hn)
  have hpage : Text.Stands ((Page.fragments document file).flatMap Page.Fragment.chars)
      m.generated n.shown :=
    ⟨before, after, htext, hplace⟩
  exact ⟨hpage.finds hshown, horigin ▸ hfrom.stands.finds hwording⟩

end Document

/-- The source map of a compiled page has one entry for each visible node, in the order of the
source. Its places in the page increase. At each of them the page has the start of the element's
tag or the escaped text, and at the place in the source that belongs to it the source has the tag
or the text. -/
theorem compile_sourceMap_points_at_text
    {source file : String}
    {options : CompileOptions}
    {bundle : Bundle}
    (hcompile : compile source file options = .ok bundle) :
    ∃ document, Document.read source file = .ok document ∧
      bundle.sourceMap.mappings.map (fun m => (m.origin, m.kind, m.name)) =
        (Node.visibleList document).map (fun n => (n.position, n.mappingKind, n.mappingName)) ∧
      bundle.sourceMap.mappings.Pairwise (fun a b => a.generated.Before b.generated) ∧
      List.Forall₂
        (fun (m : Mapping) (n : Node) =>
          Text.Finds bundle.html.toList m.generated n.shown ∧ n.Begins n.shown ∧
            Text.Finds source.toList m.origin n.wording.toList)
        bundle.sourceMap.mappings (Node.visibleList document) := by
  obtain ⟨document, warnings, hread, hvalid, rfl⟩ := exists_document_of_compile hcompile
  have hdisplays := Page.displays_fragments document file
  rw [Document.sourceMap_bundle, Document.html_bundle]
  refine ⟨document, hread, ?_, ?_, ?_⟩
  · rw [Document.mappings_sourceMap]
    exact hdisplays.map_mappings Position.start
  · rw [Document.mappings_sourceMap]
    exact hdisplays.pairwise_mappings Position.start
  · have hpoints := Document.forall₂_sourceMap hread fun header children hmem =>
      Document.errors_eq_nil_of_isOk hvalid hmem
    exact hpoints.imp fun m n hfinds => ⟨hfinds.1, n.begins_shown, hfinds.2⟩

/-- A page with a block, an indented line, a text to escape, and a text below a void element. -/
def sampleSource : String := "div#top \x7b\n  p.a\n    a < b\n  br\n    lost\n\x7d"

def samplePageText : String :=
  "<!DOCTYPE html>\n<html lang=\"en\">\n<head>\n  <meta charset=\"UTF-8\">\n" ++
  "  <meta name=\"viewport\" content=\"width=device-width, initial-scale=1.0\">\n" ++
  "  <meta name=\"generator\" content=\"htmlx\">\n  <title>Page</title>\n" ++
  "  <link rel=\"stylesheet\" href=\"page.css\">\n</head>\n<body>\n" ++
  "  <div id=\"top\">\n    <p class=\"a\">a &lt; b</p>\n    <br>\n  </div>\n" ++
  "  <script src=\"page.js\" defer></script>\n</body>\n</html>\n"

def samplePlaces : List (Position × Position) :=
  [(⟨11, 3⟩, ⟨1, 1⟩), (⟨12, 5⟩, ⟨2, 3⟩), (⟨12, 18⟩, ⟨3, 5⟩), (⟨13, 5⟩, ⟨4, 3⟩)]

theorem compile_sourceMap_points_at_text_sampleSource :
    ∃ bundle, compile sampleSource "page" CompileOptions.standard = .ok bundle ∧
      bundle.html = samplePageText ∧
      bundle.sourceMap.mappings.map (fun m => (m.generated, m.origin)) = samplePlaces ∧
      ∃ document, Document.read sampleSource "page" = .ok document ∧
        List.Forall₂
          (fun (m : Mapping) (n : Node) =>
            Text.Finds bundle.html.toList m.generated n.shown ∧ n.Begins n.shown ∧
              Text.Finds sampleSource.toList m.origin n.wording.toList)
          bundle.sourceMap.mappings (Node.visibleList document) := by
  have hpage : (compile sampleSource "page" CompileOptions.standard).toOption.map (fun bundle =>
        (bundle.html, bundle.sourceMap.mappings.map fun m => (m.generated, m.origin))) =
      some (samplePageText, samplePlaces) := by
    decide +kernel
  cases hcompile : compile sampleSource "page" CompileOptions.standard with
  | error e =>
      rw [hcompile] at hpage
      cases hpage
  | ok bundle =>
      rw [hcompile] at hpage
      obtain ⟨hhtml, hplaces⟩ := Prod.mk.inj (Option.some.inj hpage)
      obtain ⟨document, hread, -, -, hpoints⟩ := compile_sourceMap_points_at_text hcompile
      exact ⟨bundle, rfl, hhtml, hplaces, document, hread, hpoints⟩

end BlockMarkup
