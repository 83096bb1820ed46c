import BlockMarkup.Proofs.Page.Script

/-!
# What stands below void elements

A page does not show the nodes below a void element: it is the same, and so is its source map, when
they are taken away. Stylesheet and script are made from all elements. Here it is said when they are
the same, too: the stylesheet exactly if no element below a void element has an anchor, and the
script exactly if these elements neither add an endpoint or a key nor use one first.
-/

namespace BlockMarkup

namespace Node

mutual

/-- A node without what stands below void elements. -/
def pruned : Node → Node
  | .element header children => .element header (if header.isVoid then [] else prunedList children)
  | .text run => .text run

def prunedList : List Node → List Node
  | [] => []
  | n :: rest => n.pruned :: prunedList rest

end

mutual

/-- The nodes inside a node that stand below a void element, each without its children. -/
def hidden : Node → List Node
  | .element header children =>
    if header.isVoid then preorderList children else hiddenList children
  | .text _ => []

def hiddenList : List Node → List Node
  | [] => []
  | n :: rest => n.hidden ++ hiddenList rest

end

theorem prunedList_eq_map
    (ns : List Node) :
    prunedList ns = ns.map pruned := by
  induction ns with
  | nil =>
      rfl
  | cons n rest ih =>
      rw [prunedList, ih, List.map_cons]

theorem hiddenList_eq_flatMap
    (ns : List Node) :
    hiddenList ns = ns.flatMap hidden := by
  induction ns with
  | nil =>
      rfl
  | cons n rest ih =>
      rw [hiddenList, ih, List.flatMap_cons]

/-- What is left of a node is what a page shows of it. -/
theorem preorder_pruned
    (n : Node) :
    n.pruned.preorder = n.visible := by
  induction n with
  | element header children ih =>
      rw [pruned, preorder, visible]
      split
      · rfl
      · rw [prunedList_eq_map, preorderList_eq_flatMap, List.flatMap_map, visibleList_eq_flatMap,
          List.flatMap_congr ih]
  | text run =>
      rfl

/-- What is left after pruning is what the page shows. -/
theorem preorderList_prunedList
    (ns : List Node) :
    preorderList (prunedList ns) = visibleList ns := by
  rw [prunedList_eq_map, preorderList_eq_flatMap, List.flatMap_map, visibleList_eq_flatMap]
  exact List.flatMap_congr fun n _ => preorder_pruned n

/-- A node is made of what a page shows and what it does not show. -/
theorem perm_preorder
    (n : Node) :
    n.preorder.Perm (n.visible ++ n.hidden) := by
  induction n with
  | element header children ih =>
      rw [preorder, visible, hidden]
      split
      · rfl
      · rw [List.cons_append, preorderList_eq_flatMap, visibleList_eq_flatMap,
          hiddenList_eq_flatMap]
        exact ((List.Perm.flatMap_left children ih).trans
          (List.flatMap_append_perm children visible hidden).symm).cons _
  | text run =>
      rfl

/-- Every node is shown or hidden. -/
theorem perm_preorderList
    (ns : List Node) :
    (preorderList ns).Perm (visibleList ns ++ hiddenList ns) := by
  rw [preorderList_eq_flatMap, visibleList_eq_flatMap, hiddenList_eq_flatMap]
  exact (List.Perm.flatMap_left ns fun n _ => perm_preorder n).trans
    (List.flatMap_append_perm ns visible hidden).symm

/-- Whatever is taken from nodes, if the hidden ones have nothing of it, is taken from the visible
ones, in the same order. -/
theorem flatMap_preorder
    {α : Type}
    {f : Node → List α}
    {n : Node}
    (hf : ∀ m ∈ n.hidden, f m = []) :
    n.preorder.flatMap f = n.visible.flatMap f := by
  induction n with
  | element header children ih =>
      rw [preorder, visible]
      rw [hidden] at hf
      split
      · next hvoid =>
          rw [if_pos hvoid] at hf
          rw [List.flatMap_cons, List.flatMap_eq_nil_iff.2 hf]
          simp
      · next hvoid =>
          rw [if_neg hvoid, hiddenList_eq_flatMap] at hf
          rw [List.flatMap_cons, List.flatMap_cons, preorderList_eq_flatMap, visibleList_eq_flatMap,
            List.flatMap_assoc, List.flatMap_assoc]
          congr 1
          refine List.flatMap_congr fun child hchild => ih child hchild fun m hm => ?_
          exact hf m (List.mem_flatMap.2 ⟨child, hchild, hm⟩)
  | text run =>
      rfl

end Node

namespace Page

theorem nodesFragments_prunedList
    {depth : Nat}
    {ns : List Node}
    (hns : ∀ n ∈ ns, nodeFragments depth n.pruned = nodeFragments depth n) :
    nodesFragments depth (Node.prunedList ns) = nodesFragments depth ns := by
  induction ns with
  | nil =>
      rfl
  | cons n ns ih =>
      rw [List.forall_mem_cons] at hns
      rw [Node.prunedList, nodesFragments, nodesFragments, hns.1, ih hns.2]

theorem contentFragments_prunedList
    {depth : Nat}
    {children : List Node}
    (hchildren : ∀ n ∈ children, nodeFragments (depth + 1) n.pruned = nodeFragments (depth + 1) n) :
    contentFragments depth (Node.prunedList children) = contentFragments depth children := by
  have hnodes := nodesFragments_prunedList hchildren
  rcases children with _ | ⟨child, _ | ⟨next, rest⟩⟩
  · rfl
  · cases child with
    | element header inside =>
        simpa [contentFragments, Node.prunedList, Node.pruned] using hnodes
    | text run =>
        rfl
  · simpa [contentFragments, Node.prunedList] using hnodes

/-- By induction over the tree: a page is written in the same way without hidden nodes. -/
theorem nodeFragments_pruned
    (n : Node)
    (depth : Nat) :
    nodeFragments depth n.pruned = nodeFragments depth n := by
  induction n generalizing depth with
  | element header children ih =>
      rw [Node.pruned, nodeFragments_element, nodeFragments_element]
      split
      · rfl
      · rw [contentFragments_prunedList fun child hchild => ih child hchild (depth + 1)]
  | text run =>
      rfl

/-- The page does not depend on what is hidden. -/
theorem fragments_prunedList
    (document : Document)
    (file : String) :
    fragments (Node.prunedList document) file = fragments document file := by
  rw [fragments, fragments, nodesFragments_prunedList fun n _ => nodeFragments_pruned n 1]

end Page

namespace Document

/-- The headers of the elements below void elements. -/
def hiddenHeaders (document : Document) : List Header :=
  (Node.hiddenList document).filterMap Node.header?

theorem headers_prunedList
    (document : Document) :
    headers (Node.prunedList document) = document.shownHeaders := by
  rw [headers, Node.preorderList_prunedList, shownHeaders]

theorem perm_headers
    (document : Document) :
    document.headers.Perm (document.shownHeaders ++ document.hiddenHeaders) := by
  rw [shownHeaders, hiddenHeaders, ← List.filterMap_append]
  exact (Node.perm_preorderList document).filterMap _

theorem flatMap_filterMap_header?
    {α : Type}
    (f : Header → List α)
    (ns : List Node) :
    (ns.filterMap Node.header?).flatMap f = ns.flatMap fun n => n.header?.toList.flatMap f := by
  rw [List.filterMap_eq_flatMap_toList, List.flatMap_assoc]

/-- Whatever the hidden elements have nothing of is the same without them. -/
theorem flatMap_headers
    {α : Type}
    {document : Document}
    {f : Header → List α}
    (hf : ∀ h ∈ document.hiddenHeaders, f h = []) :
    document.headers.flatMap f = document.shownHeaders.flatMap f := by
  rw [headers, shownHeaders, flatMap_filterMap_header?, flatMap_filterMap_header?,
    Node.preorderList_eq_flatMap, Node.visibleList_eq_flatMap, List.flatMap_assoc,
    List.flatMap_assoc]
  refine List.flatMap_congr fun n hn => Node.flatMap_preorder fun m hm => ?_
  rw [List.flatMap_eq_nil_iff]
  intro h hh
  refine hf h (List.mem_filterMap.2 ⟨m, ?_, Option.mem_toList.1 hh⟩)
  rw [Node.hiddenList_eq_flatMap]
  exact List.mem_flatMap.2 ⟨n, hn, hm⟩

theorem filterMap_headers
    {α : Type}
    {document : Document}
    {f : Header → Option α}
    (hf : ∀ h ∈ document.hiddenHeaders, f h = none) :
    document.headers.filterMap f = document.shownHeaders.filterMap f := by
  rw [List.filterMap_eq_flatMap_toList, List.filterMap_eq_flatMap_toList]
  exact flatMap_headers fun h hh => by rw [hf h hh, Option.toList_none]

end Document

/-! ## Stylesheets without hidden elements -/

namespace Stylesheet

/-- The length of blocks, each with the two line feeds that part it from the next. -/
def weight (blocks : List String) : Nat := (blocks.map fun block => block.toList.length + 2).sum

theorem length_join
    {blocks : List String}
    (hblocks : blocks ≠ []) :
    (Text.join "\n\n" blocks).toList.length + 2 = weight blocks := by
  fun_induction Text.join "\n\n" blocks with
  | case1 =>
      exact absurd rfl hblocks
  | case2 block =>
      simp [weight]
  | case3 block blocks hmore ih =>
      have hrest := ih (by simpa using hmore)
      have hweight : weight (block :: blocks) = block.toList.length + 2 + weight blocks := by
        simp [weight]
      have hbreak : "\n\n".toList.length = 2 := rfl
      rw [String.toList_append, String.toList_append, List.length_append, List.length_append]
      omega

/-- The length of a stylesheet is the weight of its blocks, and the last line feed is left out. -/
theorem length_text
    (s : Stylesheet) :
    s.text.toList.length =
      weight (s.keyframes.map keyframesText ++ s.rules.map StyleRule.text) - 1 := by
  rw [text]
  split
  · next hempty =>
      rw [List.isEmpty_iff.1 hempty]
      rfl
  · next hempty =>
      rw [List.isEmpty_iff] at hempty
      have hjoin := length_join hempty
      rw [String.toList_append, List.length_append]
      have hend : "\n".toList.length = 1 := rfl
      omega

theorem weight_append
    (blocks others : List String) :
    weight (blocks ++ others) = weight blocks + weight others := by
  rw [weight, List.map_append, List.sum_append, weight, weight]

theorem weight_perm
    {blocks others : List String}
    (h : blocks.Perm others) :
    weight blocks = weight others :=
  (h.map _).sum_eq

theorem two_le_weight
    {blocks : List String}
    (hblocks : blocks ≠ []) :
    2 ≤ weight blocks := by
  cases blocks with
  | nil =>
      exact absurd rfl hblocks
  | cons block blocks =>
      simp only [weight, List.map_cons, List.sum_cons]
      omega

/-- Fewer names make keyframes that are no longer. -/
theorem weight_keyframes_le
    {names others : List String}
    (hsubset : names ⊆ others) :
    weight (names.eraseDups.map keyframesText) ≤ weight (others.eraseDups.map keyframesText) := by
  have hmem : names.eraseDups ⊆ others.eraseDups := fun name hname =>
    List.mem_eraseDups.2 (hsubset (List.mem_eraseDups.1 hname))
  obtain ⟨kept, hperm, hsublist⟩ := List.subperm_of_subset (firstUses_eraseDups names).nodup hmem
  rw [← weight_perm (hperm.map keyframesText), weight, weight]
  exact ((hsublist.map keyframesText).map _).sum_le_sum (fun _ _ => Nat.zero_le _)

end Stylesheet

namespace Header

variable {h : Header}

/-- An element without an anchor is not animated. -/
theorem animation?_of_anchor
    (hanchor : h.anchor = none) :
    h.animation? = none := by
  have hanchored : h.isAnchored = false := by
    rw [isAnchored_eq_isSome, hanchor, Option.isSome_none]
  have hanimated : h.isAnimated = false := (Bool.or_eq_false_iff.1 hanchored).1
  exact animation?_eq_none (by simpa [isAnimated] using hanimated)

end Header

namespace Document

/-- The animation names that headers use. -/
def animationNames (headers : List Header) : List String :=
  headers.filterMap fun h => h.animation?.map fun a => a.name

theorem css_eq_text
    (document : Document) :
    document.css = Stylesheet.text
      { keyframes := (animationNames document.headers).eraseDups
        rules := document.headers.filterMap Header.rule? } := by
  simp only [css, Stylesheet.ofDocument, elements_map_header, animationNames]

/-- A hidden element with an anchor makes the stylesheet longer. -/
theorem length_css_lt
    {document : Document}
    {h : Header}
    (hh : h ∈ document.hiddenHeaders)
    (hanchor : h.anchor ≠ none) :
    (css (Node.prunedList document)).toList.length < document.css.toList.length := by
  have hperm := document.perm_headers
  have hkeyframes : Stylesheet.weight
      ((animationNames document.shownHeaders).eraseDups.map Stylesheet.keyframesText) ≤
        Stylesheet.weight
          ((animationNames document.headers).eraseDups.map Stylesheet.keyframesText) := by
    refine Stylesheet.weight_keyframes_le fun name hname => ?_
    obtain ⟨g, hg, hname⟩ := List.mem_filterMap.1 hname
    exact List.mem_filterMap.2 ⟨g, mem_headers_of_mem_shownHeaders hg, hname⟩
  have hrules := Stylesheet.weight_perm ((hperm.filterMap Header.rule?).map StyleRule.text)
  rw [List.filterMap_append, List.map_append, Stylesheet.weight_append] at hrules
  have hhidden : 2 ≤ Stylesheet.weight
      ((document.hiddenHeaders.filterMap Header.rule?).map StyleRule.text) := by
    obtain ⟨anchor, hsome⟩ := Option.ne_none_iff_exists'.1 hanchor
    have hrule : (⟨anchor.selector, h.declarations⟩ : StyleRule) ∈
        document.hiddenHeaders.filterMap Header.rule? :=
      List.mem_filterMap.2 ⟨h, hh, by rw [Header.rule?, hsome, Option.map_some]⟩
    exact Stylesheet.two_le_weight (List.ne_nil_of_mem (List.mem_map_of_mem hrule))
  rw [css_eq_text, css_eq_text, headers_prunedList, Stylesheet.length_text, Stylesheet.length_text,
    Stylesheet.weight_append, Stylesheet.weight_append]
  dsimp only
  omega

/-- The stylesheet is the same without hidden elements exactly if none of them has an anchor. -/
theorem css_prunedList_iff
    (document : Document) :
    css (Node.prunedList document) = document.css ↔
      ∀ h ∈ document.hiddenHeaders, h.anchor = none := by
  constructor
  · intro hcss h hh
    by_contra hanchor
    have hlt := length_css_lt hh hanchor
    rw [hcss] at hlt
    exact Nat.lt_irrefl _ hlt
  · intro hanchor
    have hnames : animationNames document.headers = animationNames document.shownHeaders :=
      filterMap_headers fun h hh => by
        rw [Header.animation?_of_anchor (hanchor h hh), Option.map_none]
    have hrules : document.headers.filterMap Header.rule? =
        document.shownHeaders.filterMap Header.rule? :=
      filterMap_headers fun h hh => by rw [Header.rule?, hanchor h hh, Option.map_none]
    rw [css_eq_text, css_eq_text, headers_prunedList, hnames, hrules]

end Document

/-! ## Scripts without hidden elements -/

namespace Script

/-- A text that stands twice between fixed ones is known from the whole. -/
theorem eq_of_twice
    {before between after literal other : List Char}
    (h : before ++ literal ++ between ++ literal ++ after =
      before ++ other ++ between ++ other ++ after) :
    literal = other := by
  have hlength := congrArg List.length h
  simp only [List.length_append] at hlength
  exact List.append_inj_right' (List.append_cancel_right h) (by omega)

/-- Different endpoints have different lines. -/
theorem handlerLine_injective : Function.Injective handlerLine := by
  intro endpoint other h
  have hchars := congrArg String.toList h
  rw [toList_handlerLine, toList_handlerLine] at hchars
  exact Json.literal_injective (String.toList_injective (eq_of_twice hchars))

theorem updaterLine_injective : Function.Injective updaterLine := by
  intro key other h
  have hchars := congrArg String.toList h
  rw [toList_updaterLine, toList_updaterLine] at hchars
  exact Json.literal_injective (String.toList_injective (eq_of_twice hchars))

/-- The line that ends a list of handlers or updaters is none of them: they end with a comma. -/
theorem closing_not_mem
    {line : String → String}
    (hline : ∀ name, (line name).toList.getLast? = some ',')
    (names : List String) :
    "  \x7d;" ∉ names.map line := by
  intro hmem
  obtain ⟨name, -, hname⟩ := List.mem_map.1 hmem
  have hlast := hline name
  rw [hname] at hlast
  exact absurd hlast (by decide)

theorem getLast?_handlerLine
    (endpoint : String) :
    (handlerLine endpoint).toList.getLast? = some ',' := by
  rw [toList_handlerLine]
  unfold handlerChars
  rw [List.getLast?_append_of_ne_nil _ (by decide)]
  decide

theorem getLast?_updaterLine
    (key : String) :
    (updaterLine key).toList.getLast? = some ',' := by
  rw [toList_updaterLine]
  unfold updaterChars
  rw [List.getLast?_append_of_ne_nil _ (by decide)]
  decide

/-- Endpoints and keys can be told from a script. -/
theorem text_inj
    {s t : Script}
    (htext : s.text = t.text) :
    s.endpoints = t.endpoints ∧ s.keys = t.keys := by
  have hlines : s.textLines = t.textLines := by
    have hsplit := s.splitAt_text
    rw [htext, splitAt_text] at hsplit
    have hinjective : Function.Injective String.toList := fun _ _ => String.toList_injective
    exact (List.map_injective_iff.2 hinjective (List.append_cancel_right hsplit)).symm
  simp only [textLines, List.append_assoc, List.cons_append, List.nil_append, List.cons.injEq,
    true_and] at hlines
  obtain ⟨hendpoints, hbehind⟩ := Page.append_cons_inj
    (closing_not_mem getLast?_handlerLine s.endpoints)
    (closing_not_mem getLast?_handlerLine t.endpoints) hlines.2
  simp only [List.cons.injEq, true_and] at hbehind
  obtain ⟨hkeys, -⟩ := Page.append_cons_inj
    (closing_not_mem getLast?_updaterLine s.keys) (closing_not_mem getLast?_updaterLine t.keys)
    hbehind
  exact ⟨List.map_injective_iff.2 handlerLine_injective hendpoints,
    List.map_injective_iff.2 updaterLine_injective hkeys⟩

end Script

namespace Document

/-- The directives of the elements that a page shows. -/
def shownDirectives (document : Document) : List Directive :=
  document.shownHeaders.flatMap Header.entryDirectives

/-- The directives that are left after pruning are those that are shown. -/
theorem directives_prunedList
    (document : Document) :
    directives (Node.prunedList document) = document.shownDirectives := by
  rw [directives, headers_prunedList, shownDirectives]

/-- The script is the same without hidden elements exactly if they change neither the endpoints nor
the keys in the order of first use. -/
theorem js_prunedList_iff
    (document : Document)
    (apiBase : String) :
    js (Node.prunedList document) apiBase = document.js apiBase ↔
      (document.shownDirectives.filterMap Directive.endpoint?).eraseDups =
          (document.directives.filterMap Directive.endpoint?).eraseDups ∧
        (document.shownDirectives.filterMap Directive.key?).eraseDups =
          (document.directives.filterMap Directive.key?).eraseDups := by
  rw [← directives_prunedList, ← endpoints_ofDocument _ apiBase, ← endpoints_ofDocument _ apiBase,
    ← keys_ofDocument _ apiBase, ← keys_ofDocument _ apiBase]
  constructor
  · exact fun hjs => Script.text_inj hjs
  · rintro ⟨hendpoints, hkeys⟩
    have hscript : Script.ofDocument (Node.prunedList document) apiBase =
        Script.ofDocument document apiBase := by
      simp only [Script.ofDocument] at hendpoints hkeys ⊢
      rw [hendpoints, hkeys]
    rw [js, js, hscript]

/-- Page and source map are the same without what stands below void elements. Stylesheet and script
need not be: they are the same exactly if no hidden element has an anchor, and if hidden elements
change neither the endpoints nor the keys in the order of first use. -/
theorem outputs_of_prunedList
    (document : Document)
    (file apiBase : String) :
    html (Node.prunedList document) file = document.html file ∧
      sourceMap (Node.prunedList document) file = document.sourceMap file ∧
      (css (Node.prunedList document) = document.css ↔
        ∀ h ∈ document.hiddenHeaders, h.anchor = none) ∧
      (js (Node.prunedList document) apiBase = document.js apiBase ↔
        (document.shownDirectives.filterMap Directive.endpoint?).eraseDups =
            (document.directives.filterMap Directive.endpoint?).eraseDups ∧
          (document.shownDirectives.filterMap Directive.key?).eraseDups =
            (document.directives.filterMap Directive.key?).eraseDups) := by
  have hfragments := Page.fragments_prunedList document file
  refine ⟨?_, ?_, document.css_prunedList_iff, document.js_prunedList_iff apiBase⟩
  · rw [html, html, hfragments]
  · rw [sourceMap, sourceMap, hfragments]

/-- An element with a style, an animation and directives below a void element. -/
def hiddenElement : Document :=
  [.element ⟨"br", none, [], .empty, ⟨1, 1⟩, none⟩
    [.element ⟨"p", some "a", [], .ofList [("style", .style (.ofList [("color", "red")])),
      ("animate", .text "fade 2s"), ("⚡-call", .directive (.call "load")),
      ("⚡-data", .directive (.data "user"))], ⟨2, 3⟩, none⟩ []]]

/-- Stylesheet and script do not ignore an element that the page does not show, though the document
is read from a source and passes validation. -/
theorem outputs_of_prunedList_hiddenElement :
    (Document.read ("br \x7b\n  p#a(style: \"color: red\", animate: \"fade 2s\", " ++
        "⚡-call: \"load\", ⚡-data: \"user\")\n\x7d\n") "index").toOption = some hiddenElement ∧
      (hiddenElement.validate "index" 10).isOk = true ∧
      css (Node.prunedList hiddenElement) ≠ hiddenElement.css ∧
      js (Node.prunedList hiddenElement) "/api" ≠ hiddenElement.js "/api" := by
  refine ⟨by decide +kernel, by decide +kernel, ?_, ?_⟩
  · rw [Ne, css_prunedList_iff]
    decide +kernel
  · rw [Ne, js_prunedList_iff]
    decide +kernel

end Document

end BlockMarkup
