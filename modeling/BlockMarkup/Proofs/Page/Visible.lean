import BlockMarkup.Page.Html
import BlockMarkup.Proofs.Node.Forest
import BlockMarkup.Proofs.Node.Visits

/-!
# The nodes that a page shows

A page shows all nodes of a document but those below a void element, in the order of the source.
In a document that passes validation, the names in the headers of these nodes are identifiers.
-/

namespace BlockMarkup

namespace Node

mutual

/-- A node and what the page shows of the nodes inside it, each without its children. -/
def visible : Node → List Node
  | .element header children =>
    .element header [] :: if header.isVoid then [] else visibleList children
  | .text run => [.text run]

def visibleList : List Node → List Node
  | [] => []
  | n :: rest => n.visible ++ visibleList rest

end

theorem visibleList_eq_flatMap
    (ns : List Node) :
    visibleList ns = ns.flatMap visible := by
  induction ns with
  | nil =>
      rfl
  | cons n rest ih =>
      rw [visibleList, ih, List.flatMap_cons]

theorem mem_preorder_of_mem_visible
    {n m : Node}
    (hm : m ∈ n.visible) :
    m ∈ n.preorder := by
  induction n with
  | element header children ih =>
      rw [visible, List.mem_cons] at hm
      rw [preorder, List.mem_cons, mem_preorderList]
      refine hm.imp_right fun hm => ?_
      split at hm
      · simp at hm
      · rw [visibleList_eq_flatMap, List.mem_flatMap] at hm
        obtain ⟨child, hchild, hm⟩ := hm
        exact ⟨child, hchild, ih child hchild hm⟩
  | text run =>
      simpa [visible, preorder] using hm

theorem mem_preorderList_of_mem_visibleList
    {ns : List Node}
    {m : Node}
    (hm : m ∈ visibleList ns) :
    m ∈ preorderList ns := by
  rw [visibleList_eq_flatMap, List.mem_flatMap] at hm
  obtain ⟨n, hn, hm⟩ := hm
  exact mem_preorderList.2 ⟨n, hn, mem_preorder_of_mem_visible hm⟩

end Node

namespace Document

theorem exists_element_of_mem_preorderList
    {document : Document}
    {header : Header}
    {children : List Node}
    (hmem : .element header children ∈ Node.preorderList document) :
    ∃ e ∈ document.elements, e.header = header := by
  fun_induction elements document with
  | case1 =>
      simp [Node.preorderList] at hmem
  | case2 run rest ih =>
      exact ih (by simpa [Node.preorderList, Node.preorder] using hmem)
  | case3 found inside rest ih =>
      rw [Node.preorderList, Node.preorder, List.cons_append, List.mem_cons,
        ← Node.preorderList_append] at hmem
      rcases hmem with heq | hmem
      · have hheader : header = found := by
          injection heq
        exact ⟨⟨found, inside⟩, List.mem_cons_self, hheader.symm⟩
      · obtain ⟨e, he, heq⟩ := ih hmem
        exact ⟨e, List.mem_cons_of_mem _ he, heq⟩

/-- What validation has found nothing wrong with. -/
theorem errors_eq_nil_of_isOk
    {document : Document}
    {file : String}
    {threshold : Nat}
    (hvalid : (document.validate file threshold).isOk = true)
    {header : Header}
    {children : List Node}
    (hmem : .element header children ∈ Node.preorderList document) :
    header.errors = [] := by
  have hnone : (document.elements.flatMap fun e => e.header.errors) = [] := by
    simpa [Validation.isOk, errors_validate] using hvalid
  obtain ⟨e, he, rfl⟩ := exists_element_of_mem_preorderList hmem
  exact List.flatMap_eq_nil_iff.1 hnone e he

end Document

namespace Header

variable {h : Header}

/-- Without errors, a tag is an identifier. -/
theorem isIdentifier_tag
    (herrors : h.errors = []) :
    isIdentifier h.tag = true := by
  simp only [errors, List.append_eq_nil_iff] at herrors
  by_contra htag
  simp [tagErrors, htag] at herrors

end Header

namespace Page

/-- What stands between the tags of an element that is not void. -/
def contentFragments
    (depth : Nat) :
    List Node → List Fragment
  | [] => []
  | [.text run] => textFragments run
  | children => .text "\n" :: nodesFragments (depth + 1) children ++ [.text (margin depth)]

/-- An element is written as its start tag, what it holds and its end tag. -/
theorem nodeFragments_element
    (depth : Nat)
    (h : Header)
    (children : List Node) :
    nodeFragments depth (.element h children) =
      .text (margin depth) :: .mark .element h.position (some h.tag) :: .text (startTag h) ::
        if h.isVoid then [.text "\n"]
        else contentFragments depth children ++ [.text (endTag h ++ "\n")] := by
  rcases children with _ | ⟨child, _ | ⟨next, rest⟩⟩
  · rfl
  · cases child <;> rfl
  · cases child <;> rfl

end Page

end BlockMarkup
