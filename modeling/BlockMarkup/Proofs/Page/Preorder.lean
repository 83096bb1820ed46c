import BlockMarkup.Proofs.Node.Rules
import BlockMarkup.Proofs.Page.Shown

/-!
# The order of elements

The elements of a document are found in two ways. Validation, stylesheet and script take them from a
stack of nodes that are still to be visited; the page is written by recursion. Both give the
pre-order, and the page leaves out what lies below void elements.

The order is told by addresses. The address of a node is the list of the numbers of children that
lead to it, and the pre-order is the lexicographic order of addresses, in which a node comes before
the nodes inside it and before those of its later siblings. An element occurs once for each address
at which it stands (`Node.mem_located`).
-/

namespace BlockMarkup

namespace Node

/-- The element at an address inside a node. -/
def elementAt : Node → List Nat → Option Element
  | .element header children, [] => some ⟨header, children⟩
  | .element _ children, number :: address =>
    children[number]?.bind fun child => child.elementAt address
  | .text _, _ => none

mutual

/-- The elements of a node with their addresses, each before those inside it. -/
def located : Node → List (List Nat × Element)
  | .element header children => ([], ⟨header, children⟩) :: locatedFrom 0 children
  | .text _ => []

/-- The elements of nodes that are numbered from `number` on. -/
def locatedFrom (number : Nat) : List Node → List (List Nat × Element)
  | [] => []
  | n :: rest => n.located.map (Prod.map (number :: ·) id) ++ locatedFrom (number + 1) rest

end

/-- Addresses in a list of trees start with the number of the tree. -/
theorem locatedFrom_eq_flatMap
    (number : Nat)
    (ns : List Node) :
    locatedFrom number ns = (ns.zipIdx number).flatMap fun numbered =>
      numbered.1.located.map (Prod.map (numbered.2 :: ·) id) := by
  induction ns generalizing number with
  | nil =>
      rfl
  | cons n rest ih =>
      rw [locatedFrom, ih, List.zipIdx_cons, List.flatMap_cons]

end Node

namespace Document

/-- The element at an address in a document. -/
def elementAt (document : Document) : List Nat → Option Element
  | [] => none
  | number :: address => document[number]?.bind fun n => n.elementAt address

end Document

namespace Node

/-- What is listed with an address is found there. -/
theorem mem_locatedFrom
    {ns : List Node}
    (hns : ∀ n ∈ ns, ∀ address e, (address, e) ∈ n.located ↔ n.elementAt address = some e)
    (address : List Nat)
    (e : Element) :
    (address, e) ∈ locatedFrom 0 ns ↔ Document.elementAt ns address = some e := by
  rw [locatedFrom_eq_flatMap, List.mem_flatMap]
  constructor
  · rintro ⟨⟨n, number⟩, hn, hmem⟩
    rw [List.mem_zipIdx_iff_getElem?] at hn
    obtain ⟨⟨inner, e'⟩, hinner, heq⟩ := List.mem_map.1 hmem
    cases heq
    rw [hns n (List.mem_of_getElem? hn)] at hinner
    simpa [Document.elementAt, hn] using hinner
  · intro hat
    cases address with
    | nil =>
        cases hat
    | cons number address =>
        obtain ⟨n, hn, hat⟩ := Option.bind_eq_some_iff.1 hat
        have hlisted := (hns n (List.mem_of_getElem? hn) address e).2 hat
        exact ⟨(n, number), List.mem_zipIdx_iff_getElem?.2 hn,
          List.mem_map.2 ⟨(address, e), hlisted, rfl⟩⟩

/-- Every element is listed with each of its addresses, and nothing else is. -/
theorem mem_located
    (n : Node)
    (address : List Nat)
    (e : Element) :
    (address, e) ∈ n.located ↔ n.elementAt address = some e := by
  induction n generalizing address e with
  | element header children ih =>
      have hinside := mem_locatedFrom ih address e
      cases address with
      | nil => simp [located, elementAt, hinside, Document.elementAt, eq_comm]
      | cons number address =>
          rw [located, List.mem_cons, hinside]
          simp [elementAt, Document.elementAt]
  | text run =>
      simp [located, elementAt]

theorem pairwise_locatedFrom
    {ns : List Node}
    (hns : ∀ n ∈ ns, n.located.Pairwise fun p q => List.Lex (· < ·) p.1 q.1) :
    (locatedFrom 0 ns).Pairwise fun p q => List.Lex (· < ·) p.1 q.1 := by
  have hnumbers : ns.zipIdx.Pairwise fun p q => p.2 < q.2 := by
    rw [← List.pairwise_map, List.zipIdx_map_snd]
    exact List.pairwise_lt_range'
  rw [locatedFrom_eq_flatMap, List.pairwise_flatMap]
  constructor
  · rintro ⟨n, number⟩ hn
    rw [List.pairwise_map]
    exact (hns n (List.mem_of_getElem? (List.mem_zipIdx_iff_getElem?.1 hn))).imp .cons
  · refine hnumbers.imp fun hlt p hp q hq => ?_
    obtain ⟨p, -, rfl⟩ := List.mem_map.1 hp
    obtain ⟨q, -, rfl⟩ := List.mem_map.1 hq
    exact .rel hlt

/-- By induction over the tree: addresses come in lexicographic order. -/
theorem pairwise_located
    (n : Node) :
    n.located.Pairwise fun p q => List.Lex (· < ·) p.1 q.1 := by
  induction n with
  | element header children ih =>
      refine List.pairwise_cons.2 ⟨?_, pairwise_locatedFrom ih⟩
      rintro ⟨address, e⟩ hmem
      rw [mem_locatedFrom fun n _ => n.mem_located] at hmem
      cases address with
      | nil => cases hmem
      | cons number address => exact .nil
  | text run =>
      exact List.Pairwise.nil

theorem map_snd_locatedFrom
    {ns : List Node}
    (hns : ∀ n ∈ ns, n.located.map Prod.snd = n.elements)
    (number : Nat) :
    (locatedFrom number ns).map Prod.snd = elementsList ns := by
  induction ns generalizing number with
  | nil =>
      rfl
  | cons n rest ih =>
      rw [List.forall_mem_cons] at hns
      rw [locatedFrom, elementsList, List.map_append, ih hns.2, ← hns.1, List.map_map]
      rfl

/-- Without the addresses, the elements are those that recursion finds. -/
theorem map_snd_located
    (n : Node) :
    n.located.map Prod.snd = n.elements := by
  induction n with
  | element header children ih =>
      rw [located, elements, List.map_cons, map_snd_locatedFrom ih]
  | text run =>
      rfl

end Node

/-! ## What lies below void elements -/

/-- Whether one of the elements above an address is void. -/
def hasVoidAbove
    (elementAt : List Nat → Option Element)
    (address : List Nat) : Bool :=
  address.inits.dropLast.any fun above => (elementAt above).any fun e => e.header.isVoid

@[simp] theorem hasVoidAbove_nil
    (elementAt : List Nat → Option Element) :
    hasVoidAbove elementAt [] = false := rfl

theorem hasVoidAbove_cons
    (elementAt : List Nat → Option Element)
    (number : Nat)
    (address : List Nat) :
    hasVoidAbove elementAt (number :: address) =
      ((elementAt []).any (fun e => e.header.isVoid) ||
        hasVoidAbove (fun inner => elementAt (number :: inner)) address) := by
  have hinits : address.inits.map (number :: ·) ≠ [] := by
    cases address <;> simp
  rw [hasVoidAbove, List.inits_cons, List.dropLast_cons_of_ne_nil hinits, List.any_cons,
    ← List.map_dropLast, List.any_map]
  rfl

namespace Node

/-- The headers of those elements that no void element stands above. -/
def headersShown
    (elementAt : List Nat → Option Element)
    (located : List (List Nat × Element)) : List Header :=
  (located.filter fun p => !hasVoidAbove elementAt p.1).map fun p => p.2.header

theorem headersShown_locatedFrom
    {ns : List Node}
    (hns : ∀ n ∈ ns, headersShown n.elementAt n.located = n.visible.filterMap header?) :
    headersShown (Document.elementAt ns) (locatedFrom 0 ns) =
      (visibleList ns).filterMap header? := by
  rw [headersShown, locatedFrom_eq_flatMap, List.filter_flatMap, List.map_flatMap,
    visibleList_eq_flatMap, List.filterMap_flatMap]
  conv_rhs => rw [← List.zipIdx_map_fst 0 ns, List.flatMap_map]
  refine List.flatMap_congr fun numbered hmem => ?_
  rw [List.mem_zipIdx_iff_getElem?] at hmem
  rw [← hns numbered.1 (List.mem_of_getElem? hmem), headersShown, List.filter_map, List.map_map]
  congr 1
  refine List.filter_congr fun p _ => ?_
  simp [hasVoidAbove_cons, Document.elementAt, hmem]

/-- By induction over the tree: the elements without a void one above are those that are shown. -/
theorem headersShown_located
    (n : Node) :
    headersShown n.elementAt n.located = n.visible.filterMap header? := by
  induction n with
  | element header children ih =>
      have habove : ∀ p ∈ locatedFrom 0 children,
          hasVoidAbove (element header children).elementAt p.1 =
            (header.isVoid || hasVoidAbove (Document.elementAt children) p.1) := by
        rintro ⟨address, e⟩ hmem
        rw [mem_locatedFrom fun n _ => n.mem_located] at hmem
        cases address with
        | nil => cases hmem
        | cons number address => simp [hasVoidAbove_cons, elementAt, Document.elementAt]
      rw [headersShown, located, List.filter_cons_of_pos (by simp), List.map_cons, visible]
      rw [List.filter_congr fun p hp => by rw [habove p hp]]
      have hchildren := headersShown_locatedFrom ih
      rw [headersShown] at hchildren
      cases hvoid : header.isVoid with
      | true => simp [header?]
      | false => simp [header?, hchildren]
  | text run =>
      rfl

end Node

namespace Document

theorem headersShown_document
    (document : Document) :
    Node.headersShown document.elementAt (Node.locatedFrom 0 document) = document.shownHeaders :=
  Node.headersShown_locatedFrom fun n _ => n.headersShown_located

/-- The tag and the place that an entry tells of an element. -/
def elementOrigin? (entry : Position × MappingKind × Option String) :
    Option (Option String × Position) :=
  if entry.2.1 = .element then some (entry.2.2, entry.1) else none

/-- The entries of a source map that are about elements are those of the headers on the page. -/
theorem elementMappings_sourceMap
    (document : Document)
    (file : String) :
    ((document.sourceMap file).mappings.filter (·.kind = .element)).map
        (fun m => (m.name, m.origin)) =
      document.shownHeaders.map fun h => (some h.tag, h.position) := by
  have hmarks := (Page.displays_fragments document file).map_mappings Position.start
  rw [← mappings_sourceMap] at hmarks
  calc ((document.sourceMap file).mappings.filter (·.kind = .element)).map
          (fun m => (m.name, m.origin))
      = ((document.sourceMap file).mappings.map fun m => (m.origin, m.kind, m.name)).filterMap
          elementOrigin? := by
        rw [List.filterMap_map, ← List.filterMap_eq_map, List.filterMap_filter]
        exact List.filterMap_congr fun m _ => by simp [elementOrigin?]
    _ = ((Node.visibleList document).map
          fun n => (n.position, n.mappingKind, n.mappingName)).filterMap elementOrigin? := by
        rw [hmarks]
    _ = document.shownHeaders.map fun h => (some h.tag, h.position) := by
        rw [List.filterMap_map, shownHeaders, List.map_filterMap]
        refine List.filterMap_congr fun n _ => ?_
        cases n <;> rfl

end Document

/-! ## The walk with a stack -/

namespace Document

/-- Takes nodes from the top of a stack, which is its end, until one is an element, and puts the
children of that on the stack, the last one first. -/
def nextElement (stack : List Node) : Option (Element × List Node) :=
  match _htop : stack.getLast? with
  | none => none
  | some (.text _) => nextElement stack.dropLast
  | some (.element header children) =>
    some (⟨header, children⟩, stack.dropLast ++ children.reverse)
termination_by stack.length
decreasing_by
  have hpos : 0 < stack.length := List.length_pos_of_mem (List.mem_of_getLast? _htop)
  rw [List.length_dropLast]
  omega

/-- `Yields stack es`: the walk from `stack` finds `es` one after another and then ends. -/
inductive Yields : List Node → List Element → Prop
  | done
      {stack : List Node}
      (hnext : nextElement stack = none) :
      Yields stack []
  | next
      {stack rest : List Node} {e : Element} {es : List Element}
      (hnext : nextElement stack = some (e, rest))
      (hrest : Yields rest es) :
      Yields stack (e :: es)

theorem nextElement_nil : nextElement [] = none := by
  rw [nextElement]
  rfl

theorem nextElement_text
    (stack : List Node)
    (run : TextRun) :
    nextElement (stack ++ [.text run]) = nextElement stack := by
  rw [nextElement]
  split <;> simp_all

theorem nextElement_element
    (stack : List Node)
    (header : Header)
    (children : List Node) :
    nextElement (stack ++ [.element header children]) =
      some (⟨header, children⟩, stack ++ children.reverse) := by
  rw [nextElement]
  split <;> simp_all

namespace Yields

theorem text
    {stack : List Node}
    {es : List Element}
    (h : Yields stack es)
    (run : TextRun) :
    Yields (stack ++ [.text run]) es := by
  cases h with
  | done hnext => exact .done (by rw [nextElement_text, hnext])
  | next hnext hrest => exact .next (by rw [nextElement_text, hnext]) hrest

/-- A stack yields its elements in one way only. -/
theorem unique
    {stack : List Node}
    {es others : List Element}
    (h : Yields stack es)
    (hothers : Yields stack others) :
    es = others := by
  induction h generalizing others with
  | done hnext =>
      cases hothers with
      | done => rfl
      | next hnext' => simp [hnext] at hnext'
  | next hnext _ ih =>
      cases hothers with
      | done hnext' => simp [hnext] at hnext'
      | next hnext' hrest' =>
          simp only [hnext, Option.some.injEq, Prod.mk.injEq] at hnext'
          obtain ⟨rfl, rfl⟩ := hnext'
          rw [ih hrest']

end Yields

/-- What is pending stands on the stack in reverse. -/
theorem yields_elements
    (pending : Document) :
    Yields pending.reverse pending.elements := by
  fun_induction elements pending with
  | case1 =>
      exact .done nextElement_nil
  | case2 run rest ih =>
      rw [List.reverse_cons]
      exact ih.text run
  | case3 header children rest ih =>
      rw [List.reverse_append] at ih
      rw [List.reverse_cons]
      exact .next (nextElement_element _ _ _) ih

/-- The walk with a stack ends and finds the elements of the recursive pre-order. These are all
elements of the document, once for each address, in the order of addresses. The source map of the
page has the tags and the places of those that no void element stands above, in the same order. -/
theorem elements_in_preorder
    (document : Document)
    (file : String) :
    (∀ es, Yields document.reverse es ↔ es = document.elements) ∧
      document.elements = Node.elementsList document ∧
      ∃ located : List (List Nat × Element),
        (∀ address e, (address, e) ∈ located ↔ document.elementAt address = some e) ∧
        located.Pairwise (fun p q => List.Lex (· < ·) p.1 q.1) ∧
        document.elements = located.map Prod.snd ∧
        ((document.sourceMap file).mappings.filter (·.kind = .element)).map
            (fun m => (m.name, m.origin)) =
          (located.filter fun p => !hasVoidAbove document.elementAt p.1).map
            fun p => (some p.2.header.tag, p.2.header.position) := by
  refine ⟨fun es => ⟨fun h => h.unique document.yields_elements, ?_⟩,
    document.elements_eq_elementsList, Node.locatedFrom 0 document, ?_, ?_, ?_, ?_⟩
  · rintro rfl
    exact document.yields_elements
  · exact Node.mem_locatedFrom fun n _ => n.mem_located
  · exact Node.pairwise_locatedFrom fun n _ => n.pairwise_located
  · rw [elements_eq_elementsList, Node.map_snd_locatedFrom fun n _ => n.map_snd_located]
  · rw [elementMappings_sourceMap, ← headersShown_document, Node.headersShown, List.map_map]
    rfl

end Document

end BlockMarkup
