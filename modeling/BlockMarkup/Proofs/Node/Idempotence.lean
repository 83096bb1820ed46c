import BlockMarkup.Proofs.Node.WellIndented

/-!
# Nesting moves nodes, and does so once

Nesting gives nodes other parents. It keeps them all, in the order of the source, and takes away
nothing but their line markers. A document without line markers has no lines to nest: it is arranged
already (`Document.arranged_eq_self`), and the only fault that it can have is a node that lies too
deep. The first nesting has counted the depth of every node in its result, so a second one finds no
fault and changes nothing.
-/

namespace BlockMarkup

namespace Line

/-- Items without markers make no line. -/
theorem split_of_unmarked
    {α : Type}
    {items : List (Option Nat × α)}
    (hnone : ∀ item ∈ items, item.1 = none) :
    split items = (items.map Prod.snd, []) := by
  induction items with
  | nil =>
      rfl
  | cons item rest ih =>
      obtain ⟨marker, a⟩ := item
      rw [List.forall_mem_cons] at hnone
      obtain ⟨rfl, hrest⟩ := hnone
      rw [split, ih hrest, List.map_cons]

/-- Without markers there is nothing to arrange. -/
theorem arrange_of_unmarked
    {items : List (Option Nat × Node)}
    (hnone : ∀ item ∈ items, item.1 = none) :
    arrange items = items.map Prod.snd := by
  rw [arrange, split_of_unmarked hnone, block, List.append_nil]

end Line

namespace Node

theorem indent_eq_none
    {n : Node}
    (hnone : ∀ m ∈ n.preorder, m.indent = none) :
    n.indent = none := by
  cases n with
  | element header children =>
      exact hnone (.element header []) (by simp [preorder])
  | text run =>
      exact hnone (.text run) (by simp [preorder])

/-- Siblings that are arranged inside and begin no line are arranged. -/
theorem arrange_marked_eq_self
    {ns : List Node}
    (hnone : ∀ n ∈ ns, n.indent = none)
    (hinside : ∀ n ∈ ns, n.arranged = n) :
    Line.arrange (marked ns) = ns := by
  have hmarkers : ∀ item ∈ marked ns, item.1 = none := by
    rw [marked_eq_map, List.forall_mem_map]
    exact hnone
  rw [Line.arrange_of_unmarked hmarkers, marked_eq_map, List.map_map]
  exact (List.map_congr_left hinside).trans (List.map_id ns)

/-- A tree without markers is arranged already. -/
theorem arranged_eq_self
    {n : Node}
    (hnone : ∀ m ∈ n.preorder, m.indent = none) :
    n.arranged = n := by
  induction n with
  | element header children ih =>
      have hheader : header.indent = none := indent_eq_none hnone
      have hchildren : ∀ child ∈ children, ∀ m ∈ child.preorder, m.indent = none :=
        fun child hchild m hm => hnone m (mem_preorder_of_child hchild hm)
      have hsame : Line.arrange (marked children) = children :=
        arrange_marked_eq_self (fun child hchild => indent_eq_none (hchildren child hchild))
          fun child hchild => ih child hchild (hchildren child hchild)
      rw [arranged, hsame, ← hheader]
  | text run =>
      have hrun : run.indent = none := indent_eq_none hnone
      rw [arranged, ← hrun]

theorem linesFit_of_unmarked
    {ns : List Node}
    (hnone : ∀ n ∈ ns, n.indent = none) :
    LinesFit ns := by
  have hlines : Line.ofNodes ns = [] := by
    have hmarkers : ∀ item ∈ ns.map fun n => (n.indent, n), item.1 = none :=
      List.forall_mem_map.2 hnone
    rw [Line.ofNodes, Line.split_of_unmarked hmarkers]
  intro before l after heq
  simp [hlines] at heq

end Node

namespace Document

variable {document : Document}

theorem mem_preorderList_of_mem_elements
    {e : Element}
    (he : e ∈ document.elements)
    {m : Node}
    (hm : m ∈ Node.preorderList e.children) :
    m ∈ Node.preorderList document := by
  fun_induction elements document with
  | case1 =>
      cases he
  | case2 run rest ih =>
      exact List.mem_cons_of_mem _ (ih he)
  | case3 header children rest ih =>
      rw [Node.preorderList, Node.preorder, List.cons_append, ← Node.preorderList_append]
      rcases List.mem_cons.1 he with rfl | he
      · simp [hm]
      · exact List.mem_cons_of_mem _ (ih he)

section Unmarked

variable (hnone : ∀ n ∈ Node.preorderList document, n.indent = none)

include hnone

theorem arranged_eq_self : document.arranged = document := by
  have hpreorder : ∀ n ∈ document, ∀ m ∈ n.preorder, m.indent = none :=
    fun n hn m hm => hnone m (Node.mem_preorderList.2 ⟨n, hn, hm⟩)
  exact Node.arrange_marked_eq_self (fun n hn => Node.indent_eq_none (hpreorder n hn))
    fun n hn => Node.arranged_eq_self (hpreorder n hn)

theorem siblingLists_unmarked :
    ∀ ns ∈ document.siblingLists, ∀ n ∈ ns, n.indent = none := by
  have hlist : ∀ ns : List Node, (∀ m ∈ Node.preorderList ns, m.indent = none) →
      ∀ n ∈ ns, n.indent = none :=
    fun ns hns n hn => Node.indent_eq_none fun m hm =>
      hns m (Node.mem_preorderList.2 ⟨n, hn, hm⟩)
  rw [siblingLists, List.forall_mem_cons, List.forall_mem_map]
  exact ⟨hlist document hnone,
    fun e he => hlist e.children fun m hm => hnone m (mem_preorderList_of_mem_elements he hm)⟩

/-- Without line markers, only the depth of a document can be wrong. -/
theorem nest_of_unmarked
    (hdepth : ∀ depth ∈ Node.depthsList 0 document, depth ≤ maxDepth) :
    document.nest = .ok document := by
  have hself := arranged_eq_self hnone
  refine (nest_eq_ok_iff _ _).2 ⟨⟨fun ns hns => ?_, ?_⟩, hself.symm⟩
  · exact Node.linesFit_of_unmarked (siblingLists_unmarked hnone ns hns)
  · rw [hself]
    exact hdepth

end Unmarked

/-- Nesting keeps the nodes of a document in their order and changes nothing about them but their
line markers, none of which is left. No node lies too deep afterwards, and nesting the result gives
it back. -/
theorem nest_moves_nodes_once
    {result : Document}
    (hnest : document.nest = .ok result) :
    (Node.preorderList result).map Node.unmarked =
        (Node.preorderList document).map Node.unmarked ∧
      (∀ n ∈ Node.preorderList result, n.indent = none) ∧
      (∀ depth ∈ Node.depthsList 0 result, depth ≤ maxDepth) ∧
      result.nest = .ok result := by
  obtain ⟨hwell, rfl⟩ := (nest_eq_ok_iff _ _).1 hnest
  have hnodes := preorderList_arranged hwell
  have hnone : ∀ n ∈ Node.preorderList document.arranged, n.indent = none := by
    rw [hnodes, List.forall_mem_map]
    intro n _
    cases n <;> rfl
  refine ⟨?_, hnone, hwell.depth, nest_of_unmarked hnone hwell.depth⟩
  rw [hnodes, List.map_map]
  refine List.map_congr_left fun n _ => ?_
  cases n <;> rfl

/-- A list whose items stand on margins, one of them with a block in braces. -/
def looseList : Document :=
  [.element ⟨"ul", some "nav", ["wide"], Dict.empty, ⟨1, 3⟩, some 2⟩ [],
    .element ⟨"li", none, [], Dict.empty, ⟨2, 5⟩, some 4⟩ [.text ⟨"one", ⟨3, 7⟩, some 6⟩],
    .text ⟨"more", ⟨3, 13⟩, none⟩,
    .element ⟨"li", none, [], Dict.empty, ⟨4, 5⟩, some 4⟩ [],
    .text ⟨"two", ⟨5, 9⟩, some 8⟩,
    .text ⟨"end", ⟨6, 3⟩, some 2⟩]

def tightList : Document :=
  [.element ⟨"ul", some "nav", ["wide"], Dict.empty, ⟨1, 3⟩, none⟩
      [.element ⟨"li", none, [], Dict.empty, ⟨2, 5⟩, none⟩ [.text ⟨"one", ⟨3, 7⟩, none⟩],
        .text ⟨"more", ⟨3, 13⟩, none⟩,
        .element ⟨"li", none, [], Dict.empty, ⟨4, 5⟩, none⟩ [.text ⟨"two", ⟨5, 9⟩, none⟩]],
    .text ⟨"end", ⟨6, 3⟩, none⟩]

theorem nest_moves_nodes_once_looseList :
    looseList.nest = .ok tightList ∧
      (Node.preorderList tightList).map Node.unmarked =
        (Node.preorderList looseList).map Node.unmarked ∧
      (∀ n ∈ Node.preorderList tightList, n.indent = none) ∧
      (∀ depth ∈ Node.depthsList 0 tightList, depth ≤ maxDepth) ∧
      tightList.nest = .ok tightList := by
  have hnest : looseList.nest = .ok tightList := by decide +kernel
  exact ⟨hnest, nest_moves_nodes_once hnest⟩

end Document

end BlockMarkup
