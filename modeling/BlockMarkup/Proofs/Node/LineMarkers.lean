import BlockMarkup.Proofs.Node.Acceptance
import BlockMarkup.Proofs.Node.Sound
import BlockMarkup.Proofs.Token.Starts

/-!
# Line markers say where lines begin

The reader gives each node the place of its first token and, if no node has begun on that line
before, the width of the line. The width is not written anywhere in the tokens of a line: it is the
one that the last change of indentation has set. The nodes of a tree in the order of the source are
the starts of its tokens (`Reader.run_starts`), and these have been compared with the source.

From the order of the starts it follows besides that no two nodes of a document stand at the same
place, also when its lines have been nested.
-/

namespace BlockMarkup

/-- Where a node starts, with its line marker. -/
def Node.start (n : Node) : Position × Option Nat := (n.position, n.indent)

namespace Text

/-- On one line, only the first of two starts can have a marker. -/
theorem MarksAt.line_ne
    {text : List Char}
    {place later : Position}
    {width : Nat}
    {marker : Option Nat}
    (hplace : MarksAt text place marker)
    (hlater : MarksAt text later (some width))
    (hbefore : place.Before later) :
    place.line ≠ later.line := by
  intro hline
  obtain ⟨-, hcolumn, line, hfound, -, c, hc, hopening⟩ := hplace
  obtain ⟨-, -, line', hfound', hmarker, -⟩ := hlater
  obtain rfl : line = line' := by
    rw [hline, hfound', Option.some.injEq] at hfound
    exact hfound.symm
  have hfirst := ((hmarker width).1 rfl).1
  have hcolumns : place.column - 1 < later.column - 1 := by
    unfold Position.Before at hbefore
    omega
  -- the character at which the first node starts stands before the second one
  have hat : (line.take (later.column - 1))[place.column - 1]? = some c := by
    rw [List.getElem?_take_of_lt hcolumns, ← List.head?_drop, hc]
  exact hopening (hfirst c (List.mem_of_getElem? hat))

end Text

namespace Grammar

open Token

variable (width : Nat) (fresh : Bool)

theorem starts_decoration
    (ds : List Decoration)
    (more : List Token) :
    starts .nodes width fresh (ds.flatMap Decoration.tokens ++ more) =
      starts .nodes width fresh more := by
  induction ds with
  | nil =>
      rfl
  | cons d ds ih =>
      rw [List.flatMap_cons, List.append_assoc, ← ih]
      cases d with
      | className dot name =>
          simp [Decoration.tokens, starts]
      | id hash name =>
          simp [Decoration.tokens, starts]

theorem starts_pair
    (p : Pair)
    (more : List Token) :
    starts .list width fresh (p.tokens ++ more) = starts .list width fresh more := by
  simp [Pair.tokens, starts]

theorem starts_pairs
    (ps : Pairs)
    (more : List Token) :
    starts .list width fresh (ps.tokens ++ more) = starts .list width fresh more := by
  induction ps with
  | one pair =>
      exact starts_pair width fresh pair more
  | trailing pair comma =>
      rw [Pairs.tokens, List.append_assoc, starts_pair]
      simp [starts]
  | more pair comma rest ih =>
      rw [Pairs.tokens, List.append_assoc, starts_pair, List.cons_append, ← ih]
      simp [starts]

/-- Behind its tag, a heading starts no node. -/
theorem starts_behind
    (heading : Heading)
    (more : List Token) :
    starts .nodes width fresh (heading.behind ++ more) = starts .nodes width fresh more := by
  rw [Heading.behind, List.append_assoc, starts_decoration]
  cases heading.parens with
  | absent =>
      rfl
  | empty opening closing =>
      simp [Parens.tokens, starts]
  | filled opening pairs closing =>
      have hpairs := starts_pairs width fresh pairs (closing.1 :: more)
      simp [Parens.tokens, starts, hpairs]

end Grammar

namespace Reader

open Token

/-- The nodes that have been read, in the order of the source, each without its children. -/
def collected : List OpenBlock → List Node → List Node
  | [], nodes => Node.preorderList nodes.reverse
  | block :: outer, nodes =>
    collected outer block.before ++ .element block.header [] :: Node.preorderList nodes.reverse

theorem collected_cons
    (blocks : List OpenBlock)
    (n : Node)
    (nodes : List Node) :
    collected blocks (n :: nodes) = collected blocks nodes ++ n.preorder := by
  cases blocks <;> simp [collected, Node.preorderList]

/-- Reading goes on with one node for each start. -/
theorem run_starts
    {last : Position}
    {r : Reader}
    {tokens : List Token}
    {document : Document}
    (h : r.run last tokens = .ok document) :
    (Node.preorderList document).map Node.start =
      (collected r.blocks r.nodes).map Node.start ++ starts .nodes r.width r.fresh tokens := by
  have hfinish : ∀ {r : Reader}, r.finish = .ok document →
      (Node.preorderList document).map Node.start =
        (collected r.blocks r.nodes).map Node.start := by
    intro r hr
    cases hblocks : r.blocks with
    | nil =>
        simp only [finish, hblocks, Except.ok.injEq] at hr
        rw [collected, hr]
    | cons block outer =>
        simp [finish, hblocks] at hr
  have hstart : ∀ (r : Reader) (heading : Grammar.Heading) (more : List Token),
      starts .nodes r.width r.fresh (heading.tag.1 :: more) =
        (Node.element (heading.header r.marker) []).start :: starts .nodes r.width false more := by
    intro r heading more
    simp [starts, Node.start, Node.position, Node.indent, Grammar.Heading.header, marker]
  have hchildless : ∀ (r : Reader) (header : Header),
      collected (r.add (.element header [])).blocks (r.add (.element header [])).nodes =
        collected r.blocks r.nodes ++ [.element header []] := by
    intro r header
    simp [add, collected_cons, Node.preorder, Node.preorderList]
  fun_induction Reader.run last r tokens with
  | case1 r =>
      rw [hfinish h, starts, List.append_nil]
  | case2 r t rest ht =>
      simp [hfinish h, starts, ht]
  | case3 r t rest ht ih =>
      simp [ih h, starts, ht]
  | case4 r t rest ht ih =>
      simp [ih h, starts, ht]
  | case5 r t rest ht ih =>
      simp [ih h, starts, ht]
  | case7 r t rest ht block outer hopen element ih =>
      have helement : element = .element block.header r.nodes.reverse := by simp [element]
      rw [helement] at ih
      simp [ih h, starts, ht, hopen, collected_cons, collected, Node.preorder]
  | case8 r t rest ht ih =>
      simp [ih h, starts, ht, add, collected_cons, Node.preorder, Node.start, Node.position,
        Node.indent, marker]
  | case10 r t rest ht read hread _ ih =>
      obtain ⟨heading, rfl, rfl, rfl⟩ := header_derived ht hread
      rw [ih h, hstart, hchildless, Grammar.starts_behind]
      simp [add]
  | case12 r t rest ht read brace inside hread hbrace hdepth _ ih =>
      obtain ⟨heading, rfl, rfl, rfl⟩ := header_derived ht hread
      rw [ih h, hstart, Grammar.starts_behind]
      simp [enter, collected, Node.preorderList, starts, hbrace]
  | case13 r t rest ht read brace inside hread _ _ ih =>
      obtain ⟨heading, rfl, rfl, rfl⟩ := header_derived ht hread
      rw [ih h, hstart, hchildless, Grammar.starts_behind]
      simp [add]
  | _ => cases h

end Reader

namespace Document

/-- The nodes of a parsed source start one after another, and each has the marker of its place. -/
theorem parse_starts
    {source file : String}
    {document : Document}
    (hparse : parse source file = .ok document) :
    ∃ place, Scanner.InOrder source.toList place
      ((Node.preorderList document).map Node.start) := by
  unfold parse at hparse
  split at hparse
  · simp at hparse
  · next tokens hscan =>
      split at hparse
      · simp at hparse
      · next found hfound =>
          simp only [Except.ok.injEq] at hparse
          subst hparse
          obtain ⟨place, hstarts⟩ := Token.scan_starts hscan
          refine ⟨place, ?_⟩
          have hrun := Reader.run_starts hfound
          simp only [Reader.start, Reader.collected, List.reverse_nil, Node.preorderList,
            List.map_nil, List.nil_append] at hrun
          rw [hrun]
          exact hstarts

/-- Nesting the lines of a document keeps the order of its nodes in the source. -/
theorem read_ordered
    {source file : String}
    {document : Document}
    (hread : read source file = .ok document) :
    (Node.preorderList document).Pairwise fun n later => n.position.Before later.position := by
  unfold read at hread
  split at hread
  · simp at hread
  · next parsed hparse =>
      unfold nestFrom at hread
      split at hread
      · simp at hread
      · next nested hnest =>
          simp only [Except.ok.injEq] at hread
          subst hread
          obtain ⟨hwell, rfl⟩ := (nest_eq_ok_iff _ _).1 hnest
          obtain ⟨place, -, hordered, -⟩ := parse_starts hparse
          rw [List.pairwise_map] at hordered
          rw [preorderList_arranged hwell, List.pairwise_map]
          refine hordered.imp fun {n later} hbefore => ?_
          cases n <;> cases later <;> exact hbefore

/-- Line markers say exactly where lines begin: a node has one if and only if nothing but white
space and closing braces stands before it on its line, and then it is the width of the margin of
that line. So no two nodes on one line have a marker. -/
theorem parse_marks_line_beginnings
    {source file : String}
    {document : Document}
    (hparse : parse source file = .ok document) :
    (∀ n ∈ Node.preorderList document, Text.MarksAt source.toList n.position n.indent) ∧
      (Node.preorderList document).Pairwise fun n later =>
        n.indent.isSome = true → later.indent.isSome = true →
          n.position.line ≠ later.position.line := by
  obtain ⟨place, -, hordered, hmarked⟩ := parse_starts hparse
  rw [List.forall_mem_map] at hmarked
  refine ⟨hmarked, ?_⟩
  rw [List.pairwise_map] at hordered
  refine hordered.imp_of_mem fun {n later} hn hlater hbefore _ hmarker => ?_
  obtain ⟨width, hwidth⟩ := Option.isSome_iff_exists.1 hmarker
  have hlate := hmarked later hlater
  simp only [Node.start, hwidth] at hlate
  exact (hmarked n hn).line_ne hlate hbefore

/-- A value that goes on over a line, a closing brace before an element, and a line with blanks of
all sorts. -/
def brokenLines : String :=
  "div \x7b\n\tp(title: \"a\n  b\") \x7b one \x7d\n \t\r\n" ++
    " \x7d \r span \x7b\x7d two\n three\n\n   last"

theorem parse_marks_line_beginnings_brokenLines :
    ∃ document, parse brokenLines "index" = .ok document ∧
      (Node.preorderList document).map Node.start =
        [(⟨1, 1⟩, some 0), (⟨2, 2⟩, some 4), (⟨3, 9⟩, none), (⟨5, 6⟩, some 1), (⟨5, 14⟩, none),
          (⟨6, 2⟩, some 1), (⟨8, 4⟩, some 3)] ∧
      (∀ n ∈ Node.preorderList document, Text.MarksAt brokenLines.toList n.position n.indent) ∧
      (Node.preorderList document).Pairwise fun n later =>
        n.indent.isSome = true → later.indent.isSome = true →
          n.position.line ≠ later.position.line := by
  have hstarts : (parse brokenLines "index").toOption.map
      (fun document => (Node.preorderList document).map Node.start) =
        some [(⟨1, 1⟩, some 0), (⟨2, 2⟩, some 4), (⟨3, 9⟩, none), (⟨5, 6⟩, some 1), (⟨5, 14⟩, none),
          (⟨6, 2⟩, some 1), (⟨8, 4⟩, some 3)] := by decide +kernel
  cases hparse : parse brokenLines "index" with
  | error e =>
      simp [hparse, Except.toOption] at hstarts
  | ok document =>
      simp only [hparse, Except.toOption, Option.map_some, Option.some.injEq] at hstarts
      exact ⟨document, rfl, hstarts, parse_marks_line_beginnings hparse⟩

end Document

end BlockMarkup
