import BlockMarkup.Proofs.Node.Lines
import BlockMarkup.Proofs.Node.Outline

/-!
# What nesting by indentation does

The meaning of the lines of a document (`Document.arranged`) and everything that can be wrong with
them (`Document.faults`) are defined on the tree as it was read. An outline represents the
siblings that it has taken (`Outline.Represents`): its open blocks have the widths that what
follows may continue, and closing them gives the arranged siblings. Each step keeps this, so
nesting gives the arranged document unless there is a fault, and otherwise the first fault
(`Document.nest_eq_outcome`).
-/

namespace BlockMarkup

namespace Line

/-- The lines of a sibling list. -/
def ofNodes (ns : List Node) : List (Line Node) :=
  (split (ns.map fun n => (n.indent, n))).2

/-- What is asked of a line of some width: it is not narrower than the first line; if it is
narrower than the line directly before it, it has the width of the latest line that is not wider;
and if it is wider than the line directly before it, that line ends with an element. -/
structure Fits
    (before : List (Line Node))
    (width : Nat) : Prop where
  base : ∀ first ∈ before.head?, first.width ≤ width
  dedent : ∀ previous ∈ before.getLast?, width < previous.width →
    (latestWithin width before).map (·.width) = some width
  parent : ∀ previous ∈ before.getLast?, previous.width < width → previous.last.isElement = true

/-- The problem of a line of some width behind others, if it does not fit. -/
def problem?
    (before : List (Line Node))
    (width : Nat) : Option IndentationProblem :=
  match before.head?, before.getLast? with
  | some first, some previous =>
    if width < first.width then some (.inconsistentDedent width)
    else if width < previous.width ∧ (latestWithin width before).map (·.width) ≠ some width then
      some (.inconsistentDedent width)
    else if previous.width < width ∧ previous.last.isElement = false then some .nestedUnderText
    else none
  | _, _ => none

/-- When a line fits: it is not left of the first one, it stands under a line of its width if it
goes back, and under an element if it goes deeper. -/
theorem fits_iff
    {before : List (Line Node)}
    {first previous : Line Node}
    (hfirst : before.head? = some first)
    (hprevious : before.getLast? = some previous)
    (width : Nat) :
    Fits before width ↔
      first.width ≤ width ∧
      (width < previous.width → (latestWithin width before).map (·.width) = some width) ∧
      (previous.width < width → previous.last.isElement = true) := by
  constructor
  · intro hfits
    exact ⟨hfits.base first hfirst, hfits.dedent previous hprevious,
      hfits.parent previous hprevious⟩
  · rintro ⟨hbase, hdedent, hparent⟩
    refine ⟨?_, ?_, ?_⟩
    · intro l hl
      rw [hfirst] at hl
      cases hl
      exact hbase
    · intro l hl
      rw [hprevious] at hl
      cases hl
      exact hdedent
    · intro l hl
      rw [hprevious] at hl
      cases hl
      exact hparent

theorem problem?_nil
    (width : Nat) :
    problem? [] width = none := rfl

/-- A line has no problem exactly if it fits. -/
theorem problem?_eq_none_iff
    (before : List (Line Node))
    (width : Nat) :
    problem? before width = none ↔ Fits before width := by
  cases before with
  | nil =>
      exact ⟨fun _ => ⟨by simp, by simp, by simp⟩, fun _ => problem?_nil width⟩
  | cons first rest =>
      obtain ⟨previous, hprevious⟩ : ∃ previous, (first :: rest).getLast? = some previous :=
        ⟨_, List.getLast?_eq_some_getLast (by simp)⟩
      rw [fits_iff rfl hprevious, problem?, hprevious]
      simp only [List.head?_cons]
      split_ifs with hbase hdedent hparent
      · simp [hbase]
      · simp only [false_iff]
        intro hfits
        exact hdedent.2 (hfits.2.1 hdedent.1)
      · simp only [false_iff]
        intro hfits
        simp [hfits.2.2 hparent.1] at hparent
      · simp only [true_iff]
        refine ⟨not_lt.1 hbase, fun hlt => ?_, fun hlt => ?_⟩
        · by_contra hne
          exact hdedent ⟨hlt, hne⟩
        · by_contra hne
          exact hparent ⟨hlt, by simpa using hne⟩

end Line

namespace Node

mutual

/-- A node with its lines nested: an element's children are arranged, and no line marker is left. -/
def arranged : Node → Node
  | .text run => .text { run with indent := none }
  | .element header children =>
    .element { header with indent := none } (Line.arrange (marked children))

/-- Siblings with their lines nested inside, each with its own marker. -/
def marked : List Node → List (Option Nat × Node)
  | [] => []
  | n :: rest => (n.indent, n.arranged) :: marked rest

end

/-- The number of lines that a node stands below if it follows the siblings `before`. -/
def levelBehind
    (before : List Node)
    (n : Node) : Nat :=
  match n.indent with
  | none => Line.lastLevel (Line.ofNodes before)
  | some width => Line.level width (Line.ofNodes before)

/-- The fault of the line that a node begins behind the siblings `before`. -/
def lineFaults
    (before : List Node)
    (n : Node) : List IndentationError :=
  match n.indent with
  | none => []
  | some width => ((Line.problem? (Line.ofNodes before) width).map (⟨·, n.position⟩)).toList

/-- The fault of a node that lies too deep. -/
def depthFaults
    (depth : Nat)
    (position : Position) : List IndentationError :=
  if maxDepth < depth then [⟨.tooDeep, position⟩] else []

mutual

/-- Everything that is wrong with the indentation of a node at `depth` and inside it, in the order
of the source. -/
def faults (depth : Nat) : Node → List IndentationError
  | .text run => depthFaults depth run.position
  | .element header children =>
    depthFaults depth header.position ++ siblingFaults (depth + 1) [] children

/-- The same for siblings that follow the siblings `before`. The line of a node comes before the
node itself. -/
def siblingFaults (depth : Nat) (before : List Node) : List Node → List IndentationError
  | [] => []
  | n :: rest =>
    n.lineFaults before ++ n.faults (depth + n.levelBehind before) ++
      siblingFaults depth (before ++ [n]) rest

end

end Node

namespace Document

/-- The document with its lines nested. -/
def arranged (document : Document) : Document := Line.arrange (Node.marked document)

/-- Everything that is wrong with the indentation of a document, in the order of the source. -/
def faults (document : Document) : List IndentationError := Node.siblingFaults 0 [] document

end Document

namespace Outline

/-- An outline that has taken the siblings `before`: its blocks are those that what follows may
continue, and closing them gives the arranged siblings. -/
structure Represents
    (o : Outline)
    (before : List Node) : Prop where
  base : o.baseWidth = (Line.ofNodes before).head?.map (·.width)
  widths : o.widths ++ o.baseWidth.toList = Line.openWidths (Line.ofNodes before)
  placed : o.finish = Line.arrange (Node.marked before)
  last : o.innermost.head?.map Node.isElement = before.getLast?.map Node.isElement

theorem represents_empty : empty.Represents [] := by
  refine ⟨rfl, rfl, ?_, rfl⟩
  rw [empty, finish_nil]
  rfl

/-- The widths of the open blocks in terms of the lines: the last line is in the innermost. -/
theorem Represents.openWidths_eq
    {o : Outline}
    {before : List Node}
    (hrep : o.Represents before)
    {first previous : Line Node}
    (hfirst : (Line.ofNodes before).head? = some first)
    (hprevious : (Line.ofNodes before).getLast? = some previous) :
    o.baseWidth = some first.width ∧
      o.widths ++ [first.width] = Line.openWidths (Line.ofNodes before) ∧
      (Line.openWidths (Line.ofNodes before)).head? = some previous.width := by
  have hbase : o.baseWidth = some first.width := by
    rw [hrep.base, hfirst]
    rfl
  refine ⟨hbase, ?_, ?_⟩
  · rw [← hrep.widths, hbase]
    rfl
  · obtain ⟨init, hinit⟩ := List.getLast?_eq_some_iff.1 hprevious
    rw [hinit, Line.openWidths_append]
    rfl

/-- The last node of the innermost block is the one that the line before ends with. -/
theorem Represents.innermost_eq
    {o : Outline}
    {before : List Node}
    (hrep : o.Represents before)
    {previous : Line Node}
    (hprevious : (Line.ofNodes before).getLast? = some previous) :
    o.innermost.head?.map Node.isElement = some previous.last.isElement := by
  have hlast := Line.last_of_getLast?_split hprevious
  rw [hrep.last]
  rw [List.getLast?_map, Option.map_map] at hlast
  have hsome : before.getLast? = some previous.last := by
    simpa using hlast
  rw [hsome]
  rfl

/-- An outline in which a line has begun: its innermost block has the width of the line, and the
other blocks are those that the line leaves open. -/
structure Begun
    (o : Outline)
    (before : List Node)
    (width : Nat)
    (next : Outline) : Prop where
  base : next.baseWidth = some (((Line.ofNodes before).head?.map (·.width)).getD width)
  widths : next.widths ++ next.baseWidth.toList =
    width :: (Line.openWidths (Line.ofNodes before)).filter (· < width)
  finish : next.finish = o.finish

theorem Represents.exists_begun_of_nil
    {o : Outline}
    {before : List Node}
    (hrep : o.Represents before)
    (hlines : Line.ofNodes before = [])
    (width : Nat)
    (position : Position) :
    ∃ next, o.beginLine width position = .ok next ∧ o.Begun before width next := by
  have hbase : o.baseWidth = none := by
    rw [hrep.base, hlines]
    rfl
  have hframes : o.frames = [] := by
    have hwidths := hrep.widths
    rw [hbase, hlines] at hwidths
    simpa [Outline.widths, Line.openWidths] using hwidths
  refine ⟨_, beginLine_of_nil hbase hframes width position, ?_, ?_, finish_baseWidth _ _ _ _⟩
  · rw [hlines]
    rfl
  · simp [Outline.widths, hframes, hlines, Line.openWidths]

section Behind

variable {o : Outline} {before : List Node} {first previous : Line Node} {width : Nat}

/-- A line that continues a block closes the blocks inside it. -/
theorem Represents.begun_closeWider
    (hrep : o.Represents before)
    (hfirst : (Line.ofNodes before).head? = some first)
    (hprevious : (Line.ofNodes before).getLast? = some previous)
    (hle : first.width ≤ width)
    (htop : (o.widths.dropWhile (width < ·)).head?.getD first.width = width) :
    o.Begun before width (closeWider width o) := by
  obtain ⟨hbase, hopen, -⟩ := hrep.openWidths_eq hfirst hprevious
  obtain ⟨hwidths, hbaseWidth, hfinish⟩ := closeWider_spec width o
  have hsorted := Line.openWidths_pairwise (Line.ofNodes before)
  rw [← hopen] at hsorted
  refine ⟨?_, ?_, hfinish⟩
  · rw [hbaseWidth, hbase, hfirst]
    rfl
  · rw [hbaseWidth, hbase, hwidths, ← hopen]
    exact dropWhile_append_singleton hsorted hle htop

/-- A line that is wider than the one before it opens a block below its last node. -/
theorem Represents.begun_openBlock
    (hrep : o.Represents before)
    (hfirst : (Line.ofNodes before).head? = some first)
    (hprevious : (Line.ofNodes before).getLast? = some previous)
    (hwider : previous.width < width)
    {header : Header}
    {children inner : List Node}
    (hinner : o.innermost = .element header children :: inner) :
    o.Begun before width
      { o.dropLast with frames := ⟨width, header, children.reverse⟩ :: o.dropLast.frames } := by
  obtain ⟨hbase, hopen, hhead⟩ := hrep.openWidths_eq hfirst hprevious
  have hsorted := Line.openWidths_pairwise (Line.ofNodes before)
  refine ⟨by simp [hbase, hfirst], ?_, finish_openBlock hinner width⟩
  rw [filter_lt_eq_self hsorted hhead hwider, widths_openBlock, ← hopen]
  simp [hbase]

end Behind

/-- What beginning a line does to an outline: a line that does not fit is refused, and otherwise
the blocks are those that the new line leaves open. -/
theorem beginLine_spec
    {o : Outline}
    {before : List Node}
    (hrep : o.Represents before)
    (width : Nat)
    (position : Position) :
    (∀ problem, Line.problem? (Line.ofNodes before) width = some problem →
      o.beginLine width position = .error ⟨problem, position⟩) ∧
    (Line.problem? (Line.ofNodes before) width = none →
      ∃ next, o.beginLine width position = .ok next ∧ o.Begun before width next) := by
  rcases hlines : Line.ofNodes before with _ | ⟨first, rest⟩
  · exact ⟨by simp [Line.problem?_nil], fun _ => hrep.exists_begun_of_nil hlines width position⟩
  · obtain ⟨previous, hprevious⟩ : ∃ previous, (first :: rest).getLast? = some previous :=
      ⟨_, List.getLast?_eq_some_getLast (by simp)⟩
    rw [← hlines] at hprevious ⊢
    have hfirst : (Line.ofNodes before).head? = some first := by
      rw [hlines]
      rfl
    obtain ⟨hbase, hopen, hhead⟩ := hrep.openWidths_eq hfirst hprevious
    have hlast := hrep.innermost_eq hprevious
    rw [Line.problem?, hfirst, hprevious]
    dsimp only
    by_cases hnarrow : width < first.width
    · rw [if_pos hnarrow]
      refine ⟨?_, by simp⟩
      rintro problem ⟨⟩
      simp [beginLine, hbase, hnarrow]
    · rw [if_neg hnarrow, Line.map_width_latestWithin, ← hopen,
        find?_append_singleton _ (not_lt.1 hnarrow),
        beginLine_of_some hbase (not_lt.1 hnarrow)]
      rw [← hopen] at hhead
      have hclosed := length_dropWhile_lt_iff hhead (not_lt.1 hnarrow)
      have hkept : previous.width ≤ width →
          (o.widths.dropWhile (width < ·)).head?.getD first.width = previous.width :=
        head?_dropWhile_of_le hhead
      by_cases htop : (o.widths.dropWhile (width < ·)).head?.getD first.width = width
      · -- the line continues a block that is open
        have hnotWider : ¬ previous.width < width := by
          intro hlt
          have := hkept (le_of_lt hlt)
          omega
        refine ⟨by simp [htop, hnotWider], fun _ => ?_⟩
        rw [if_pos htop]
        exact ⟨_, rfl, hrep.begun_closeWider hfirst hprevious (not_lt.1 hnarrow) htop⟩
      · rw [if_neg htop]
        by_cases hdedent : width < previous.width
        · -- blocks are closed, and none of the line's width is left
          rw [if_pos (hclosed.2 hdedent), if_pos ⟨hdedent, by simpa using htop⟩]
          refine ⟨?_, by simp⟩
          rintro problem ⟨⟩
          rfl
        · have hwider : previous.width < width := by
            have := hkept (not_lt.1 hdedent)
            omega
          rw [if_neg (mt hclosed.1 hdedent), if_neg fun h => hdedent h.1]
          rcases hinner : o.innermost with _ | ⟨n, inner⟩
          · simp [hinner] at hlast
          · cases n with
            | text run =>
                have hnot : previous.last.isElement = false := by
                  simpa [hinner, Node.isElement] using hlast.symm
                rw [if_pos ⟨hwider, hnot⟩]
                refine ⟨?_, by simp⟩
                rintro problem ⟨⟩
                rfl
            | element header children =>
                have helement : previous.last.isElement = true := by
                  simpa [hinner, Node.isElement] using hlast.symm
                rw [if_neg fun h => by simp [helement] at h]
                refine ⟨by simp, fun _ => ?_⟩
                exact ⟨_, rfl, hrep.begun_openBlock hfirst hprevious hwider hinner⟩

end Outline

namespace Node

theorem isElement_arranged
    (n : Node) :
    n.arranged.isElement = n.isElement := by
  cases n <;> simp [arranged, isElement]

theorem marked_eq_map
    (ns : List Node) :
    marked ns = ns.map fun n => (n.indent, n.arranged) := by
  induction ns with
  | nil =>
      rfl
  | cons n rest ih =>
      rw [marked, ih, List.map_cons]

theorem lines_marked
    (ns : List Node) :
    (Line.split (marked ns)).2 = (Line.ofNodes ns).map (Line.map arranged) := by
  have hmap := Line.split_map arranged (ns.map fun n => (n.indent, n))
  rw [List.map_map] at hmap
  rw [marked_eq_map, Line.ofNodes]
  exact congrArg Prod.snd hmap

/-- A node with a marker begins a line. -/
theorem ofNodes_append_some
    (before : List Node)
    {n : Node}
    {width : Nat}
    (hn : n.indent = some width) :
    Line.ofNodes (before ++ [n]) = Line.ofNodes before ++ [⟨width, n, []⟩] := by
  simp [Line.ofNodes, hn, Line.split_append_some]

theorem ofNodes_append_none
    (before : List Node)
    {n : Node}
    (hn : n.indent = none) :
    Line.ofNodes (before ++ [n]) = (Line.ofNodes before).modifyLast (Line.push n) := by
  simp only [Line.ofNodes, List.map_append, List.map_cons, List.map_nil, hn,
    Line.split_append_none]
  split
  · next hnil =>
    rw [hnil]
    rfl
  · rfl

/-- A node goes behind its siblings as deep as there are lines that it stands below. -/
theorem arrange_marked_append
    (before : List Node)
    (n : Node) :
    Line.arrange (marked (before ++ [n])) =
      appendAt (n.levelBehind before) [n.arranged] (Line.arrange (marked before)) := by
  have hmarked : marked (before ++ [n]) = marked before ++ [(n.indent, n.arranged)] := by
    simp [marked_eq_map]
  rw [hmarked, levelBehind]
  cases hn : n.indent with
  | none =>
      rw [Line.arrange_append_none, lines_marked, Line.lastLevel_map]
  | some width =>
      rw [Line.arrange_append_some, lines_marked, Line.level_map]

end Node

namespace Outline

/-- There is one open block for each line that the last line stands below. -/
theorem length_frames_eq
    {o : Outline}
    {lines : List (Line Node)}
    (hbase : o.baseWidth = lines.head?.map (·.width))
    (hwidths : o.widths ++ o.baseWidth.toList = Line.openWidths lines) :
    o.frames.length = Line.lastLevel lines := by
  rw [← length_widths]
  rcases List.eq_nil_or_concat lines with rfl | ⟨init, l, rfl⟩
  · rw [hbase] at hwidths
    have hnil : o.widths = [] := by
      simpa [Line.openWidths] using hwidths
    rw [hnil]
    rfl
  · obtain ⟨width, hwidth⟩ : ∃ width, o.baseWidth = some width := by
      rw [hbase]
      cases init <;> simp
    rw [hwidth, List.concat_eq_append, Line.openWidths_append] at hwidths
    have hlength := congrArg List.length hwidths
    rw [List.concat_eq_append, Line.lastLevel_append, Line.level_eq_length_filter]
    simpa using hlength

/-- Adding a node that continues the last line. -/
theorem Represents.add_none
    {o : Outline}
    {before : List Node}
    (hrep : o.Represents before)
    {n : Node}
    (hn : n.indent = none) :
    (o.add n.arranged).Represents (before ++ [n]) := by
  have hhead : ((Line.ofNodes before).modifyLast (Line.push n)).head?.map (·.width) =
      (Line.ofNodes before).head?.map (·.width) := by
    rw [← List.head?_map, Line.map_width_modifyLast_push, List.head?_map]
  refine ⟨?_, ?_, ?_, ?_⟩
  · rw [baseWidth_add, hrep.base, Node.ofNodes_append_none before hn, hhead]
  · rw [baseWidth_add, widths_add, hrep.widths, Node.ofNodes_append_none before hn,
      Line.openWidths_modifyLast_push]
  · rw [finish_add, hrep.placed, Node.arrange_marked_append, Node.levelBehind, hn,
      length_frames_eq hrep.base hrep.widths]
  · simp [innermost_add, Node.isElement_arranged]

/-- Adding the node that begins a line, once the line has been begun. -/
theorem Represents.add_some
    {o next : Outline}
    {before : List Node}
    (hrep : o.Represents before)
    {n : Node}
    {width : Nat}
    (hn : n.indent = some width)
    (hbegun : o.Begun before width next) :
    next.frames.length = n.levelBehind before ∧
      (next.add n.arranged).Represents (before ++ [n]) := by
  have hlines := Node.ofNodes_append_some before hn
  have hbase : next.baseWidth = (Line.ofNodes (before ++ [n])).head?.map (·.width) := by
    rw [hbegun.base, hlines]
    cases Line.ofNodes before <;> rfl
  have hwidths : next.widths ++ next.baseWidth.toList =
      Line.openWidths (Line.ofNodes (before ++ [n])) := by
    rw [hbegun.widths, hlines, Line.openWidths_append]
  have hlength : next.frames.length = n.levelBehind before := by
    rw [length_frames_eq hbase hwidths, hlines, Line.lastLevel_append, Node.levelBehind, hn]
  refine ⟨hlength, ?_, ?_, ?_, ?_⟩
  · rw [baseWidth_add, hbase]
  · rw [baseWidth_add, widths_add, hwidths]
  · rw [finish_add, hlength, hbegun.finish, hrep.placed, Node.arrange_marked_append]
  · simp [innermost_add, Node.isElement_arranged]

/-- What preparing for a node does: it is refused with the fault of its line, and otherwise the
outline takes it as deep as there are lines that it stands below. -/
theorem prepare_spec
    {o : Outline}
    {before : List Node}
    (hrep : o.Represents before)
    (n : Node) :
    (∀ e rest, n.lineFaults before = e :: rest → o.prepare n = .error e) ∧
    (n.lineFaults before = [] →
      ∃ next, o.prepare n = .ok next ∧ next.frames.length = n.levelBehind before ∧
        next.finish = o.finish ∧ (next.add n.arranged).Represents (before ++ [n])) := by
  cases hn : n.indent with
  | none =>
      simp only [Node.lineFaults, prepare, hn]
      refine ⟨by simp, fun _ => ⟨o, rfl, ?_, rfl, hrep.add_none hn⟩⟩
      rw [length_frames_eq hrep.base hrep.widths, Node.levelBehind, hn]
  | some width =>
      obtain ⟨hrefused, htaken⟩ := beginLine_spec hrep width n.position
      simp only [Node.lineFaults, prepare, hn]
      cases hproblem : Line.problem? (Line.ofNodes before) width with
      | none =>
          refine ⟨by simp, fun _ => ?_⟩
          obtain ⟨next, hnext, hbegun⟩ := htaken hproblem
          obtain ⟨hlength, hrep'⟩ := hrep.add_some hn hbegun
          exact ⟨next, hnext, hlength, hbegun.finish, hrep'⟩
      | some problem =>
          refine ⟨?_, by simp⟩
          intro e rest hfaults
          simp only [Option.map_some, Option.toList_some, List.cons.injEq] at hfaults
          rw [hrefused problem hproblem, hfaults.1]

end Outline

/-- The first of several faults is the outcome, if there is one. -/
def outcome
    {α : Type}
    (faults : List IndentationError)
    (result : α) : Except IndentationError α :=
  match faults with
  | [] => .ok result
  | e :: _ => .error e

@[simp] theorem outcome_nil
    {α : Type}
    (result : α) :
    outcome [] result = .ok result := rfl

@[simp] theorem outcome_cons
    {α : Type}
    (e : IndentationError)
    (faults : List IndentationError)
    (result : α) :
    outcome (e :: faults) result = .error e := rfl

mutual

/-- Nesting inside a node gives the arranged node, or the first fault. -/
theorem Node.nest_eq_outcome :
    ∀ (n : Node) (depth : Nat), n.nest depth = outcome (n.faults depth) n.arranged
  | .text run, depth => by
      rw [Node.nest, Node.faults, Node.depthFaults, Node.arranged]
      split <;> rfl
  | .element header children, depth => by
      have hchildren :=
        Node.nestSiblings_eq_outcome children (depth + 1) .empty [] Outline.represents_empty
      rw [Node.nest, Node.faults, Node.depthFaults, Node.arranged, hchildren]
      split
      · rfl
      · rw [List.nil_append, List.nil_append]
        cases Node.siblingFaults (depth + 1) [] children <;> rfl

/-- Placing siblings into an outline gives the arranged siblings, or the first fault. -/
theorem Node.nestSiblings_eq_outcome :
    ∀ (ns : List Node) (depth : Nat) (o : Outline) (before : List Node), o.Represents before →
      Node.nestSiblings depth o ns =
        outcome (Node.siblingFaults depth before ns) (Line.arrange (Node.marked (before ++ ns)))
  | [], depth, o, before, hrep => by
      rw [Node.nestSiblings, Node.siblingFaults, hrep.placed, List.append_nil, outcome_nil]
  | n :: rest, depth, o, before, hrep => by
      obtain ⟨hrefused, htaken⟩ := Outline.prepare_spec hrep n
      rw [Node.nestSiblings, Node.siblingFaults]
      cases hline : n.lineFaults before with
      | cons e faults =>
          rw [hrefused e faults hline]
          rfl
      | nil =>
          obtain ⟨next, hnext, hlength, -, hrep'⟩ := htaken hline
          have hinside := Node.nest_eq_outcome n (depth + n.levelBehind before)
          have hbehind :=
            Node.nestSiblings_eq_outcome rest depth (next.add n.arranged) (before ++ [n]) hrep'
          rw [hnext, List.nil_append]
          simp only
          rw [hlength, hinside]
          cases n.faults (depth + n.levelBehind before) with
          | cons e faults =>
              rfl
          | nil =>
              simp only [outcome_nil, List.nil_append]
              rw [hbehind, List.append_assoc, List.singleton_append]

end

/-- Nesting gives the arranged document, or its first fault. -/
theorem Document.nest_eq_outcome
    (document : Document) :
    document.nest = outcome document.faults document.arranged :=
  Node.nestSiblings_eq_outcome document 0 .empty [] Outline.represents_empty

end BlockMarkup
