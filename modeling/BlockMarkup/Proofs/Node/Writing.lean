import BlockMarkup.Proofs.Node.Relabel
import BlockMarkup.Proofs.Token.Written

/-!
# Writing a forest with margins or with braces

A forest of plain nodes can be written in two ways, one node a line. In an outline, the lines of
the children of an element have one common margin, wider than that of the element. Between braces,
every line begins without a margin, and the children of an element stand between a line that opens
its block and a line that closes it.

What the reader makes of the lines is a document with line markers. Here it is shown that nesting
that document gives the forest back, for both ways of writing.
-/

namespace BlockMarkup

namespace Header

/-- The classes of a header in their order, with the id behind the first `place` of them. -/
def decorations
    (place : Nat)
    (h : Header) : List Token.Decoration :=
  (h.classes.take place).map (⟨'.', ·⟩) ++ h.id.toList.map (⟨'#', ·⟩) ++
    (h.classes.drop place).map (⟨'.', ·⟩)

def written
    (place : Nat)
    (h : Header) : List Char :=
  Token.headerText h.tag (h.decorations place)

/-- Whether a header has a standard element as its tag, identifiers as its names, and nothing
else. -/
@[mk_iff]
structure Plain (h : Header) : Prop where
  tag : isStandardElement h.tag = true
  classes : ∀ name ∈ h.classes, isIdentifier name = true
  id : ∀ name ∈ h.id, isIdentifier name = true
  attributes : h.attributes = Dict.empty
  indent : h.indent = none

instance (h : Header) : Decidable h.Plain := decidable_of_iff' _ (plain_iff h)

end Header

namespace TextRun

@[mk_iff]
structure Plain (run : TextRun) : Prop where
  text : Token.PlainText run.value.toList
  indent : run.indent = none

instance (run : TextRun) : Decidable run.Plain := decidable_of_iff' _ (plain_iff run)

end TextRun

namespace Node

/-- Whether the label of a node is plain, whatever its children. -/
def Plain : Node → Prop
  | element header _ => header.Plain
  | text run => run.Plain

instance : DecidablePred Plain
  | element header _ => inferInstanceAs (Decidable header.Plain)
  | text run => inferInstanceAs (Decidable run.Plain)

theorem Plain.indent_eq_none
    {n : Node}
    (hplain : n.Plain) :
    n.indent = none := by
  cases n with
  | element header children => exact hplain.indent
  | text run => exact hplain.indent

/-- How the label of a node is written. `place` tells for every header where its id stands. -/
def headline
    (place : Header → Nat) :
    Node → List Char
  | element header _ => header.written (place header)
  | text run => run.value.toList

/-- `Outlines width forest lines`: the forest is written in `lines`, each of which has a width and
one node, such that all roots have the given width and all children of an element have one greater
width. -/
inductive Outlines : Nat → List Node → List (Nat × Node) → Prop
  | nil
      (width : Nat) :
      Outlines width [] []
  | text
      {width : Nat} {rest : List Node} {lines : List (Nat × Node)}
      (run : TextRun)
      (hrest : Outlines width rest lines) :
      Outlines width (.text run :: rest) ((width, .text run) :: lines)
  | element
      {width inside : Nat} {children rest : List Node} {inner outer : List (Nat × Node)}
      (header : Header)
      (hwider : width < inside)
      (hchildren : Outlines inside children inner)
      (hrest : Outlines width rest outer) :
      Outlines width (.element header children :: rest)
        ((width, .element header []) :: (inner ++ outer))

/-- An outlined line as it is written. -/
def outlineLine
    (place : Header → Nat)
    (line : Nat × Node) : List Char :=
  List.replicate line.1 ' ' ++ line.2.headline place

mutual

/-- The lines of a node that is written with braces. -/
def bracedLines
    (place : Header → Nat) :
    Node → List (List Char)
  | .text run => [run.value.toList]
  | .element header [] => [header.written (place header)]
  | .element header (first :: rest) =>
    (header.written (place header) ++ [' ', '{']) ::
      (bracedLines place first ++ bracedLinesList place rest) ++ [['}']]

def bracedLinesList
    (place : Header → Nat) :
    List Node → List (List Char)
  | [] => []
  | n :: rest => bracedLines place n ++ bracedLinesList place rest

end

/-- Makes a node the first of a line. -/
def onLine
    (width : Nat) :
    Node → Node
  | element header children => element { header with indent := some width } children
  | text run => text { run with indent := some width }

end Node

/-- A source of several lines, with a line feed behind the last one or without it. -/
def Text.ofLines
    (ended : Bool)
    (lines : List (List Char)) : String :=
  String.ofList (['\n'].intercalate lines ++ if ended then ['\n'] else [])

/-- Makes every node of a tree begin a line without a margin. -/
def Relabelling.atMargin : Relabelling where
  header h := { h with indent := some 0 }
  run t := { t with indent := some 0 }

namespace Line

/-- A line of one node. -/
def ofPair (line : Nat × Node) : Line Node := ⟨line.1, line.2, []⟩

theorem nodesOver_ofPair
    (block : List Node)
    (line : Nat × Node) :
    (ofPair line).nodesOver block = [line.2.mapChildren (· ++ block)] :=
  List.modifyLast_concat _ _ []

/-- A line that is not wider than the owner ends the block below it. -/
theorem block_some_eq_nil
    {owner : Nat}
    {between : List (Line Node)}
    {m : Line Node}
    (hm : m ∈ between)
    (hwidth : m.width ≤ owner)
    (lines : List (Line Node)) :
    block (some owner) between lines = [] := by
  induction lines generalizing between with
  | nil =>
      rfl
  | cons l lines ih =>
      have hl : ¬IsBelow (some owner) between l := by
        rintro ⟨howner, hbetween⟩
        have hgt := howner owner rfl
        have hle := hbetween m hm
        omega
      rw [block, if_neg hl, List.nil_append]
      exact ih (List.mem_append_left _ hm)

theorem block_some_eq_nil_of_head
    {owner : Nat}
    {lines : List (Line Node)}
    (hhead : ∀ l ∈ lines.head?, l.width ≤ owner)
    (between : List (Line Node)) :
    block (some owner) between lines = [] := by
  cases lines with
  | nil =>
      rfl
  | cons l lines =>
      have hle := hhead l rfl
      have hl : ¬IsBelow (some owner) between l := fun h => absurd (h.1 owner rfl) (not_lt.2 hle)
      rw [block, if_neg hl, List.nil_append]
      exact block_some_eq_nil (List.mem_append_right _ List.mem_cons_self) hle lines

/-- Lines of one width stand side by side. -/
theorem block_none_of_level
    {width : Nat}
    {between : List (Line Node)}
    (hbetween : ∀ m ∈ between, m.width = width)
    (ns : List Node) :
    block none between (ns.map fun n => ofPair (width, n)) = ns := by
  induction ns generalizing between with
  | nil =>
      rfl
  | cons n ns ih =>
      have hbelow : IsBelow none between (ofPair (width, n)) :=
        ⟨by simp, fun m hm => (hbetween m hm).ge⟩
      have hinside : block (some width) [] (ns.map fun n => ofPair (width, n)) = [] :=
        block_some_eq_nil_of_head (by cases ns <;> simp [ofPair]) []
      have hbetween' : ∀ m ∈ between ++ [ofPair (width, n)], m.width = width :=
        List.forall_mem_append.2 ⟨hbetween, by simp [ofPair]⟩
      have hn : (ofPair (width, n)).nodesOver [] = [n] := nodesOver_nil _
      rw [List.map_cons, block, if_pos hbelow, ih hbetween']
      change nodesOver (block (some width) [] (ns.map fun n => ofPair (width, n))) _ ++ ns = _
      rw [hinside, hn, List.singleton_append]

theorem fitBehind_of_level
    {width : Nat}
    {before lines : List (Line Node)}
    (hbefore : ∀ l ∈ before, l.width = width)
    (hlines : ∀ l ∈ lines, l.width = width) :
    FitBehind before lines := by
  intro init l rest heq
  have hl : l.width = width := hlines l (by simp [heq])
  have hall : ∀ m ∈ before ++ init, m.width = width :=
    List.forall_mem_append.2 ⟨hbefore, fun m hm => hlines m (by simp [heq, hm])⟩
  refine ⟨fun first hfirst => ?_, fun previous hprevious hlt => ?_,
    fun previous hprevious hlt => ?_⟩
  · exact (hall first (List.mem_of_mem_head? hfirst)).trans hl.symm |>.le
  · have hprevious := hall previous (List.mem_of_getLast? hprevious)
    omega
  · have hprevious := hall previous (List.mem_of_getLast? hprevious)
    omega

/-- Lines that are wider than one before them stand below that one. -/
theorem block_append_of_wider
    {owner : Option Nat}
    {between : List (Line Node)}
    {m : Line Node}
    (hm : m ∈ between)
    {lines : List (Line Node)}
    (hlines : ∀ l ∈ lines, m.width < l.width)
    (later : List (Line Node)) :
    block owner between (lines ++ later) = block owner (between ++ lines) later := by
  induction lines generalizing between with
  | nil =>
      simp
  | cons l lines ih =>
      have hl : ¬IsBelow owner between l := fun h =>
        absurd (h.2 m hm) (not_le.2 (hlines l List.mem_cons_self))
      have hrest := ih (List.mem_append_left [l] hm) fun k hk =>
        hlines k (List.mem_cons_of_mem l hk)
      rw [List.cons_append, block, if_neg hl, List.nil_append, hrest, List.append_assoc,
        List.singleton_append]

/-- Behind a line that fits and wider ones, a line of the same width fits. -/
theorem Fits.append_wider
    {before : List (Line Node)}
    {l : Line Node}
    (hfits : Fits before l.width)
    {wider : List (Line Node)}
    (hwider : ∀ m ∈ wider, l.width < m.width) :
    Fits (before ++ l :: wider) l.width := by
  have hlatest : latestWithin l.width (before ++ l :: wider) = some l := by
    have hnone : wider.reverse.find? (·.width ≤ l.width) = none := by
      simpa using hwider
    simp [latestWithin, List.find?_append, hnone]
  have hlast : ∀ previous ∈ (before ++ l :: wider).getLast?, l.width ≤ previous.width := by
    intro previous hprevious
    have hmem : previous ∈ l :: wider := List.mem_of_getLast? (by simpa using hprevious)
    rcases List.mem_cons.1 hmem with rfl | hmem
    · exact le_rfl
    · exact (hwider previous hmem).le
  refine ⟨fun first hfirst => ?_, fun _ _ _ => by rw [hlatest]; rfl,
    fun previous hprevious hlt => ?_⟩
  · cases before with
    | nil =>
        have hl : l = first := by simpa using hfirst
        exact hl ▸ le_rfl
    | cons m before =>
        exact hfits.base first (by simpa using hfirst)
  · exact absurd hlt (not_lt.2 (hlast previous hprevious))

/-- Below an element, any wider line fits. -/
theorem Fits.append_element
    {before : List (Line Node)}
    {l : Line Node}
    (hfits : Fits before l.width)
    (helement : l.last.isElement = true)
    {width : Nat}
    (hwidth : l.width < width) :
    Fits (before ++ [l]) width := by
  have hbase := (hfits.append_wider (List.forall_mem_nil _)).base
  refine ⟨fun first hfirst => le_trans (hbase first hfirst) hwidth.le, ?_, ?_⟩
  · intro previous hprevious hlt
    have hl : l = previous := by simpa using hprevious
    rw [← hl] at hlt
    omega
  · intro previous hprevious _
    have hl : l = previous := by simpa using hprevious
    exact hl ▸ helement

theorem split_some
    (lines : List (Nat × Node)) :
    split (lines.map fun line => (some line.1, line.2)) = ([], lines.map ofPair) := by
  induction lines with
  | nil =>
      rfl
  | cons line lines ih =>
      simp [split, ih, ofPair]

end Line

namespace Node.Outlines

variable {width : Nat} {forest : List Node} {lines : List (Nat × Node)}

/-- No line of an outline stands left of its margin. -/
theorem width_le
    (h : Outlines width forest lines) :
    ∀ line ∈ lines, width ≤ line.1 := by
  induction h with
  | nil width =>
      simp
  | text run hrest ih =>
      simpa using ih
  | element header hwider hchildren hrest ihchildren ihrest =>
      simp only [List.mem_cons, List.mem_append]
      rintro line (rfl | hline | hline)
      · exact le_rfl
      · exact le_trans hwider.le (ihchildren line hline)
      · exact ihrest line hline

theorem lt_width
    (h : Outlines width forest lines)
    {owner : Nat}
    (howner : owner < width) :
    ∀ l ∈ lines.map Line.ofPair, owner < l.width := by
  intro l hl
  obtain ⟨line, hline, rfl⟩ := List.mem_map.1 hl
  exact lt_of_lt_of_le howner (h.width_le line hline)

theorem width_head
    (h : Outlines width forest lines) :
    ∀ line ∈ lines.head?, line.1 = width := by
  cases h <;> simp

theorem map_snd
    (h : Outlines width forest lines) :
    lines.map Prod.snd = preorderList forest := by
  induction h with
  | nil width =>
      rfl
  | text run hrest ih =>
      simp [preorderList, preorder, ih]
  | element header hwider hchildren hrest ihchildren ihrest =>
      simp [preorderList, preorder, ihchildren, ihrest]

/-- What comes behind an outline begins below its element only if it is wider. -/
theorem head_behind
    (h : Outlines width forest lines)
    {later : List (Line Node)}
    (hlater : ∀ l ∈ later.head?, l.width ≤ width) :
    ∀ l ∈ (lines.map Line.ofPair ++ later).head?, l.width ≤ width := by
  intro l hl
  cases hlines : lines with
  | nil =>
      exact hlater l (by simpa [hlines] using hl)
  | cons line lines =>
      have hline : l = Line.ofPair line := by simpa [hlines, eq_comm] using hl
      rw [hline]
      exact (h.width_head line (by simp [hlines])).le

/-- An outline that stands below an owner is arranged as its forest. -/
theorem block_append
    (h : Outlines width forest lines)
    {owner : Option Nat}
    (howner : ∀ w ∈ owner, w < width)
    {between later : List (Line Node)}
    (hbetween : ∀ m ∈ between, width ≤ m.width)
    (hlater : ∀ l ∈ later.head?, l.width ≤ width) :
    Line.block owner between (lines.map Line.ofPair ++ later) =
      forest ++ Line.block owner (between ++ lines.map Line.ofPair) later := by
  induction h generalizing owner between later with
  | nil width =>
      simp
  | @text width rest lines run hrest ih =>
      have hbelow : Line.IsBelow owner between (Line.ofPair (width, .text run)) :=
        ⟨howner, hbetween⟩
      have hinside : Line.block (some width) [] (lines.map Line.ofPair ++ later) = [] :=
        Line.block_some_eq_nil_of_head (hrest.head_behind hlater) []
      have hbetween' : ∀ m ∈ between ++ [Line.ofPair (width, .text run)], width ≤ m.width :=
        List.forall_mem_append.2 ⟨hbetween, by simp [Line.ofPair]⟩
      have hbehind := ih howner hbetween' hlater
      calc Line.block owner between
            (Line.ofPair (width, .text run) :: (lines.map Line.ofPair ++ later))
          = (Line.ofPair (width, .text run)).nodesOver [] ++
              Line.block owner (between ++ [Line.ofPair (width, .text run)])
                (lines.map Line.ofPair ++ later) := by
            rw [Line.block, if_pos hbelow, ← hinside]
            rfl
        _ = .text run :: (rest ++
              Line.block owner (between ++ [Line.ofPair (width, .text run)] ++
                lines.map Line.ofPair) later) := by
            rw [hbehind, Line.nodesOver_nil]
            rfl
        _ = _ := by simp
  | @element width inside children rest inner outer header hwider hchildren hrest ihchildren
      ihrest =>
      let line : Line Node := Line.ofPair (width, .element header [])
      have hbelow : Line.IsBelow owner between line := ⟨howner, hbetween⟩
      have hnext := hrest.head_behind hlater
      have hinside : Line.block (some width) []
          (inner.map Line.ofPair ++ (outer.map Line.ofPair ++ later)) = children := by
        rw [ihchildren (by simpa using hwider) (by simp)
            fun l hl => le_trans (hnext l hl) hwider.le,
          Line.block_some_eq_nil_of_head hnext, List.append_nil]
      have hinner : ∀ l ∈ inner.map Line.ofPair, line.width < l.width := hchildren.lt_width hwider
      have hbetween' : ∀ m ∈ between ++ [line] ++ inner.map Line.ofPair, width ≤ m.width := by
        refine List.forall_mem_append.2 ⟨List.forall_mem_append.2 ⟨hbetween, ?_⟩, ?_⟩
        · simp [line, Line.ofPair]
        · exact fun m hm => (hinner m hm).le
      have hbehind := ihrest howner hbetween' hlater
      calc Line.block owner between
            ((line :: (inner ++ outer).map Line.ofPair) ++ later)
          = line.nodesOver children ++
              Line.block owner (between ++ [line])
                (inner.map Line.ofPair ++ (outer.map Line.ofPair ++ later)) := by
            rw [List.map_append, List.cons_append, List.append_assoc, Line.block, if_pos hbelow,
              ← hinside]
            rfl
        _ = line.nodesOver children ++ (rest ++
              Line.block owner (between ++ [line] ++ inner.map Line.ofPair ++
                outer.map Line.ofPair) later) := by
            rw [Line.block_append_of_wider (List.mem_append_right _ List.mem_cons_self) hinner,
              hbehind]
        _ = _ := by
            simp [line, Line.nodesOver_ofPair, mapChildren]

/-- The lines of an outline fit wherever its margin does. -/
theorem fitBehind
    (h : Outlines width forest lines)
    {before : List (Line Node)}
    (hbefore : Line.Fits before width) :
    Line.FitBehind before (lines.map Line.ofPair) := by
  induction h generalizing before with
  | nil width =>
      simp
  | @text width rest lines run hrest ih =>
      have hfits : Line.Fits before (Line.ofPair (width, .text run)).width := hbefore
      rw [List.map_cons, Line.fitBehind_cons]
      exact ⟨hfits, ih (hfits.append_wider (List.forall_mem_nil _))⟩
  | @element width inside children rest inner outer header hwider hchildren hrest ihchildren
      ihrest =>
      have hfits : Line.Fits before (Line.ofPair (width, .element header [])).width := hbefore
      have hinner := hchildren.lt_width hwider
      rw [List.map_cons, List.map_append, Line.fitBehind_cons, Line.fitBehind_append,
        List.append_assoc, List.singleton_append]
      exact ⟨hfits, ihchildren (hfits.append_element rfl hwider),
        ihrest (hfits.append_wider hinner)⟩

end Node.Outlines

namespace Node

/-- The nodes of a preorder stand without their children. -/
theorem childless_of_mem_preorderList
    {ns : List Node}
    {n : Node}
    (hn : n ∈ preorderList ns) :
    (∃ header, n = .element header []) ∨ ∃ run, n = .text run := by
  obtain ⟨m, -, hm⟩ := mem_preorderList.1 hn
  induction m with
  | element header children ih =>
      rw [preorder, List.mem_cons, mem_preorderList] at hm
      rcases hm with rfl | ⟨child, hchild, hm⟩
      · exact Or.inl ⟨header, rfl⟩
      · exact ih child hchild hm
  | text run =>
      rw [preorder, List.mem_singleton] at hm
      exact Or.inr ⟨run, hm⟩

theorem arranged_onLine
    {ns : List Node}
    {n : Node}
    (hn : n ∈ preorderList ns)
    (hindent : n.indent = none)
    (width : Nat) :
    (n.onLine width).arranged = n := by
  rcases childless_of_mem_preorderList hn with ⟨header, rfl⟩ | ⟨run, rfl⟩
  · simp only [indent] at hindent
    simp [onLine, arranged, marked, Line.arrange, Line.split, Line.block, ← hindent]
  · simp only [indent] at hindent
    simp [onLine, arranged, ← hindent]

theorem indent_onLine
    (width : Nat)
    (n : Node) :
    (n.onLine width).indent = some width := by
  cases n <;> rfl

end Node

namespace Node.Outlines

variable {width : Nat} {forest : List Node} {lines : List (Nat × Node)}

/-- The lines of an outline are read back with their widths. -/
theorem marked_eq
    (h : Outlines width forest lines)
    (hunmarked : ∀ n ∈ preorderList forest, n.indent = none) :
    marked (lines.map fun line => line.2.onLine line.1) =
      lines.map fun line => (some line.1, line.2) := by
  rw [marked_eq_map, List.map_map]
  refine List.map_congr_left fun line hline => ?_
  have hmem : line.2 ∈ preorderList forest := h.map_snd ▸ List.mem_map_of_mem hline
  simp [indent_onLine, arranged_onLine hmem (hunmarked _ hmem)]

/-- An outline is arranged as the tree it was written for. -/
theorem arranged_eq
    (h : Outlines width forest lines)
    (hunmarked : ∀ n ∈ preorderList forest, n.indent = none) :
    Document.arranged (lines.map fun line => line.2.onLine line.1) = forest := by
  have hblock : Line.block none [] (lines.map Line.ofPair ++ []) =
      forest ++ Line.block none ([] ++ lines.map Line.ofPair) [] :=
    h.block_append (by simp) (by simp) (by simp)
  simpa [Document.arranged, h.marked_eq hunmarked, Line.arrange, Line.split_some, Line.block]
    using hblock

/-- The document that is read from an outline is well-indented. -/
theorem wellIndented
    (h : Outlines width forest lines)
    (hunmarked : ∀ n ∈ preorderList forest, n.indent = none)
    (hdepth : ∀ depth ∈ depthsList 0 forest, depth ≤ maxDepth) :
    Document.WellIndented (lines.map fun line => line.2.onLine line.1) := by
  refine ⟨fun ns hns => ?_, by rwa [h.arranged_eq hunmarked]⟩
  rcases List.mem_cons.1 hns with rfl | hns
  · have hlines := lines_marked (lines.map fun line => line.2.onLine line.1)
    rw [h.marked_eq hunmarked, Line.split_some] at hlines
    have hfirst : Line.Fits [] width := ⟨by simp, by simp, by simp⟩
    rw [linesFit_iff_fitBehind, ← Line.fitBehind_map_iff isElement_arranged, ← hlines]
    exact h.fitBehind hfirst
  · -- no line of an outline has a block
    obtain ⟨e, he, rfl⟩ := List.mem_map.1 hns
    rw [Document.elements_eq_flatMap, List.mem_flatMap] at he
    obtain ⟨n, hn, he⟩ := he
    obtain ⟨line, hline, rfl⟩ := List.mem_map.1 hn
    have hmem : line.2 ∈ preorderList forest := h.map_snd ▸ List.mem_map_of_mem hline
    have hnone : e.children = [] := by
      rcases childless_of_mem_preorderList hmem with ⟨header, hheader⟩ | ⟨run, hrun⟩
      · rw [hheader] at he
        simp only [onLine, Document.elements_element, Document.elements_nil, List.append_nil,
          List.mem_singleton] at he
        rw [he]
      · simp [hrun, onLine] at he
    rw [hnone, linesFit_iff_fitBehind]
    exact Line.fitBehind_nil []

end Node.Outlines

namespace Node

theorem indent_atMargin
    (n : Node) :
    (n.relabel Relabelling.atMargin).indent = some 0 := by
  cases n <;> simp [indent, Relabelling.atMargin]

theorem arrange_marked_atMargin
    {ns : List Node}
    (hns : ∀ n ∈ ns, (n.relabel Relabelling.atMargin).arranged = n) :
    Line.arrange (marked (ns.map (relabel Relabelling.atMargin))) = ns := by
  have hmarked : marked (ns.map (relabel Relabelling.atMargin)) =
      (ns.map fun n => (0, n)).map fun line => (some line.1, line.2) := by
    rw [marked_eq_map, List.map_map, List.map_map]
    refine List.map_congr_left fun n hn => ?_
    simp [indent_atMargin, hns n hn]
  rw [hmarked, Line.arrange, Line.split_some, List.map_map]
  exact Line.block_none_of_level (List.forall_mem_nil _) ns

/-- By induction over the tree: with all nodes at the margin, braces alone give the nesting. -/
theorem arranged_relabel_atMargin
    (n : Node)
    (hunmarked : ∀ m ∈ n.preorder, m.indent = none) :
    (n.relabel Relabelling.atMargin).arranged = n := by
  induction n with
  | element header children ih =>
      have hheader : header.indent = none := hunmarked (.element header []) (by simp [preorder])
      have hchildren : ∀ child ∈ children,
          (child.relabel Relabelling.atMargin).arranged = child := by
        intro child hchild
        exact ih child hchild fun m hm => hunmarked m (mem_preorder_of_child hchild hm)
      rw [relabel_element, arranged, arrange_marked_atMargin hchildren]
      simp [Relabelling.atMargin, ← hheader]
  | text run =>
      have hrun : run.indent = none := hunmarked (.text run) (by simp [preorder])
      rw [relabel_text, arranged]
      simp [Relabelling.atMargin, ← hrun]

end Node

namespace Document

theorem linesFit_atMargin
    (ns : List Node) :
    Node.LinesFit (ns.map (Node.relabel Relabelling.atMargin)) := by
  have hitems : (ns.map (Node.relabel Relabelling.atMargin)).map (fun n => (n.indent, n)) =
      (ns.map fun n => (0, n.relabel Relabelling.atMargin)).map
        fun line => (some line.1, line.2) := by
    simp only [List.map_map, Function.comp_def, Node.indent_atMargin]
  have hwidth : ∀ l ∈ (ns.map fun n => (0, n.relabel Relabelling.atMargin)).map Line.ofPair,
      l.width = 0 := by
    simp [Line.ofPair]
  rw [Node.linesFit_iff_fitBehind, Line.ofNodes, hitems, Line.split_some]
  exact Line.fitBehind_of_level (List.forall_mem_nil _) hwidth

theorem arranged_atMargin
    {forest : Document}
    (hunmarked : ∀ n ∈ Node.preorderList forest, n.indent = none) :
    arranged (forest.map (Node.relabel Relabelling.atMargin)) = forest := by
  refine Node.arrange_marked_atMargin fun n hn => Node.arranged_relabel_atMargin n fun m hm => ?_
  exact hunmarked m (Node.mem_preorderList.2 ⟨n, hn, hm⟩)

/-- A document with all nodes at the margin is well indented. -/
theorem wellIndented_atMargin
    {forest : Document}
    (hunmarked : ∀ n ∈ Node.preorderList forest, n.indent = none)
    (hdepth : ∀ depth ∈ Node.depthsList 0 forest, depth ≤ maxDepth) :
    WellIndented (forest.map (Node.relabel Relabelling.atMargin)) := by
  refine ⟨fun ns hns => ?_, by rwa [arranged_atMargin hunmarked]⟩
  rw [siblingLists, elements_relabel, List.map_map] at hns
  rcases List.mem_cons.1 hns with rfl | hns
  · exact linesFit_atMargin forest
  · obtain ⟨e, -, rfl⟩ := List.mem_map.1 hns
    exact linesFit_atMargin e.children

end Document

end BlockMarkup
