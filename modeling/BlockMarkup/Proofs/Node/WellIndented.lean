import BlockMarkup.Proofs.Node.Nesting

/-!
# Well-indented documents

A document is well-indented if every line of every sibling list fits behind the lines before it
and no node ends up deeper than `maxDepth`. These are the documents without a fault. The main
result says what nesting does to every document: a well-indented one is arranged, and for any
other the first fault in the order of the source is reported.
-/

namespace BlockMarkup

namespace Node

/-- Whether every line of a sibling list fits behind the lines before it. -/
def LinesFit (ns : List Node) : Prop :=
  ∀ before l after, Line.ofNodes ns = before ++ l :: after → Line.Fits before l.width

end Node

namespace Document

/-- The lists of siblings in a document: its nodes, and the children of each element. -/
def siblingLists (document : Document) : List (List Node) :=
  document :: document.elements.map (·.children)

/-- Whether the lines of every sibling list fit, and no node ends up too deep. -/
structure WellIndented (document : Document) : Prop where
  lines : ∀ ns ∈ document.siblingLists, Node.LinesFit ns
  depth : ∀ depth ∈ Node.depthsList 0 document.arranged, depth ≤ maxDepth

end Document

namespace Node

theorem lineFaults_eq_nil_iff
    (before : List Node)
    (n : Node) :
    n.lineFaults before = [] ↔
      ∀ width, n.indent = some width → Line.Fits (Line.ofNodes before) width := by
  rw [lineFaults]
  cases n.indent with
  | none =>
      simp
  | some width =>
      simp [← Line.problem?_eq_none_iff]

/-- Lines fit if no node begins one that does not. -/
theorem linesFit_iff
    (ns : List Node) :
    LinesFit ns ↔ ∀ before n after, ns = before ++ n :: after → n.lineFaults before = [] := by
  constructor
  · rintro hfit before n after rfl
    rw [lineFaults_eq_nil_iff]
    intro width hn
    have hlines : Line.ofNodes (before ++ n :: after) =
        Line.ofNodes before ++
          ⟨width, n, (Line.split (after.map fun n => (n.indent, n))).1⟩ :: Line.ofNodes after := by
      simp [Line.ofNodes, hn, Line.split_append_cons]
    exact hfit _ _ _ hlines
  · intro hfit before l after hlines
    obtain ⟨init, n, rest, hitems, hinit⟩ := Line.exists_of_split_eq hlines
    obtain ⟨us, vs, rfl, hus, hvs⟩ := List.map_eq_append_iff.1 hitems
    obtain ⟨u, ws, rfl, hu, hws⟩ := List.map_eq_cons_iff.1 hvs
    have hindent : u.indent = some l.width := congrArg Prod.fst hu
    have hfits := (lineFaults_eq_nil_iff us u).1 (hfit us u ws rfl) l.width hindent
    rw [Line.ofNodes, hus, hinit] at hfits
    exact hfits

/-- Siblings have no fault exactly if each has none behind those before it. -/
theorem siblingFaults_eq_nil_iff
    (depth : Nat)
    (before ns : List Node) :
    siblingFaults depth before ns = [] ↔
      ∀ init n rest, ns = init ++ n :: rest →
        n.lineFaults (before ++ init) = [] ∧
          n.faults (depth + n.levelBehind (before ++ init)) = [] := by
  induction ns generalizing before with
  | nil =>
      simp [siblingFaults]
  | cons n rest ih =>
      rw [siblingFaults, List.append_eq_nil_iff, List.append_eq_nil_iff, ih]
      constructor
      · rintro ⟨hn, hrest⟩ init m after heq
        cases init with
        | nil =>
            simp only [List.nil_append, List.cons.injEq] at heq
            obtain ⟨rfl, rfl⟩ := heq
            simpa using hn
        | cons k init =>
            simp only [List.cons_append, List.cons.injEq] at heq
            obtain ⟨rfl, rfl⟩ := heq
            simpa using hrest init m after rfl
      · intro hall
        refine ⟨by simpa using hall [] n rest rfl, fun init m after heq => ?_⟩
        simpa using hall (n :: init) m after (by rw [heq, List.cons_append])

end Node

namespace Outline

/-- Siblings whose lines fit can be placed. -/
theorem exists_represents
    {ns : List Node}
    (hfit : Node.LinesFit ns) :
    ∃ o : Outline, o.Represents ns := by
  rw [Node.linesFit_iff] at hfit
  induction ns using List.reverseRecOn with
  | nil =>
      exact ⟨empty, represents_empty⟩
  | append_singleton ns n ih =>
      obtain ⟨o, hrep⟩ := ih fun before m after heq =>
        hfit before m (after ++ [n]) (by rw [heq, List.append_assoc, List.cons_append])
      obtain ⟨next, -, -, -, hrep'⟩ := (prepare_spec hrep n).2 (hfit ns n [] rfl)
      exact ⟨_, hrep'⟩

/-- Every open block is an element at the end of the siblings. -/
theorem hasSpine_finish
    (o : Outline) :
    Node.HasSpine o.frames.length o.finish := by
  obtain ⟨width, base, frames⟩ := o
  induction frames with
  | nil =>
      trivial
  | cons frame outer ih =>
      rw [finish_cons]
      exact ih.appendAt_element frame.header frame.children.reverse

end Outline

namespace Node

/-- A line that fits has elements to stand below. -/
theorem hasSpine_arrange
    {before : List Node}
    {n : Node}
    (hfit : LinesFit before)
    (hn : n.lineFaults before = []) :
    HasSpine (n.levelBehind before) (Line.arrange (marked before)) := by
  obtain ⟨o, hrep⟩ := Outline.exists_represents hfit
  obtain ⟨next, -, hlength, hfinish, -⟩ := (Outline.prepare_spec hrep n).2 hn
  rw [← hlength, ← hrep.placed, ← hfinish]
  exact next.hasSpine_finish

theorem linesFit_append_singleton_iff
    (ns : List Node)
    (n : Node) :
    LinesFit (ns ++ [n]) ↔ LinesFit ns ∧ n.lineFaults ns = [] := by
  rw [linesFit_iff, linesFit_iff]
  constructor
  · intro hfit
    refine ⟨fun before m after heq => ?_, hfit ns n [] rfl⟩
    exact hfit before m (after ++ [n]) (by rw [heq, List.append_assoc, List.cons_append])
  · rintro ⟨hfit, hn⟩ before m after heq
    rcases List.eq_nil_or_concat after with rfl | ⟨after, k, rfl⟩
    · obtain ⟨rfl, rfl⟩ : ns = before ∧ n = m := by
        simpa using List.append_inj' heq rfl
      exact hn
    · rw [List.concat_eq_append, ← List.cons_append, ← List.append_assoc] at heq
      exact hfit before m after (List.append_inj' heq rfl).1

/-- Where the lines fit, the nodes of the arranged siblings are as deep as the lines they stand
below are many. -/
theorem mem_depthsList_arrange
    {ns : List Node}
    (hfit : LinesFit ns)
    (depth d : Nat) :
    d ∈ depthsList depth (Line.arrange (marked ns)) ↔
      ∃ before n after, ns = before ++ n :: after ∧
        d ∈ n.arranged.depths (depth + n.levelBehind before) := by
  induction ns using List.reverseRecOn with
  | nil =>
      simp [marked, Line.arrange, Line.split, Line.block, depthsList]
  | append_singleton ns n ih =>
      obtain ⟨hns, hn⟩ := (linesFit_append_singleton_iff ns n).1 hfit
      rw [arrange_marked_append, mem_depthsList_appendAt (hasSpine_arrange hns hn), ih hns]
      constructor
      · rintro (⟨before, m, after, rfl, hd⟩ | hd)
        · exact ⟨before, m, after ++ [n], by simp, hd⟩
        · exact ⟨ns, n, [], rfl, by simpa [depthsList] using hd⟩
      · rintro ⟨before, m, after, heq, hd⟩
        rcases List.eq_nil_or_concat after with rfl | ⟨after, k, rfl⟩
        · obtain ⟨rfl, rfl⟩ : ns = before ∧ n = m := by
            simpa using List.append_inj' heq rfl
          exact Or.inr (by simpa [depthsList] using hd)
        · rw [List.concat_eq_append, ← List.cons_append, ← List.append_assoc] at heq
          exact Or.inl ⟨before, m, after, (List.append_inj' heq rfl).1, hd⟩

/-- Siblings without a fault: their lines fit, so do the lines inside them, and none is too deep. -/
theorem siblingFaults_nil_eq_nil_iff
    (depth : Nat)
    (ns : List Node)
    (hinside : ∀ n ∈ ns, ∀ depth, n.faults depth = [] ↔
      (∀ e ∈ Document.elements [n], LinesFit e.children) ∧
        ∀ d ∈ n.arranged.depths depth, d ≤ maxDepth) :
    siblingFaults depth [] ns = [] ↔
      LinesFit ns ∧ (∀ e ∈ Document.elements ns, LinesFit e.children) ∧
        ∀ d ∈ depthsList depth (Line.arrange (marked ns)), d ≤ maxDepth := by
  rw [siblingFaults_eq_nil_iff]
  constructor
  · intro hnone
    have hfit : LinesFit ns := by
      rw [linesFit_iff]
      intro before n after heq
      exact (hnone before n after heq).1
    refine ⟨hfit, ?_, ?_⟩
    · intro e he
      rw [Document.elements_eq_flatMap] at he
      obtain ⟨n, hn, hne⟩ := List.mem_flatMap.1 he
      obtain ⟨before, after, heq⟩ := List.append_of_mem hn
      exact ((hinside n hn _).1 (hnone before n after heq).2).1 e hne
    · intro d hd
      obtain ⟨before, n, after, heq, hdn⟩ := (mem_depthsList_arrange hfit depth d).1 hd
      have hn : n ∈ ns := by simp [heq]
      exact ((hinside n hn _).1 (hnone before n after heq).2).2 d hdn
  · rintro ⟨hfit, helements, hdepths⟩ before n after heq
    have hn : n ∈ ns := by simp [heq]
    refine ⟨(linesFit_iff ns).1 hfit before n after heq, (hinside n hn _).2 ⟨?_, ?_⟩⟩
    · intro e he
      apply helements
      rw [Document.elements_eq_flatMap]
      exact List.mem_flatMap.2 ⟨n, hn, he⟩
    · intro d hd
      exact hdepths d ((mem_depthsList_arrange hfit depth d).2 ⟨before, n, after, heq, hd⟩)

theorem depthFaults_eq_nil_iff
    (depth : Nat)
    (position : Position) :
    depthFaults depth position = [] ↔ depth ≤ maxDepth := by
  simp [depthFaults]

/-- By induction over the tree: a node has no fault exactly if all lines below it fit and nothing is
too deep. -/
theorem faults_eq_nil_iff
    (n : Node)
    (depth : Nat) :
    n.faults depth = [] ↔
      (∀ e ∈ Document.elements [n], LinesFit e.children) ∧
        ∀ d ∈ n.arranged.depths depth, d ≤ maxDepth := by
  induction n generalizing depth with
  | text run =>
      simp [faults, arranged, depths, depthFaults_eq_nil_iff]
  | element header children ih =>
      rw [faults, List.append_eq_nil_iff, depthFaults_eq_nil_iff,
        siblingFaults_nil_eq_nil_iff (depth + 1) children ih, arranged, depths]
      simp only [Document.elements_element, Document.elements_nil, List.append_nil,
        List.mem_cons, forall_eq_or_imp]
      tauto

end Node

namespace Document

/-- A document has no fault exactly if it is well indented. -/
theorem faults_eq_nil_iff
    (document : Document) :
    document.faults = [] ↔ document.WellIndented := by
  rw [faults, Node.siblingFaults_nil_eq_nil_iff 0 document fun n _ depth =>
    Node.faults_eq_nil_iff n depth]
  constructor
  · rintro ⟨hfit, helements, hdepth⟩
    refine ⟨?_, hdepth⟩
    intro ns hns
    rcases List.mem_cons.1 hns with rfl | hns
    · exact hfit
    · obtain ⟨e, he, rfl⟩ := List.mem_map.1 hns
      exact helements e he
  · rintro ⟨hlines, hdepth⟩
    refine ⟨hlines document (by simp [siblingLists]), ?_, hdepth⟩
    intro e he
    have hmem : e.children ∈ document.siblingLists :=
      List.mem_cons_of_mem _ (List.mem_map_of_mem he)
    exact hlines e.children hmem

/-- Nesting succeeds exactly for well-indented documents, and then it arranges them. -/
theorem nest_eq_ok_iff
    (document result : Document) :
    document.nest = .ok result ↔ document.WellIndented ∧ result = document.arranged := by
  rw [nest_eq_outcome, ← faults_eq_nil_iff]
  cases document.faults with
  | nil => simp [eq_comm]
  | cons first rest => simp

/-- Nesting fails with the first fault, in the order of the source. -/
theorem nest_eq_error_iff
    (document : Document)
    (e : IndentationError) :
    document.nest = .error e ↔ document.faults.head? = some e := by
  rw [nest_eq_outcome]
  cases document.faults with
  | nil => simp
  | cons first rest => simp

/-- Nesting turns a well-indented document into the document in which every line stands below the
last node of the nearest earlier line that is narrower, and refuses every other document with its
first fault. -/
theorem nest_arranges_or_reports_first_fault
    (document : Document) :
    (∀ result, document.nest = .ok result ↔
      document.WellIndented ∧ result = document.arranged) ∧
    (∀ e, document.nest = .error e ↔ document.faults.head? = some e) :=
  ⟨document.nest_eq_ok_iff, document.nest_eq_error_iff⟩

end Document

namespace Node

/-- A node that begins no line. -/
def unmarked : Node → Node
  | element header children => element { header with indent := none } children
  | text run => text { run with indent := none }

theorem preorderList_arrange
    {ns : List Node}
    (hfit : LinesFit ns) :
    preorderList (Line.arrange (marked ns)) = ns.flatMap fun n => n.arranged.preorder := by
  induction ns using List.reverseRecOn with
  | nil =>
      rfl
  | append_singleton ns n ih =>
      obtain ⟨hns, hn⟩ := (linesFit_append_singleton_iff ns n).1 hfit
      rw [arrange_marked_append, preorderList_appendAt (hasSpine_arrange hns hn), ih hns]
      simp [preorderList]

/-- Arranging keeps the nodes in their order. -/
theorem preorder_arranged
    (n : Node)
    (hfit : ∀ e ∈ Document.elements [n], LinesFit e.children) :
    n.arranged.preorder = n.preorder.map unmarked := by
  induction n with
  | element header children ih =>
      simp only [Document.elements_element, Document.elements_nil, List.append_nil,
        List.forall_mem_cons] at hfit
      have hchildren : children.flatMap (fun n => n.arranged.preorder) =
          children.flatMap fun n => n.preorder.map unmarked := by
        refine List.flatMap_congr fun child hchild => ih child hchild fun e he => hfit.2 e ?_
        rw [Document.elements_eq_flatMap]
        exact List.mem_flatMap.2 ⟨child, hchild, he⟩
      rw [arranged, preorder, preorderList_arrange hfit.1, hchildren, preorder, List.map_cons,
        preorderList_eq_flatMap, List.map_flatMap]
      rfl
  | text run =>
      simp [arranged, preorder, unmarked]

end Node

/-- Nesting keeps the nodes in the order of the source. -/
theorem Document.preorderList_arranged
    {document : Document}
    (hwell : document.WellIndented) :
    Node.preorderList document.arranged = (Node.preorderList document).map Node.unmarked := by
  have hlines := hwell.lines
  simp only [siblingLists, List.forall_mem_cons, List.forall_mem_map] at hlines
  rw [arranged, Node.preorderList_arrange hlines.1, Node.preorderList_eq_flatMap, List.map_flatMap]
  refine List.flatMap_congr fun n hn => n.preorder_arranged fun e he => hlines.2 e ?_
  rw [elements_eq_flatMap]
  exact List.mem_flatMap.2 ⟨n, hn, he⟩

end BlockMarkup
