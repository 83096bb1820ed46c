import BlockMarkup.Proofs.Node.WellIndented

/-!
# Relabelling trees

A relabelling changes the headers and the text runs of a tree and keeps its shape. If it does not
touch the line markers, nesting does not see it: lines are arranged in the same way, and they fit
or do not fit as before. The relabelling that matters most forgets the positions in the source.
-/

namespace BlockMarkup

/-- What becomes of headers and of text runs. -/
structure Relabelling where
  header : Header → Header
  run : TextRun → TextRun

namespace Relabelling

/-- Whether a relabelling leaves line markers alone. -/
structure KeepsMarkers (ρ : Relabelling) : Prop where
  header_indent : ∀ h, (ρ.header h).indent = h.indent
  header_unmarked : ∀ h, ρ.header { h with indent := none } = { ρ.header h with indent := none }
  run_indent : ∀ t, (ρ.run t).indent = t.indent
  run_unmarked : ∀ t, ρ.run { t with indent := none } = { ρ.run t with indent := none }

/-- Forgets where headers and text runs stand in the source. -/
def unplaced : Relabelling where
  header h := { h with position := Position.start }
  run t := { t with position := Position.start }

theorem keepsMarkers_unplaced : unplaced.KeepsMarkers :=
  ⟨fun _ => rfl, fun _ => rfl, fun _ => rfl, fun _ => rfl⟩

end Relabelling

namespace Node

mutual

def relabel (ρ : Relabelling) : Node → Node
  | .element header children => .element (ρ.header header) (relabelList ρ children)
  | .text run => .text (ρ.run run)

def relabelList (ρ : Relabelling) : List Node → List Node
  | [] => []
  | n :: rest => n.relabel ρ :: relabelList ρ rest

end

@[simp] theorem relabelList_eq_map
    (ρ : Relabelling)
    (ns : List Node) :
    relabelList ρ ns = ns.map (relabel ρ) := by
  induction ns with
  | nil =>
      rfl
  | cons n rest ih =>
      rw [relabelList, ih, List.map_cons]

@[simp] theorem relabel_element
    (ρ : Relabelling)
    (header : Header)
    (children : List Node) :
    (element header children).relabel ρ = element (ρ.header header) (children.map (relabel ρ)) := by
  rw [relabel, relabelList_eq_map]

@[simp] theorem relabel_text
    (ρ : Relabelling)
    (run : TextRun) :
    (text run).relabel ρ = text (ρ.run run) := by
  rw [relabel]

@[simp] theorem isElement_relabel
    (ρ : Relabelling)
    (n : Node) :
    (n.relabel ρ).isElement = n.isElement := by
  cases n <;> simp [isElement]

theorem depths_relabel
    (ρ : Relabelling)
    (n : Node)
    (depth : Nat) :
    (n.relabel ρ).depths depth = n.depths depth := by
  induction n generalizing depth with
  | element header children ih =>
      have hchildren : (children.map (relabel ρ)).flatMap (depths (depth + 1)) =
          children.flatMap (depths (depth + 1)) := by
        rw [List.flatMap_map]
        exact List.flatMap_congr fun child hchild => ih child hchild (depth + 1)
      simp [depths, depthsList_eq_flatMap, hchildren]
  | text run =>
      simp [depths]

@[simp] theorem depthsList_relabel
    (ρ : Relabelling)
    (ns : List Node)
    (depth : Nat) :
    depthsList depth (ns.map (relabel ρ)) = depthsList depth ns := by
  simp [depthsList_eq_flatMap, List.flatMap_map, depths_relabel]

variable {ρ : Relabelling}

theorem indent_relabel
    (hρ : ρ.KeepsMarkers)
    (n : Node) :
    (n.relabel ρ).indent = n.indent := by
  cases n with
  | element header children => simp [indent, hρ.header_indent]
  | text run => simp [indent, hρ.run_indent]

end Node

namespace Line

variable (ρ : Relabelling)

theorem nodesOver_relabel
    (block : List Node)
    (l : Line Node) :
    nodesOver (block.map (Node.relabel ρ)) (l.map (Node.relabel ρ)) =
      (nodesOver block l).map (Node.relabel ρ) := by
  have hitems : (l.map (Node.relabel ρ)).items = l.items.map (Node.relabel ρ) := rfl
  rw [nodesOver, nodesOver, hitems]
  obtain ⟨init, n, hn⟩ :=
    (List.eq_nil_or_concat l.items).resolve_left (List.cons_ne_nil l.first l.more)
  have hchildren : (n.relabel ρ).mapChildren (· ++ block.map (Node.relabel ρ)) =
      (n.mapChildren (· ++ block)).relabel ρ := by
    cases n <;> simp [Node.mapChildren]
  simp [hn, List.concat_eq_append, List.modifyLast_concat, hchildren]

/-- Labels do not matter for what a block holds. -/
theorem block_relabel
    (owner : Option Nat)
    (between lines : List (Line Node)) :
    block owner (between.map (map (Node.relabel ρ))) (lines.map (map (Node.relabel ρ))) =
      (block owner between lines).map (Node.relabel ρ) := by
  induction lines generalizing owner between with
  | nil =>
      rfl
  | cons l later ih =>
      have hbelow : IsBelow owner (between.map (map (Node.relabel ρ))) (l.map (Node.relabel ρ)) ↔
          IsBelow owner between l := by
        simp [IsBelow, map]
      have hinside := ih (some l.width) []
      have hlater := ih owner (between ++ [l])
      rw [List.map_append] at hlater
      rw [List.map_cons, block, block, List.map_append]
      congr 1
      by_cases hl : IsBelow owner between l
      · rw [if_pos hl, if_pos (hbelow.2 hl), ← nodesOver_relabel, ← hinside]
        rfl
      · rw [if_neg hl, if_neg (mt hbelow.1 hl), List.map_nil]

/-- Labels do not matter for how lines are arranged. -/
theorem arrange_relabel
    (marked : List (Option Nat × Node)) :
    arrange (marked.map fun item => (item.1, item.2.relabel ρ)) =
      (arrange marked).map (Node.relabel ρ) := by
  rw [arrange, arrange, split_map (Node.relabel ρ), List.map_append, ← block_relabel]
  rfl

end Line

namespace Node

variable {ρ : Relabelling}

theorem marked_relabel
    (hρ : ρ.KeepsMarkers)
    {ns : List Node}
    (hns : ∀ n ∈ ns, (n.relabel ρ).arranged = n.arranged.relabel ρ) :
    marked (ns.map (relabel ρ)) = (marked ns).map fun item => (item.1, item.2.relabel ρ) := by
  rw [marked_eq_map, marked_eq_map, List.map_map, List.map_map]
  refine List.map_congr_left fun n hn => ?_
  simp [indent_relabel hρ, hns n hn]

/-- By induction over the tree: arranging commutes with a change of labels that keeps the
markers. -/
theorem arranged_relabel
    (hρ : ρ.KeepsMarkers)
    (n : Node) :
    (n.relabel ρ).arranged = n.arranged.relabel ρ := by
  induction n with
  | element header children ih =>
      rw [relabel_element, arranged, arranged, relabel_element, marked_relabel hρ ih,
        Line.arrange_relabel, hρ.header_unmarked]
  | text run =>
      rw [relabel_text, arranged, arranged, relabel_text, hρ.run_unmarked]

theorem ofNodes_relabel
    (hρ : ρ.KeepsMarkers)
    (ns : List Node) :
    Line.ofNodes (ns.map (relabel ρ)) = (Line.ofNodes ns).map (Line.map (relabel ρ)) := by
  have hmap := Line.split_map (relabel ρ) (ns.map fun n => (n.indent, n))
  have hitems : (ns.map (relabel ρ)).map (fun n => (n.indent, n)) =
      (ns.map fun n => (n.indent, n)).map fun item => (item.1, item.2.relabel ρ) := by
    simp [indent_relabel hρ]
  rw [Line.ofNodes, Line.ofNodes, hitems, hmap]

end Node

namespace Line

theorem latestWithin_map
    {α β : Type}
    (f : α → β)
    (width : Nat)
    (lines : List (Line α)) :
    latestWithin width (lines.map (map f)) = (latestWithin width lines).map (map f) := by
  rw [latestWithin, latestWithin, ← List.map_reverse, List.find?_map]
  rfl

theorem last_map
    {α β : Type}
    (f : α → β)
    (l : Line α) :
    (l.map f).last = f l.last := by
  simp [map, last, List.getLastD_eq_getLast?, List.getLast?_map, Option.getD_map]

/-- Whether a line fits does not hang on more than the widths and where the elements are. -/
theorem fits_map_iff
    {f : Node → Node}
    (hf : ∀ n, (f n).isElement = n.isElement)
    (before : List (Line Node))
    (width : Nat) :
    Fits (before.map (map f)) width ↔ Fits before width := by
  have hbase : (∀ first ∈ (before.map (map f)).head?, first.width ≤ width) ↔
      ∀ first ∈ before.head?, first.width ≤ width := by
    rw [List.head?_map, Option.forall_mem_map]
    rfl
  have hdedent : (∀ previous ∈ (before.map (map f)).getLast?, width < previous.width →
        (latestWithin width (before.map (map f))).map (·.width) = some width) ↔
      ∀ previous ∈ before.getLast?, width < previous.width →
        (latestWithin width before).map (·.width) = some width := by
    rw [List.getLast?_map, Option.forall_mem_map, latestWithin_map, Option.map_map]
    rfl
  have hparent : (∀ previous ∈ (before.map (map f)).getLast?,
        previous.width < width → previous.last.isElement = true) ↔
      ∀ previous ∈ before.getLast?, previous.width < width → previous.last.isElement = true := by
    rw [List.getLast?_map, Option.forall_mem_map]
    simp only [last_map, hf]
    rfl
  exact ⟨fun h => ⟨hbase.1 h.base, hdedent.1 h.dedent, hparent.1 h.parent⟩,
    fun h => ⟨hbase.2 h.base, hdedent.2 h.dedent, hparent.2 h.parent⟩⟩

/-- Whether each of `lines` fits behind `before` and the lines between. -/
def FitBehind
    (before lines : List (Line Node)) : Prop :=
  ∀ init l rest, lines = init ++ l :: rest → Fits (before ++ init) l.width

@[simp] theorem fitBehind_nil
    (before : List (Line Node)) :
    FitBehind before [] := by
  intro init l rest heq
  simp at heq

@[simp] theorem fitBehind_cons
    (before : List (Line Node))
    (l : Line Node)
    (lines : List (Line Node)) :
    FitBehind before (l :: lines) ↔ Fits before l.width ∧ FitBehind (before ++ [l]) lines := by
  constructor
  · intro hfit
    refine ⟨by simpa using hfit [] l lines rfl, fun init m rest heq => ?_⟩
    simpa using hfit (l :: init) m rest (by rw [heq, List.cons_append])
  · rintro ⟨hl, hlines⟩ init m rest heq
    cases init with
    | nil =>
        simp only [List.nil_append, List.cons.injEq] at heq
        simpa [← heq.1] using hl
    | cons k init =>
        simp only [List.cons_append, List.cons.injEq] at heq
        simpa [← heq.1] using hlines init m rest heq.2

/-- Lines fit in two parts, the second behind the first. -/
theorem fitBehind_append
    (before as bs : List (Line Node)) :
    FitBehind before (as ++ bs) ↔ FitBehind before as ∧ FitBehind (before ++ as) bs := by
  induction as generalizing before with
  | nil =>
      simp
  | cons a as ih =>
      simp [ih, and_assoc]

theorem fitBehind_map_iff
    {f : Node → Node}
    (hf : ∀ n, (f n).isElement = n.isElement)
    (before lines : List (Line Node)) :
    FitBehind (before.map (map f)) (lines.map (map f)) ↔ FitBehind before lines := by
  induction lines generalizing before with
  | nil =>
      simp
  | cons l lines ih =>
      have hlines := ih (before ++ [l])
      rw [List.map_append, List.map_singleton] at hlines
      rw [List.map_cons, fitBehind_cons, fitBehind_cons, hlines, fits_map_iff hf]
      rfl

end Line

namespace Node

/-- Lines fit exactly if each of them fits behind those before it. -/
theorem linesFit_iff_fitBehind
    (ns : List Node) :
    LinesFit ns ↔ Line.FitBehind [] (Line.ofNodes ns) := by
  simp [LinesFit, Line.FitBehind]

/-- Labels do not matter for whether lines fit. -/
theorem linesFit_relabel_iff
    {ρ : Relabelling}
    (hρ : ρ.KeepsMarkers)
    (ns : List Node) :
    LinesFit (ns.map (relabel ρ)) ↔ LinesFit ns := by
  rw [linesFit_iff_fitBehind, linesFit_iff_fitBehind, ofNodes_relabel hρ]
  exact Line.fitBehind_map_iff (isElement_relabel ρ) [] (Line.ofNodes ns)

end Node

namespace Document

variable {ρ : Relabelling}

theorem elements_relabel
    (ρ : Relabelling)
    (document : Document) :
    elements (document.map (Node.relabel ρ)) =
      document.elements.map fun e => ⟨ρ.header e.header, e.children.map (Node.relabel ρ)⟩ := by
  fun_induction elements document with
  | case1 =>
      simp
  | case2 run rest ih =>
      simpa using ih
  | case3 header children rest ih =>
      rw [List.map_append, elements_append] at ih
      simp [ih]

/-- A document is arranged node by node. -/
theorem arranged_relabel
    (hρ : ρ.KeepsMarkers)
    (document : Document) :
    arranged (document.map (Node.relabel ρ)) = document.arranged.map (Node.relabel ρ) := by
  rw [arranged, Node.marked_relabel hρ fun n _ => Node.arranged_relabel hρ n, Line.arrange_relabel]
  rfl

/-- Whether a document is well indented does not depend on its labels. -/
theorem wellIndented_relabel_iff
    (hρ : ρ.KeepsMarkers)
    (document : Document) :
    WellIndented (document.map (Node.relabel ρ)) ↔ document.WellIndented := by
  have hlists : siblingLists (document.map (Node.relabel ρ)) =
      document.siblingLists.map (List.map (Node.relabel ρ)) := by
    simp [siblingLists, elements_relabel]
  have hlines : (∀ ns ∈ siblingLists (document.map (Node.relabel ρ)), Node.LinesFit ns) ↔
      ∀ ns ∈ document.siblingLists, Node.LinesFit ns := by
    simp only [hlists, List.forall_mem_map, Node.linesFit_relabel_iff hρ]
  have hdepth : (∀ depth ∈ Node.depthsList 0 (arranged (document.map (Node.relabel ρ))),
        depth ≤ maxDepth) ↔
      ∀ depth ∈ Node.depthsList 0 document.arranged, depth ≤ maxDepth := by
    rw [arranged_relabel hρ, Node.depthsList_relabel]
  exact ⟨fun h => ⟨hlines.1 h.lines, hdepth.1 h.depth⟩,
    fun h => ⟨hlines.2 h.lines, hdepth.2 h.depth⟩⟩

/-- Nesting does not see a relabelling that keeps the line markers. -/
theorem exists_nest_of_relabel_eq
    (hρ : ρ.KeepsMarkers)
    {document model : Document}
    (heq : document.map (Node.relabel ρ) = model.map (Node.relabel ρ))
    (hmodel : model.WellIndented) :
    ∃ result, document.nest = .ok result ∧
      result.map (Node.relabel ρ) = model.arranged.map (Node.relabel ρ) := by
  have hwell : document.WellIndented := by
    rwa [← wellIndented_relabel_iff hρ, heq, wellIndented_relabel_iff hρ]
  refine ⟨document.arranged, (nest_eq_ok_iff _ _).2 ⟨hwell, rfl⟩, ?_⟩
  rw [← arranged_relabel hρ, heq, arranged_relabel hρ]

end Document

end BlockMarkup
