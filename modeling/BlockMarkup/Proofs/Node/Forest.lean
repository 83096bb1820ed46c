import BlockMarkup.Node.Indentation
import Mathlib.Data.List.ModifyLast
import Mathlib.Tactic

/-!
# Forests

Views of a list of nodes that do not depend on how it was made: its elements and its nodes in the
order of the source, and the depth of each node.

A forest grows at its end. `Node.appendAt level` puts nodes behind everything else, `level` steps
down along the last nodes; `Node.HasSpine level` says that there are so many elements to step down
along. On the views, growing at the end is putting something behind (`Node.preorderList_appendAt`,
`Node.mem_depthsList_appendAt`).
-/

namespace BlockMarkup

section LastItem

variable {α : Type}

theorem modifyLast_modifyLast
    (f g : α → α)
    (as : List α) :
    (as.modifyLast f).modifyLast g = as.modifyLast (g ∘ f) := by
  rcases List.eq_nil_or_concat as with rfl | ⟨init, a, rfl⟩
  · rfl
  · simp only [List.concat_eq_append, List.modifyLast_concat, Function.comp_apply]

theorem modifyLast_ne_nil
    {f : α → α}
    {as : List α}
    (has : as ≠ []) :
    as.modifyLast f ≠ [] := by
  rcases List.eq_nil_or_concat as with rfl | ⟨init, a, rfl⟩
  · exact absurd rfl has
  · simp [List.modifyLast_concat]

end LastItem

namespace Node

/-- Induction on trees: an element may use what holds of its children. -/
@[induction_eliminator]
theorem inductionOn
    {motive : Node → Prop}
    (element : ∀ (header : Header) (children : List Node),
      (∀ child ∈ children, motive child) → motive (.element header children))
    (text : ∀ run : TextRun, motive (.text run))
    (n : Node) :
    motive n := by
  refine @Node.rec motive (fun ns => ∀ child ∈ ns, motive child) element text ?_ ?_ n
  · intro child hchild
    cases hchild
  · intro n rest hn hrest child hchild
    rcases List.mem_cons.1 hchild with rfl | hchild
    · exact hn
    · exact hrest child hchild

def isElement : Node → Bool
  | element _ _ => true
  | text _ => false

/-- Changes the children of an element. A text has none. -/
def mapChildren (f : List Node → List Node) : Node → Node
  | element header children => element header (f children)
  | text run => text run

@[simp] theorem mapChildren_mapChildren
    (f g : List Node → List Node)
    (n : Node) :
    (n.mapChildren f).mapChildren g = n.mapChildren (g ∘ f) := by
  cases n <;> rfl

mutual

/-- A node and the nodes inside it, in the order of the source, each without its children. -/
def preorder : Node → List Node
  | .element header children => .element header [] :: preorderList children
  | .text run => [.text run]

def preorderList : List Node → List Node
  | [] => []
  | n :: rest => n.preorder ++ preorderList rest

end

mutual

/-- The depths of a node at `depth` and of the nodes inside it. -/
def depths (depth : Nat) : Node → List Nat
  | .element _ children => depth :: depthsList (depth + 1) children
  | .text _ => [depth]

def depthsList (depth : Nat) : List Node → List Nat
  | [] => []
  | n :: rest => n.depths depth ++ depthsList depth rest

end

theorem preorderList_eq_flatMap
    (ns : List Node) :
    preorderList ns = ns.flatMap preorder := by
  induction ns with
  | nil =>
      rfl
  | cons n rest ih =>
      rw [preorderList, ih, List.flatMap_cons]

theorem mem_preorderList
    {ns : List Node}
    {m : Node} :
    m ∈ preorderList ns ↔ ∃ n ∈ ns, m ∈ n.preorder := by
  rw [preorderList_eq_flatMap, List.mem_flatMap]

theorem mem_preorder_of_child
    {header : Header}
    {children : List Node}
    {child m : Node}
    (hchild : child ∈ children)
    (hm : m ∈ child.preorder) :
    m ∈ (element header children).preorder :=
  List.mem_cons_of_mem _ (mem_preorderList.2 ⟨child, hchild, hm⟩)

@[simp] theorem preorderList_append
    (as bs : List Node) :
    preorderList (as ++ bs) = preorderList as ++ preorderList bs := by
  simp [preorderList_eq_flatMap]

theorem depthsList_eq_flatMap
    (depth : Nat)
    (ns : List Node) :
    depthsList depth ns = ns.flatMap (depths depth) := by
  induction ns with
  | nil =>
      rfl
  | cons n rest ih =>
      rw [depthsList, ih, List.flatMap_cons]

@[simp] theorem depthsList_append
    (depth : Nat)
    (as bs : List Node) :
    depthsList depth (as ++ bs) = depthsList depth as ++ depthsList depth bs := by
  simp [depthsList_eq_flatMap]

/-- Puts nodes at the end of a forest, `level` steps down along its last nodes. -/
def appendAt : Nat → List Node → List Node → List Node
  | 0, added, forest => forest ++ added
  | level + 1, added, forest => forest.modifyLast (mapChildren (appendAt level added))

/-- Whether the last nodes of a forest are elements, `level` steps down. -/
def HasSpine : Nat → List Node → Prop
  | 0, _ => True
  | level + 1, forest =>
    ∃ before header children, forest = before ++ [element header children] ∧
      HasSpine level children

/-- Nodes that are put at the same place one after another stand there in order. -/
theorem appendAt_append
    (level : Nat)
    (as bs forest : List Node) :
    appendAt level (as ++ bs) forest = appendAt level bs (appendAt level as forest) := by
  induction level generalizing forest with
  | zero =>
      simp [appendAt]
  | succ level ih =>
      simp only [appendAt, modifyLast_modifyLast]
      congr 1
      funext n
      rw [Function.comp_apply, mapChildren_mapChildren]
      congr 1
      funext children
      exact ih children

/-- Nodes that are put one step deeper than the ones before go below the last of these. -/
theorem appendAt_succ_appendAt
    (level : Nat)
    (bs : List Node)
    {as : List Node}
    (has : as ≠ [])
    (forest : List Node) :
    appendAt (level + 1) bs (appendAt level as forest) =
      appendAt level (as.modifyLast (mapChildren (· ++ bs))) forest := by
  induction level generalizing forest with
  | zero =>
      simp only [appendAt]
      exact List.modifyLast_append_of_right_ne_nil _ _ _ has
  | succ level ih =>
      rw [appendAt, appendAt, appendAt, modifyLast_modifyLast]
      congr 1
      funext n
      rw [Function.comp_apply, mapChildren_mapChildren]
      congr 1
      funext children
      exact ih children

/-- Below the end of a forest that has an end, what stands before it does not matter. -/
theorem appendAt_append_right
    {level : Nat}
    {before after : List Node}
    (h : level = 0 ∨ after ≠ [])
    (added : List Node) :
    appendAt level added (before ++ after) = before ++ appendAt level added after := by
  cases level with
  | zero =>
      simp [appendAt]
  | succ level =>
      have hafter : after ≠ [] := by
        simpa using h
      exact List.modifyLast_append_of_right_ne_nil _ _ _ hafter

/-- Nodes are added one level down at the last element. -/
theorem appendAt_succ_concat
    (level : Nat)
    (added before : List Node)
    (header : Header)
    (children : List Node) :
    appendAt (level + 1) added (before ++ [element header children]) =
      before ++ [element header (appendAt level added children)] := by
  rw [appendAt, List.modifyLast_concat]
  rfl

/-- An element at the end of a spine makes it one step longer. -/
theorem HasSpine.appendAt_element
    {level : Nat}
    {forest : List Node}
    (hspine : HasSpine level forest)
    (header : Header)
    (children : List Node) :
    HasSpine (level + 1) (appendAt level [element header children] forest) := by
  induction level generalizing forest with
  | zero =>
      exact ⟨forest, header, children, rfl, trivial⟩
  | succ level ih =>
      obtain ⟨before, outer, inner, rfl, hinner⟩ := hspine
      rw [appendAt_succ_concat]
      exact ⟨before, outer, _, rfl, ih hinner⟩

/-- What is put at the end of a forest comes last in the order of the source. -/
theorem preorderList_appendAt
    {level : Nat}
    {forest : List Node}
    (hspine : HasSpine level forest)
    (added : List Node) :
    preorderList (appendAt level added forest) = preorderList forest ++ preorderList added := by
  induction level generalizing forest with
  | zero =>
      simp [appendAt]
  | succ level ih =>
      obtain ⟨before, header, children, rfl, hchildren⟩ := hspine
      rw [appendAt_succ_concat]
      simp [preorderList, preorder, ih hchildren]

/-- Nodes that are added at a level lie that much deeper. -/
theorem mem_depthsList_appendAt
    {level : Nat}
    {forest : List Node}
    (hspine : HasSpine level forest)
    (added : List Node)
    (depth d : Nat) :
    d ∈ depthsList depth (appendAt level added forest) ↔
      d ∈ depthsList depth forest ∨ d ∈ depthsList (depth + level) added := by
  induction level generalizing forest depth with
  | zero =>
      simp [appendAt]
  | succ level ih =>
      obtain ⟨before, header, children, rfl, hchildren⟩ := hspine
      have hdepth : depth + 1 + level = depth + (level + 1) := by omega
      rw [appendAt_succ_concat]
      simp only [depthsList_append, depthsList, depths, List.mem_append, List.mem_cons,
        List.not_mem_nil, or_false, ih hchildren (depth + 1), hdepth, or_assoc]

end Node

namespace Document

@[simp] theorem elements_nil : elements [] = [] := by
  rw [elements]

@[simp] theorem elements_text
    (run : TextRun)
    (rest : List Node) :
    elements (.text run :: rest) = elements rest := by
  rw [elements]

/-- The nodes that are still to be visited come one after another. -/
theorem elements_append
    (as bs : List Node) :
    elements (as ++ bs) = elements as ++ elements bs := by
  fun_induction elements as with
  | case1 =>
      simp
  | case2 run rest ih =>
      rw [List.cons_append, elements_text, ih]
  | case3 header children rest ih =>
      rw [List.cons_append, elements, ← List.append_assoc, ih, List.cons_append]

@[simp] theorem elements_element
    (header : Header)
    (children rest : List Node) :
    elements (.element header children :: rest) =
      ⟨header, children⟩ :: (elements children ++ elements rest) := by
  rw [elements, elements_append]

/-- The elements of a list of trees are those of each of them. -/
theorem elements_eq_flatMap
    (ns : List Node) :
    elements ns = ns.flatMap fun n => elements [n] := by
  induction ns with
  | nil =>
      simp
  | cons n rest ih =>
      rw [← List.singleton_append, elements_append, ih, List.flatMap_append]
      simp

end Document

end BlockMarkup
