import BlockMarkup.Proofs.Node.Forest

/-!
# Outlines

What the steps of placing siblings into an outline do to the siblings that have been placed
(`Outline.finish`) and to the widths of the open blocks (`Outline.widths`): adding a node puts it
at the end of the innermost block, and closing or opening blocks changes no sibling.
-/

namespace BlockMarkup

/-- The element that a block becomes when it is closed. -/
def Frame.element (frame : Frame) : Node := .element frame.header frame.children.reverse

namespace Outline

theorem finish_nil
    (width : Option Nat)
    (base : List Node) :
    finish ⟨width, base, []⟩ = base.reverse := by
  rw [finish]

theorem finish_close
    (width : Option Nat)
    (base : List Node)
    (frame : Frame)
    (outer : List Frame) :
    finish ⟨width, base, frame :: outer⟩ = finish (add ⟨width, base, outer⟩ frame.element) := by
  rw [finish]
  rfl

/-- A node that is added to the innermost block comes last in it. -/
theorem finish_add
    (o : Outline)
    (n : Node) :
    (o.add n).finish = Node.appendAt o.frames.length [n] o.finish := by
  obtain ⟨width, base, frames⟩ := o
  induction frames generalizing base n with
  | nil =>
      have hadd : add ⟨width, base, []⟩ n = ⟨width, n :: base, []⟩ := rfl
      rw [hadd, finish_nil, finish_nil]
      simp [Node.appendAt]
  | cons frame outer ih =>
      have hadd : add ⟨width, base, frame :: outer⟩ n =
          ⟨width, base, { frame with children := n :: frame.children } :: outer⟩ := rfl
      have hlast : [Frame.element { frame with children := n :: frame.children }] =
          [frame.element].modifyLast (Node.mapChildren (· ++ [n])) := by
        simp [Frame.element, List.modifyLast, List.modifyLast.go, Node.mapChildren]
      rw [hadd, finish_close, finish_close, ih, ih, hlast, List.length_cons]
      exact (Node.appendAt_succ_appendAt outer.length [n] (by simp) _).symm

/-- An open block stands last in the block around it. -/
theorem finish_cons
    (width : Option Nat)
    (base : List Node)
    (frame : Frame)
    (outer : List Frame) :
    finish ⟨width, base, frame :: outer⟩ =
      Node.appendAt outer.length [frame.element] (finish ⟨width, base, outer⟩) := by
  rw [finish_close, finish_add]

/-- The siblings do not depend on the width of the first line. -/
theorem finish_baseWidth
    (width width' : Option Nat)
    (base : List Node)
    (frames : List Frame) :
    finish ⟨width, base, frames⟩ = finish ⟨width', base, frames⟩ := by
  induction frames with
  | nil =>
      rw [finish_nil, finish_nil]
  | cons frame outer ih =>
      rw [finish_cons, finish_cons, ih]

theorem add_dropLast
    {o : Outline}
    {n : Node}
    {before : List Node}
    (hlast : o.innermost = n :: before) :
    o.dropLast.add n = o := by
  obtain ⟨width, base, frames⟩ := o
  cases frames with
  | nil =>
      have hbase : base = n :: before := hlast
      rw [hbase]
      rfl
  | cons frame outer =>
      obtain ⟨frameWidth, header, children⟩ := frame
      have hchildren : children = n :: before := hlast
      rw [hchildren]
      rfl

/-- The widths of the open blocks, innermost first. -/
def widths (o : Outline) : List Nat := o.frames.map (·.width)

@[simp] theorem length_widths
    (o : Outline) :
    o.widths.length = o.frames.length := by
  simp [widths]

@[simp] theorem widths_add
    (o : Outline)
    (n : Node) :
    (o.add n).widths = o.widths := by
  obtain ⟨width, base, frames⟩ := o
  cases frames <;> rfl

@[simp] theorem widths_dropLast
    (o : Outline) :
    o.dropLast.widths = o.widths := by
  obtain ⟨width, base, frames⟩ := o
  cases frames <;> rfl

@[simp] theorem baseWidth_add
    (o : Outline)
    (n : Node) :
    (o.add n).baseWidth = o.baseWidth := by
  obtain ⟨width, base, frames⟩ := o
  cases frames <;> rfl

@[simp] theorem baseWidth_dropLast
    (o : Outline) :
    o.dropLast.baseWidth = o.baseWidth := by
  obtain ⟨width, base, frames⟩ := o
  cases frames <;> rfl

theorem innermost_add
    (o : Outline)
    (n : Node) :
    (o.add n).innermost = n :: o.innermost := by
  obtain ⟨width, base, frames⟩ := o
  cases frames <;> rfl

theorem closeWider_nil
    (width : Nat)
    (baseWidth : Option Nat)
    (base : List Node) :
    closeWider width ⟨baseWidth, base, []⟩ = ⟨baseWidth, base, []⟩ := by
  rw [closeWider]

/-- A block is closed by a line that is less wide. -/
theorem closeWider_cons
    (width : Nat)
    (baseWidth : Option Nat)
    (base : List Node)
    (frame : Frame)
    (outer : List Frame) :
    closeWider width ⟨baseWidth, base, frame :: outer⟩ =
      if width < frame.width then closeWider width (add ⟨baseWidth, base, outer⟩ frame.element)
      else ⟨baseWidth, base, frame :: outer⟩ := by
  rw [closeWider]
  rfl

/-- Closing the blocks that are wider than a line closes just these and changes none of the
siblings. -/
theorem closeWider_spec
    (width : Nat)
    (o : Outline) :
    (closeWider width o).widths = o.widths.dropWhile (width < ·) ∧
      (closeWider width o).baseWidth = o.baseWidth ∧
      (closeWider width o).finish = o.finish := by
  obtain ⟨baseWidth, base, frames⟩ := o
  induction hlength : frames.length generalizing base frames with
  | zero =>
      rw [List.length_eq_zero_iff] at hlength
      subst hlength
      rw [closeWider_nil]
      exact ⟨rfl, rfl, rfl⟩
  | succ length ih =>
      obtain ⟨frame, outer, rfl⟩ := List.exists_cons_of_length_eq_add_one hlength
      rw [closeWider_cons]
      by_cases hwider : width < frame.width
      · rw [if_pos hwider]
        have houter : (add ⟨baseWidth, base, outer⟩ frame.element).frames.length = length := by
          simpa using hlength
        obtain ⟨hwidths, hbase, hfinish⟩ :=
          ih (add ⟨baseWidth, base, outer⟩ frame.element).base
            (add ⟨baseWidth, base, outer⟩ frame.element).frames houter
        have hsame : (⟨baseWidth, (add ⟨baseWidth, base, outer⟩ frame.element).base,
            (add ⟨baseWidth, base, outer⟩ frame.element).frames⟩ : Outline) =
              add ⟨baseWidth, base, outer⟩ frame.element := by
          cases outer <;> rfl
        rw [hsame] at hwidths hbase hfinish
        refine ⟨?_, by rw [hbase, baseWidth_add], by rw [hfinish, finish_close]⟩
        rw [hwidths, widths_add]
        simp [widths, hwider]
      · rw [if_neg hwider]
        refine ⟨?_, rfl, rfl⟩
        simp [widths, hwider]

/-- With no block to close, nothing changes. -/
theorem closeWider_eq_self
    {width : Nat}
    {o : Outline}
    (hlength : o.frames.length ≤ (closeWider width o).frames.length) :
    closeWider width o = o := by
  obtain ⟨baseWidth, base, frames⟩ := o
  cases frames with
  | nil =>
      exact closeWider_nil width baseWidth base
  | cons frame outer =>
      rw [closeWider_cons] at hlength ⊢
      by_cases hwider : width < frame.width
      · rw [if_pos hwider] at hlength
        have hshort : (closeWider width (add ⟨baseWidth, base, outer⟩ frame.element)).frames.length
            ≤ outer.length := by
          rw [← length_widths, (closeWider_spec _ _).1]
          refine le_trans (List.dropWhile_suffix _).length_le ?_
          rw [widths_add]
          simp [widths]
        rw [List.length_cons] at hlength
        omega
      · rw [if_neg hwider]

end Outline

section Widths

/-- Of widths in decreasing order, those that are too wide come first. -/
theorem dropWhile_eq_filter
    {widths : List Nat}
    (hsorted : widths.Pairwise (· > ·))
    (width : Nat) :
    widths.dropWhile (width < ·) = widths.filter (· ≤ width) := by
  induction widths with
  | nil =>
      rfl
  | cons w rest ih =>
      rw [List.pairwise_cons] at hsorted
      by_cases hw : width < w
      · have hnot : ¬ w ≤ width := by omega
        simp [hw, hnot, ih hsorted.2]
      · have hall : ∀ v ∈ rest, v ≤ width := by
          intro v hv
          have := hsorted.1 v hv
          omega
        have hle : w ≤ width := by omega
        simp only [List.dropWhile_cons, hw, decide_false, Bool.false_eq_true, if_false,
          List.filter_cons, hle, decide_true, if_true, List.cons.injEq, true_and]
        exact (List.filter_eq_self.2 (by simpa using hall)).symm

/-- The width of the innermost block that is left open. -/
theorem find?_append_singleton
    (widths : List Nat)
    {base width : Nat}
    (hbase : base ≤ width) :
    (widths ++ [base]).find? (· ≤ width) =
      some ((widths.dropWhile (width < ·)).head?.getD base) := by
  induction widths with
  | nil =>
      simp [hbase]
  | cons w rest ih =>
      by_cases hw : width < w
      · have hnot : ¬ w ≤ width := by omega
        simpa [hw, hnot] using ih
      · have hle : w ≤ width := by omega
        simp [hw, hle]

/-- A block is closed if the line before is wider. -/
theorem length_dropWhile_lt_iff
    {widths : List Nat}
    {base previous width : Nat}
    (hhead : (widths ++ [base]).head? = some previous)
    (hbase : base ≤ width) :
    (widths.dropWhile (width < ·)).length < widths.length ↔ width < previous := by
  cases widths with
  | nil =>
      obtain rfl : base = previous := by simpa using hhead
      simp [hbase]
  | cons w rest =>
      obtain rfl : w = previous := by simpa using hhead
      by_cases hw : width < w
      · have hle := (List.dropWhile_suffix (width < ·) (l := rest)).length_le
        simp [hw]
        omega
      · simp [hw]

/-- Otherwise the innermost block stays that of the line before. -/
theorem head?_dropWhile_of_le
    {widths : List Nat}
    {base previous width : Nat}
    (hhead : (widths ++ [base]).head? = some previous)
    (hle : previous ≤ width) :
    (widths.dropWhile (width < ·)).head?.getD base = previous := by
  cases widths with
  | nil =>
      simpa using hhead
  | cons w rest =>
      obtain rfl : w = previous := by simpa using hhead
      simp [not_lt.2 hle]

/-- A line that returns to a block leaves the blocks around it open. -/
theorem dropWhile_append_singleton
    {widths : List Nat}
    {base width : Nat}
    (hsorted : (widths ++ [base]).Pairwise (· > ·))
    (hbase : base ≤ width)
    (htop : (widths.dropWhile (width < ·)).head?.getD base = width) :
    widths.dropWhile (width < ·) ++ [base] = width :: (widths ++ [base]).filter (· < width) := by
  have hdrop : widths.dropWhile (width < ·) ++ [base] = (widths ++ [base]).filter (· ≤ width) := by
    rw [dropWhile_eq_filter (List.pairwise_append.1 hsorted).1]
    simp [hbase]
  have hsub : (widths ++ [base]).filter (· < width) =
      ((widths ++ [base]).filter (· ≤ width)).filter (· < width) := by
    rw [List.filter_filter]
    congr 1
    funext w
    by_cases hw : w < width
    · simp [hw, le_of_lt hw]
    · simp [hw]
  obtain ⟨rest, hrest⟩ : ∃ rest, widths.dropWhile (width < ·) ++ [base] = width :: rest := by
    cases hopen : widths.dropWhile (width < ·) with
    | nil =>
        rw [hopen] at htop
        exact ⟨[], by simpa using htop⟩
    | cons w rest =>
        rw [hopen] at htop
        exact ⟨rest ++ [base], by simpa using htop⟩
  have hpair := hsorted.filter (· ≤ width)
  rw [hsub, ← hdrop, hrest]
  rw [← hdrop, hrest, List.pairwise_cons] at hpair
  rw [List.filter_cons_of_neg (by simp), List.filter_eq_self.2 (by simpa using hpair.1)]

/-- Every open block is narrower than a line that is wider than the line before. -/
theorem filter_lt_eq_self
    {widths : List Nat}
    {previous width : Nat}
    (hsorted : widths.Pairwise (· > ·))
    (hhead : widths.head? = some previous)
    (hwider : previous < width) :
    widths.filter (· < width) = widths := by
  cases widths with
  | nil =>
      rfl
  | cons w rest =>
      obtain rfl : w = previous := by simpa using hhead
      rw [List.pairwise_cons] at hsorted
      apply List.filter_eq_self.2
      intro v hv
      rcases List.mem_cons.1 hv with rfl | hv
      · simpa using hwider
      · simpa using lt_trans (hsorted.1 v hv) hwider

end Widths

namespace Outline

/-- Where no line has begun yet, any line may begin. -/
theorem beginLine_of_nil
    {o : Outline}
    (hbase : o.baseWidth = none)
    (hframes : o.frames = [])
    (width : Nat)
    (position : Position) :
    o.beginLine width position = .ok { o with baseWidth := some width } := by
  obtain ⟨baseWidth, base, frames⟩ := o
  obtain rfl : baseWidth = none := hbase
  obtain rfl : frames = [] := hframes
  simp [beginLine, closeWider_nil]

/-- Where the first line was not wider, the blocks that are wider are closed. Then the line goes
into the innermost block, or opens a new one. -/
theorem beginLine_of_some
    {o : Outline}
    {base width : Nat}
    (hbase : o.baseWidth = some base)
    (hle : base ≤ width)
    (position : Position) :
    o.beginLine width position =
      if (o.widths.dropWhile (width < ·)).head?.getD base = width then .ok (closeWider width o)
      else if (o.widths.dropWhile (width < ·)).length < o.widths.length then
        .error ⟨.inconsistentDedent width, position⟩
      else
        match o.innermost with
        | .element header children :: _ =>
          .ok { o.dropLast with
            frames := ⟨width, header, children.reverse⟩ :: o.dropLast.frames }
        | .text _ :: _ => .error ⟨.nestedUnderText, position⟩
        | [] => .error ⟨.inconsistentDedent width, position⟩ := by
  have hsame : { o with baseWidth := some base } = o := by
    rw [← hbase]
  have hwidths := (closeWider_spec width o).1
  have hhead : ((closeWider width o).frames.head?.map (·.width)).getD base =
      (o.widths.dropWhile (width < ·)).head?.getD base := by
    rw [← hwidths, Outline.widths, List.head?_map]
  have hlength : (closeWider width o).frames.length =
      (o.widths.dropWhile (width < ·)).length := by
    rw [← hwidths, length_widths]
  rw [beginLine, hbase]
  simp only [Option.getD_some, hsame, not_lt.2 hle, if_false]
  rw [hhead, hlength, length_widths]
  split
  · rfl
  · split
    · rfl
    · next hlong =>
      rewrite [closeWider_eq_self (by rw [hlength]; omega)]
      rfl

theorem widths_openBlock
    (o : Outline)
    (frame : Frame) :
    Outline.widths { o.dropLast with frames := frame :: o.dropLast.frames } =
      frame.width :: o.widths := by
  rw [← widths_dropLast o]
  rfl

/-- A block that is opened takes over the last node with its children. -/
theorem finish_openBlock
    {o : Outline}
    {header : Header}
    {children before : List Node}
    (hlast : o.innermost = .element header children :: before)
    (width : Nat) :
    finish
        { o.dropLast with frames := ⟨width, header, children.reverse⟩ :: o.dropLast.frames } =
      o.finish := by
  have helement : Frame.element ⟨width, header, children.reverse⟩ = .element header children := by
    simp [Frame.element]
  rw [finish_close, helement]
  exact congrArg finish (add_dropLast hlast)

end Outline

end BlockMarkup
