import BlockMarkup.Proofs.Page.Markup
import BlockMarkup.Proofs.Page.Visible
import Mathlib.Data.List.Chain

/-!
# The body of a page

The body of a page is what stands between its first line `<body>` and its last line with a script.
A reader finds it without knowing the document or the name of the page: no line above the body can
be taken for its beginning, whatever the name is, and no line below for its end. What is found is
the text of the nodes.
-/

namespace BlockMarkup.Page

/-- Whether a line loads a script. -/
def isScriptLine (line : List Char) : Bool :=
  "<script src=".toList.isPrefixOf (line.dropWhile (· = ' '))

/-- What stands between the first line `<body>` and the last line that loads a script. -/
def bodyOf (html : List Char) : List Char :=
  let behind := ((Text.splitAt (· = '\n') html).dropWhile (· ≠ "<body>".toList)).tail
  let inside := (behind.reverse.dropWhile fun line => !isScriptLine line).tail.reverse
  inside.flatMap (· ++ ['\n'])

/-- The body lies between the first line that opens it and the last that has a script. -/
theorem bodyOf_eq_of_splitAt
    {html : List Char}
    {above inside below : List (List Char)}
    {script : List Char}
    (hlines : Text.splitAt (· = '\n') html =
      above ++ "<body>".toList :: (inside ++ script :: below))
    (habove : ∀ line ∈ above, line ≠ "<body>".toList)
    (hscript : isScriptLine script = true)
    (hbelow : ∀ line ∈ below, isScriptLine line = false) :
    bodyOf html = inside.flatMap (· ++ ['\n']) := by
  unfold bodyOf
  generalize "<body>".toList = opener at hlines habove ⊢
  have hbehind : ((Text.splitAt (· = '\n') html).dropWhile (· ≠ opener)).tail =
      inside ++ script :: below := by
    rw [hlines, dropWhile_append_eq_right (fun line hline => decide_eq_true (habove line hline))
      (by simp), List.tail_cons]
  have hreverse : (inside ++ script :: below).reverse =
      below.reverse ++ script :: inside.reverse := by
    simp
  have hdrop : (below.reverse ++ script :: inside.reverse).dropWhile
      (fun line => !isScriptLine line) = script :: inside.reverse :=
    dropWhile_append_eq_right (fun line hline => by simp [hbelow line (List.mem_reverse.1 hline)])
      (by simp [hscript])
  simp only [hbehind, hreverse, hdrop, List.tail_cons, List.reverse_reverse]

/-- Whether `a` is nowhere directly followed by `b`. -/
def Lacks
    (a b : Char)
    (cs : List Char) : Prop :=
  cs.IsChain fun x y => ¬(x = a ∧ y = b)

section Lacks

variable {a b : Char} {cs ds : List Char}

instance : Decidable (Lacks a b cs) :=
  inferInstanceAs (Decidable (cs.IsChain _))

theorem lacks_of_not_mem
    (ha : a ∉ cs) :
    Lacks a b cs := by
  induction cs with
  | nil =>
      exact List.IsChain.nil
  | cons c cs ih =>
      rw [List.mem_cons, not_or] at ha
      exact List.isChain_cons.2 ⟨fun d _ h => ha.1 h.1.symm, ih ha.2⟩

theorem Lacks.append
    (hcs : Lacks a b cs)
    (hds : Lacks a b ds)
    (hlast : cs.getLast? ≠ some a) :
    Lacks a b (cs ++ ds) :=
  List.isChain_append.2 ⟨hcs, hds, fun _ hx _ _ h => hlast (h.1 ▸ hx)⟩

/-- A text that is put between two others without ending or beginning anything. -/
theorem lacks_around
    {middle : List Char}
    (hcs : Lacks a b cs)
    (hlast : cs.getLast? ≠ some a)
    (hmiddle : a ∉ middle)
    (hds : Lacks a b ds) :
    Lacks a b (cs ++ (middle ++ ds)) :=
  hcs.append ((lacks_of_not_mem hmiddle).append hds fun h => hmiddle (List.mem_of_getLast? h)) hlast

theorem Lacks.of_isInfix
    (hcs : Lacks a b cs)
    (hds : ds <:+: cs) :
    Lacks a b ds :=
  List.IsChain.infix hcs hds

end Lacks

section Head

theorem chars_line
    (depth : Nat)
    (s : String) :
    (line depth s).chars = ((margin depth).toList ++ s.toList) ++ ['\n'] := by
  simp [line, Fragment.chars]

/-- The fragments above the body. -/
def headTop (stem : String) : List Fragment := (head stem).dropLast

theorem head_eq
    (stem : String) :
    head stem = headTop stem ++ [line 0 "<body>"] := rfl

/-- No line of the head opens a tag as the body does. -/
theorem lacks_headTop
    (stem : String) :
    ∀ f ∈ headTop stem, ∃ cs, f.chars = cs ++ ['\n'] ∧ Lacks '<' 'b' cs := by
  have hopen : ∀ s, '<' ∉ (escape s).toList := fun s => not_mem_escape s (Or.inl rfl)
  have hconst : ∀ depth s, Lacks '<' 'b' ((margin depth).toList ++ s.toList) →
      ∃ cs, (line depth s).chars = cs ++ ['\n'] ∧ Lacks '<' 'b' cs := fun depth s h =>
    ⟨_, chars_line depth s, h⟩
  -- all lines are fixed but two, and what these two hold is escaped
  simp only [headTop, head, List.dropLast_cons_cons, List.dropLast_singleton, List.forall_mem_cons]
  refine ⟨hconst _ _ (by decide), hconst _ _ (by decide), hconst _ _ (by decide),
    hconst _ _ (by decide), hconst _ _ (by decide +kernel), hconst _ _ (by decide),
    hconst _ _ ?_, hconst _ _ ?_, hconst _ _ (by decide), by simp⟩
  · have htitle : Lacks '<' 'b' ("  <title>".toList ++
        ((escape (Text.title stem)).toList ++ "</title>".toList)) :=
      lacks_around (by decide) (by decide) (hopen _) (by decide)
    simpa [margin] using htitle
  · have hlink : Lacks '<' 'b' ("  <link rel=\"stylesheet\" href=\"".toList ++
        ((escape stem).toList ++ ".css\">".toList)) :=
      lacks_around (by decide) (by decide) (hopen _) (by decide)
    simpa [margin] using hlink

theorem exists_lines_of_forall
    {P : List Char → Prop}
    {fragments : List Fragment}
    (hfragments : ∀ f ∈ fragments, ∃ cs, f.chars = cs ++ ['\n'] ∧ P cs) :
    ∃ lines : List (List Char), fragments.flatMap Fragment.chars = lines.flatMap (· ++ ['\n']) ∧
      ∀ cs ∈ lines, P cs := by
  induction fragments with
  | nil =>
      exact ⟨[], rfl, by simp⟩
  | cons f rest ih =>
      rw [List.forall_mem_cons] at hfragments
      obtain ⟨⟨cs, hf, hcs⟩, hrest⟩ := hfragments
      obtain ⟨lines, heq, hlines⟩ := ih hrest
      refine ⟨cs :: lines, ?_, List.forall_mem_cons.2 ⟨hcs, hlines⟩⟩
      rw [List.flatMap_cons, List.flatMap_cons, hf, heq]

/-- No line above the body of a page is taken for its start. -/
theorem exists_lines_head
    (stem : String) :
    ∃ above : List (List Char), (head stem).flatMap Fragment.chars =
        (above ++ ["<body>".toList]).flatMap (· ++ ['\n']) ∧
      ∀ line ∈ above.flatMap (Text.splitAt (· = '\n')), line ≠ "<body>".toList := by
  obtain ⟨above, heq, habove⟩ := exists_lines_of_forall (lacks_headTop stem)
  refine ⟨above, ?_, fun line hline hbody => ?_⟩
  · rw [head_eq, List.flatMap_append, List.flatMap_append, heq]
    rfl
  · obtain ⟨cs, hcs, hmem⟩ := List.mem_flatMap.1 hline
    have hlacks := (habove cs hcs).of_isInfix (Text.infix_of_mem_splitAt hmem)
    exact absurd (hbody ▸ hlacks) (by decide)

end Head

section Foot

theorem isScriptLine_eq_false
    {line : List Char}
    (hline : Lacks '<' 's' line) :
    isScriptLine line = false := by
  rw [isScriptLine, Bool.eq_false_iff, ne_eq, List.isPrefixOf_iff_prefix]
  intro h
  have hlacks := hline.of_isInfix (h.isInfix.trans (List.dropWhile_suffix _).isInfix)
  exact absurd hlacks (by decide)

/-- The first line below the nodes of a page is the last with a script. -/
theorem exists_lines_foot
    (stem : String) :
    ∃ script below, Text.splitAt (· = '\n') ((foot stem).flatMap Fragment.chars) = script :: below ∧
      isScriptLine script = true ∧ ∀ line ∈ below, isScriptLine line = false := by
  -- the name of the page may break the line, but what is left of it opens no tag
  have htail : Lacks '<' 's' ("\"".toList ++ ((escape stem).toList ++
      ".js\" defer></script>\n</body>\n</html>\n".toList)) :=
    lacks_around (by decide) (by decide) (not_mem_escape stem (Or.inl rfl)) (by decide)
  obtain ⟨first, below, hsplit⟩ := List.exists_cons_of_ne_nil (Text.splitAt_ne_nil (· = '\n')
    ("\"".toList ++ ((escape stem).toList ++ ".js\" defer></script>\n</body>\n</html>\n".toList)))
  have hfoot : (foot stem).flatMap Fragment.chars = "  <script src=".toList ++ ("\"".toList ++
      ((escape stem).toList ++ ".js\" defer></script>\n</body>\n</html>\n".toList)) := by
    simp only [foot, List.flatMap_cons, List.flatMap_nil, chars_line, String.toList_append,
      List.append_assoc, List.append_nil]
    rfl
  refine ⟨"  <script src=".toList ++ first, below, ?_, ?_, fun line hline => ?_⟩
  · rw [hfoot]
    exact Text.splitAt_append_of_not_mem (by decide) hsplit
  · rfl
  · refine isScriptLine_eq_false (htail.of_isInfix ?_)
    exact Text.infix_of_mem_splitAt (hsplit ▸ List.mem_cons_of_mem _ hline)

end Foot

section Nodes

/-- Whether a text is made of whole lines. -/
def EndsLine (cs : List Char) : Prop := ∃ lines : List (List Char), cs = lines.flatMap (· ++ ['\n'])

theorem EndsLine.append
    {cs ds : List Char}
    (hcs : EndsLine cs)
    (hds : EndsLine ds) :
    EndsLine (cs ++ ds) := by
  obtain ⟨lines, rfl⟩ := hcs
  obtain ⟨others, rfl⟩ := hds
  exact ⟨lines ++ others, List.flatMap_append.symm⟩

/-- Every node ends its line. -/
theorem endsLine_nodeFragments
    (depth : Nat)
    (n : Node) :
    EndsLine ((nodeFragments depth n).flatMap Fragment.chars) := by
  have hlast : ∀ fragments s,
      EndsLine ((fragments ++ [.text (s ++ "\n")]).flatMap Fragment.chars) := by
    intro fragments s
    exact ⟨[fragments.flatMap Fragment.chars ++ s.toList], by simp [Fragment.chars]⟩
  cases n with
  | text run =>
      exact hlast (.text (margin depth) :: textFragments run) ""
  | element header children =>
      rw [nodeFragments_element]
      split
      · exact hlast [_, _, _] ""
      · exact hlast (_ :: _ :: _ :: contentFragments depth children) (endTag header)

theorem endsLine_nodesFragments
    (depth : Nat)
    (ns : List Node) :
    EndsLine ((nodesFragments depth ns).flatMap Fragment.chars) := by
  induction ns with
  | nil =>
      exact ⟨[], rfl⟩
  | cons n rest ih =>
      rw [nodesFragments, List.flatMap_append]
      exact (endsLine_nodeFragments depth n).append ih

end Nodes

/-- The body of a page is the text of its nodes. -/
theorem bodyOf_fragments
    (document : Document)
    (file : String) :
    bodyOf ((fragments document file).flatMap Fragment.chars) =
      (nodesFragments 1 document).flatMap Fragment.chars := by
  obtain ⟨above, hhead, habove⟩ := exists_lines_head (stemOf file)
  obtain ⟨script, below, hfoot, hscript, hbelow⟩ := exists_lines_foot (stemOf file)
  obtain ⟨inside, hnodes⟩ := endsLine_nodesFragments 1 document
  have hlines : Text.splitAt (· = '\n') ((fragments document file).flatMap Fragment.chars) =
      above.flatMap (Text.splitAt (· = '\n')) ++ "<body>".toList ::
        (inside.flatMap (Text.splitAt (· = '\n')) ++ script :: below) := by
    rw [fragments, List.flatMap_append, List.flatMap_append, hhead, hnodes, List.append_assoc,
      Text.splitAt_flatMap_append, Text.splitAt_flatMap_append, hfoot, List.flatMap_append,
      List.append_assoc]
    rfl
  rw [bodyOf_eq_of_splitAt hlines habove hscript hbelow, hnodes, List.flatMap_assoc]
  simp only [Text.flatMap_splitAt]

end BlockMarkup.Page
