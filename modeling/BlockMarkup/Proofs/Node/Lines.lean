import BlockMarkup.Proofs.Node.Forest

/-!
# Lines and the blocks below them

What indentation means, said without reading the siblings one after another.

A sibling list is cut into lines: an item with a marker opens a line, and an item without one
belongs to the line before it. A line stands below the nearest earlier line that is strictly
narrower, and in the list itself if there is none. The nodes of the lines below a line become
children of its last node, behind the children that node has already.

The block below a line is defined by this relation alone (`Line.block`). What is proved here is
how a block grows when one more line is put behind the others (`Line.block_append`): the new nodes
go to the end of the block, `Line.level` steps down along the last nodes.
-/

namespace BlockMarkup

/-- A line of a sibling list: its width, and its items in order. -/
structure Line (α : Type) where
  width : Nat
  first : α
  more : List α

namespace Line

variable {α : Type}

def items (l : Line α) : List α := l.first :: l.more

def last (l : Line α) : α := l.more.getLastD l.first

/-- Cuts marked items into those that stand before the first line, and the lines. -/
def split : List (Option Nat × α) → List α × List (Line α)
  | [] => ([], [])
  | (none, a) :: rest => (a :: (split rest).1, (split rest).2)
  | (some width, a) :: rest => ([], ⟨width, a, (split rest).1⟩ :: (split rest).2)

/-- Whether `l` stands directly below a line of width `owner`, where `between` are the lines
between the two: `l` is wider than the owner, and no line between is narrower than `l`. Without an
owner, `between` are all earlier lines, and `l` stands in the list itself. -/
def IsBelow
    (owner : Option Nat)
    (between : List (Line α))
    (l : Line α) : Prop :=
  (∀ width ∈ owner, width < l.width) ∧ ∀ m ∈ between, l.width ≤ m.width

instance
    (owner : Option Nat)
    (between : List (Line α))
    (l : Line α) :
    Decidable (IsBelow owner between l) :=
  inferInstanceAs (Decidable (_ ∧ _))

/-- The number of lines that a line of some width stands below, directly or not, if it comes behind
the given ones: those that are narrower than it and than every line after them. -/
def level
    (width : Nat) :
    List (Line α) → Nat
  | [] => 0
  | m :: later =>
    (if m.width < width ∧ ∀ k ∈ later, m.width < k.width then 1 else 0) + level width later

/-- The widths of the lines that what follows may continue: each is narrower than every line after
it. The last line comes first. -/
def openWidths : List (Line α) → List Nat
  | [] => []
  | m :: later =>
    openWidths later ++ if ∀ k ∈ later, m.width < k.width then [m.width] else []

/-- The latest line that is not wider than `width`. -/
def latestWithin
    (width : Nat)
    (lines : List (Line α)) : Option (Line α) :=
  lines.reverse.find? (·.width ≤ width)

/-- The nodes of a line, with the nodes of the block below it behind the children of its last
node. -/
def nodesOver
    (block : List Node)
    (l : Line Node) : List Node :=
  l.items.modifyLast (Node.mapChildren (· ++ block))

/-- The nodes that stand directly below an owner, of those in the lines after `between`. -/
def block
    (owner : Option Nat)
    (between : List (Line Node)) :
    List (Line Node) → List Node
  | [] => []
  | l :: later =>
    (if IsBelow owner between l then l.nodesOver (block (some l.width) [] later) else []) ++
      block owner (between ++ [l]) later

/-- The siblings that marked nodes become: those before the first line, and those that stand below
no line. -/
def arrange (marked : List (Option Nat × Node)) : List Node :=
  (split marked).1 ++ block none [] (split marked).2

theorem nodesOver_nil
    (l : Line Node) :
    l.nodesOver [] = l.items := by
  have hsame : Node.mapChildren (· ++ []) = id := by
    funext n
    cases n <;> simp [Node.mapChildren]
  rw [nodesOver, hsame]
  rcases List.eq_nil_or_concat l.items with hnil | ⟨init, a, hitems⟩
  · rw [hnil]
    rfl
  · rw [hitems, List.concat_eq_append, List.modifyLast_concat, id]

theorem nodesOver_ne_nil
    (below : List Node)
    (l : Line Node) :
    l.nodesOver below ≠ [] :=
  modifyLast_ne_nil (by simp [items])

/-- What is put below a line goes into the block below it. -/
theorem modifyLast_nodesOver
    (f : List Node → List Node)
    (below : List Node)
    (l : Line Node)
    (hf : ∀ children, f (children ++ below) = children ++ f below) :
    (l.nodesOver below).modifyLast (Node.mapChildren f) = l.nodesOver (f below) := by
  rw [nodesOver, modifyLast_modifyLast, nodesOver]
  congr 1
  funext n
  rw [Function.comp_apply, Node.mapChildren_mapChildren]
  congr 1
  funext children
  exact hf children

/-- Whether a line of some width behind `later` stands below the owner, directly or not, by way of
`later` and not of `between`. -/
def Reaches
    (owner : Option Nat)
    (between later : List (Line α))
    (width : Nat) : Prop :=
  (∀ w ∈ owner, w < width ∧ ∀ m ∈ later, w < m.width) ∧
    ((∀ m ∈ between, width ≤ m.width) ∨
      ∃ k ∈ later, ∀ m ∈ between, k.width ≤ m.width)

/-- Whether the line `m` with `later` lines behind it may still be continued by a line of some
width. -/
def Leads
    (m : Line α)
    (later : List (Line α))
    (width : Nat) : Prop :=
  m.width < width ∧ ∀ k ∈ later, m.width < k.width

theorem reaches_nil_iff
    (owner : Option Nat)
    (between : List (Line α))
    (l : Line α) :
    Reaches owner between [] l.width ↔ IsBelow owner between l := by
  simp [Reaches, IsBelow]

theorem reaches_of_leads_iff
    (m : Line α)
    (later : List (Line α))
    (width : Nat) :
    Reaches (some m.width) [] later width ↔ Leads m later width := by
  simp [Reaches, Leads]

/-- A line that leads on is passed on the way to the owner, so it has to be below it. -/
theorem reaches_cons_iff_of_leads
    {owner : Option Nat}
    {between later : List (Line α)}
    {m : Line α}
    {width : Nat}
    (hlead : Leads m later width) :
    Reaches owner between (m :: later) width ↔ IsBelow owner between m := by
  obtain ⟨hwidth, hlater⟩ := hlead
  constructor
  · rintro ⟨howner, hbetween⟩
    refine ⟨fun w hw => (howner w hw).2 m (by simp), fun k hk => ?_⟩
    rcases hbetween with hdirect | ⟨j, hj, hjs⟩
    · exact le_of_lt (lt_of_lt_of_le hwidth (hdirect k hk))
    · rcases List.mem_cons.1 hj with rfl | hj
      · exact hjs k hk
      · exact le_of_lt (lt_of_lt_of_le (hlater j hj) (hjs k hk))
  · rintro ⟨howner, hbetween⟩
    refine ⟨fun w hw => ⟨lt_trans (howner w hw) hwidth, fun k hk => ?_⟩,
      Or.inr ⟨m, by simp, hbetween⟩⟩
    rcases List.mem_cons.1 hk with rfl | hk
    · exact howner w hw
    · exact lt_trans (howner w hw) (hlater k hk)

/-- A line that does not lead on is as good as a line in between. -/
theorem reaches_cons_iff_of_not_leads
    {owner : Option Nat}
    {between later : List (Line α)}
    {m : Line α}
    {width : Nat}
    (hlead : ¬ Leads m later width) :
    Reaches owner between (m :: later) width ↔ Reaches owner (between ++ [m]) later width := by
  have hnarrow : width ≤ m.width ∨ ∃ k ∈ later, k.width ≤ m.width := by
    by_contra hnone
    push Not at hnone
    exact hlead hnone
  constructor
  · rintro ⟨howner, hbetween⟩
    refine ⟨fun w hw => ⟨(howner w hw).1, fun k hk => (howner w hw).2 k (by simp [hk])⟩, ?_⟩
    -- the narrowest line behind `m` is not wider than `m`
    have hstep : ∀ bound, (∀ k ∈ between, bound ≤ k.width) → bound ≤ m.width →
        ∀ k ∈ between ++ [m], bound ≤ k.width := by
      intro bound hall hm k hk
      rcases List.mem_append.1 hk with hk | hk
      · exact hall k hk
      · rw [List.mem_singleton.1 hk]
        exact hm
    have hm : (∀ k ∈ between, m.width ≤ k.width) →
        (∀ k ∈ between ++ [m], width ≤ k.width) ∨
          ∃ j ∈ later, ∀ k ∈ between ++ [m], j.width ≤ k.width := by
      intro hall
      rcases hnarrow with hwidth | ⟨j, hj, hjm⟩
      · exact Or.inl (hstep width (fun k hk => le_trans hwidth (hall k hk)) hwidth)
      · exact Or.inr ⟨j, hj, hstep j.width (fun k hk => le_trans hjm (hall k hk)) hjm⟩
    rcases hbetween with hdirect | ⟨j, hj, hjs⟩
    · by_cases hwm : width ≤ m.width
      · exact Or.inl (hstep width hdirect hwm)
      · exact hm fun k hk => le_trans (le_of_not_ge hwm) (hdirect k hk)
    · rcases List.mem_cons.1 hj with rfl | hj
      · exact hm hjs
      · by_cases hjm : j.width ≤ m.width
        · exact Or.inr ⟨j, hj, hstep j.width hjs hjm⟩
        · exact hm fun k hk => le_trans (le_of_not_ge hjm) (hjs k hk)
  · rintro ⟨howner, hbetween⟩
    refine ⟨fun w hw => ⟨(howner w hw).1, fun k hk => ?_⟩, ?_⟩
    · rcases List.mem_cons.1 hk with rfl | hk
      · rcases hnarrow with hwidth | ⟨j, hj, hjm⟩
        · exact lt_of_lt_of_le (howner w hw).1 hwidth
        · exact lt_of_lt_of_le ((howner w hw).2 j hj) hjm
      · exact (howner w hw).2 k hk
    · rcases hbetween with hdirect | ⟨j, hj, hjs⟩
      · exact Or.inl fun k hk => hdirect k (by simp [hk])
      · exact Or.inr ⟨j, by simp [hj], fun k hk => hjs k (by simp [hk])⟩

theorem level_cons_of_leads
    {m : Line α}
    {later : List (Line α)}
    {width : Nat}
    (hlead : Leads m later width) :
    level width (m :: later) = level width later + 1 := by
  have hcond : m.width < width ∧ ∀ k ∈ later, m.width < k.width := hlead
  rw [level, if_pos hcond, Nat.add_comm]

theorem level_cons_of_not_leads
    {m : Line α}
    {later : List (Line α)}
    {width : Nat}
    (hlead : ¬ Leads m later width) :
    level width (m :: later) = level width later := by
  have hcond : ¬ (m.width < width ∧ ∀ k ∈ later, m.width < k.width) := hlead
  rw [level, if_neg hcond, Nat.zero_add]

/-- Nothing stands directly below the owner behind a line that is narrower than all that follow. -/
theorem block_eq_nil_of_wider
    (owner : Option Nat)
    {between later : List (Line Node)}
    {m : Line Node}
    (hm : m ∈ between)
    (hlater : ∀ k ∈ later, m.width < k.width) :
    block owner between later = [] := by
  induction later generalizing between with
  | nil =>
      rfl
  | cons k later ih =>
      have hk : ¬ IsBelow owner between k := by
        intro hbelow
        exact absurd (hbelow.2 m hm) (not_le.2 (hlater k (by simp)))
      rw [block, if_neg hk, List.nil_append]
      exact ih (by simp [hm]) fun j hj => hlater j (by simp [hj])

/-- If a line stands below the owner and not directly, then the block has a node to put it under. -/
theorem block_ne_nil
    {owner : Option Nat}
    {between later : List (Line Node)}
    {width : Nat}
    (hreach : Reaches owner between later width)
    (hlevel : level width later ≠ 0) :
    block owner between later ≠ [] := by
  induction later generalizing between with
  | nil =>
      exact absurd rfl hlevel
  | cons m later ih =>
      by_cases hbelow : IsBelow owner between m
      · rw [block, if_pos hbelow]
        exact List.append_ne_nil_of_left_ne_nil (nodesOver_ne_nil _ _) _
      · by_cases hlead : Leads m later width
        · exact absurd ((reaches_cons_iff_of_leads hlead).1 hreach) hbelow
        · rw [level_cons_of_not_leads hlead] at hlevel
          rw [block, if_neg hbelow, List.nil_append]
          exact ih ((reaches_cons_iff_of_not_leads hlead).1 hreach) hlevel

/-- How a block grows by one line: a line that stands below the owner is put as deep as there are
lines that lead to it, and any other line changes nothing. -/
theorem block_append
    (owner : Option Nat)
    (between later : List (Line Node))
    (l : Line Node) :
    (Reaches owner between later l.width →
      block owner between (later ++ [l]) =
        Node.appendAt (level l.width later) l.items (block owner between later)) ∧
    (¬ Reaches owner between later l.width →
      block owner between (later ++ [l]) = block owner between later) := by
  induction later generalizing owner between with
  | nil =>
      rw [reaches_nil_iff]
      constructor
      · intro hbelow
        simp [block, hbelow, nodesOver_nil, level, Node.appendAt]
      · intro hbelow
        simp [block, hbelow]
  | cons m later ih =>
      obtain ⟨hinside, houtside⟩ := ih (some m.width) []
      obtain ⟨hbehind, hnotBehind⟩ := ih owner (between ++ [m])
      rw [reaches_of_leads_iff] at hinside houtside
      rw [List.cons_append, block, block]
      by_cases hlead : Leads m later l.width
      · -- the new line goes below `m`, and nothing comes behind `m`
        have hnil : block owner (between ++ [m]) later = [] :=
          block_eq_nil_of_wider owner (by simp) hlead.2
        have hnot : ¬ Reaches owner (between ++ [m]) later l.width := by
          rintro ⟨-, hdirect | ⟨k, hk, hks⟩⟩
          · exact absurd (hdirect m (by simp)) (not_le.2 hlead.1)
          · exact absurd (hks m (by simp)) (not_le.2 (hlead.2 k hk))
        rw [reaches_cons_iff_of_leads hlead, hnotBehind hnot, hnil, hinside hlead,
          level_cons_of_leads hlead]
        constructor
        · intro hbelow
          rw [if_pos hbelow, if_pos hbelow, List.append_nil, List.append_nil, Node.appendAt,
            modifyLast_nodesOver]
          intro children
          apply Node.appendAt_append_right
          by_cases hlevel : level l.width later = 0
          · exact Or.inl hlevel
          · exact Or.inr (block_ne_nil ((reaches_of_leads_iff _ _ _).2 hlead) hlevel)
        · intro hbelow
          rw [if_neg hbelow, if_neg hbelow]
      · rw [reaches_cons_iff_of_not_leads hlead, houtside hlead, level_cons_of_not_leads hlead]
        constructor
        · intro hreach
          rw [hbehind hreach, Node.appendAt_append_right]
          by_cases hlevel : level l.width later = 0
          · exact Or.inl hlevel
          · exact Or.inr (block_ne_nil hreach hlevel)
        · intro hreach
          rw [hnotBehind hreach]

/-- The level of an item that continues the last of some lines, or comes before the first. -/
def lastLevel (lines : List (Line α)) : Nat :=
  match lines.getLast? with
  | none => 0
  | some l => level l.width lines

/-- The item that opens a line starts a new one behind the others. -/
theorem split_append_some
    (items : List (Option Nat × α))
    (width : Nat)
    (a : α) :
    split (items ++ [(some width, a)]) =
      ((split items).1, (split items).2 ++ [⟨width, a, []⟩]) := by
  induction items with
  | nil =>
      rfl
  | cons item rest ih =>
      obtain ⟨marker, b⟩ := item
      cases marker <;> simp [split, ih]

/-- Puts an item at the end of a line. -/
def push
    (a : α)
    (l : Line α) : Line α :=
  { l with more := l.more ++ [a] }

/-- An item without a marker goes to the end of the last line, if there is one. -/
theorem split_append_none
    (items : List (Option Nat × α))
    (a : α) :
    split (items ++ [(none, a)]) =
      if (split items).2 = [] then ((split items).1 ++ [a], [])
      else ((split items).1, (split items).2.modifyLast (push a)) := by
  induction items with
  | nil =>
      rfl
  | cons item rest ih =>
      obtain ⟨marker, b⟩ := item
      cases marker with
      | none =>
          simp only [List.cons_append, split, ih]
          by_cases hnil : (split rest).2 = [] <;> simp [hnil]
      | some width =>
          simp only [List.cons_append, split, ih]
          by_cases hnil : (split rest).2 = []
          · simp [hnil, List.modifyLast, List.modifyLast.go, push]
          · have hgrow :=
              List.modifyLast_append_of_right_ne_nil (push a)
                [⟨width, b, (split rest).1⟩] (split rest).2 hnil
            simp only [List.singleton_append] at hgrow
            simp [hnil, hgrow]

/-- The level of a width with one more line: that of the lesser width, and one more if the line is
narrower. -/
theorem level_append
    (width : Nat)
    (lines : List (Line α))
    (l : Line α) :
    level width (lines ++ [l]) =
      level (min width l.width) lines + if l.width < width then 1 else 0 := by
  induction lines with
  | nil =>
      simp [level]
  | cons m later ih =>
      rw [List.cons_append, level, ih, level, Nat.add_assoc]
      congr 1
      have hiff : (m.width < width ∧ ∀ k ∈ later ++ [l], m.width < k.width) ↔
          (m.width < min width l.width ∧ ∀ k ∈ later, m.width < k.width) := by
        constructor
        · rintro ⟨hwidth, hall⟩
          exact ⟨lt_min hwidth (hall l (by simp)), fun k hk => hall k (by simp [hk])⟩
        · rintro ⟨hwidth, hall⟩
          refine ⟨lt_of_lt_of_le hwidth (min_le_left _ _), fun k hk => ?_⟩
          rcases List.mem_append.1 hk with hk | hk
          · exact hall k hk
          · rw [List.mem_singleton.1 hk]
            exact lt_of_lt_of_le hwidth (min_le_right _ _)
      simp only [hiff]

theorem lastLevel_append
    (lines : List (Line α))
    (l : Line α) :
    lastLevel (lines ++ [l]) = level l.width lines := by
  simp [lastLevel, level_append]

theorem reaches_root
    (later : List (Line α))
    (width : Nat) :
    Reaches none [] later width := by
  simp [Reaches]

/-- The list itself takes every line that is put behind the others. -/
theorem root_append
    (before : List Node)
    (lines : List (Line Node))
    (l : Line Node) :
    before ++ block none [] (lines ++ [l]) =
      Node.appendAt (level l.width lines) l.items (before ++ block none [] lines) := by
  rw [(block_append none [] lines l).1 (reaches_root lines l.width), Node.appendAt_append_right]
  by_cases hlevel : level l.width lines = 0
  · exact Or.inl hlevel
  · exact Or.inr (block_ne_nil (reaches_root lines l.width) hlevel)

/-- A node that opens a line goes as deep as there are lines that lead to it. -/
theorem arrange_append_some
    (marked : List (Option Nat × Node))
    (width : Nat)
    (n : Node) :
    arrange (marked ++ [(some width, n)]) =
      Node.appendAt (level width (split marked).2) [n] (arrange marked) := by
  rw [arrange, split_append_some, root_append]
  rfl

/-- A node that continues a line goes behind the node before it. -/
theorem arrange_append_none
    (marked : List (Option Nat × Node))
    (n : Node) :
    arrange (marked ++ [(none, n)]) =
      Node.appendAt (lastLevel (split marked).2) [n] (arrange marked) := by
  rw [arrange, split_append_none, arrange]
  rcases List.eq_nil_or_concat (split marked).2 with hnil | ⟨lines, l, hlines⟩
  · simp [hnil, block, lastLevel, Node.appendAt]
  · rw [hlines, List.concat_eq_append]
    simp only [List.append_eq_nil_iff, List.cons_ne_self, and_false, if_false,
      List.modifyLast_concat]
    have hitems : (push n l).items = l.items ++ [n] := rfl
    have hwidth : (push n l).width = l.width := rfl
    rw [root_append, root_append, hitems, hwidth, Node.appendAt_append, lastLevel_append]

/-- A line closes all blocks that it does not stand in. -/
theorem openWidths_append
    (lines : List (Line α))
    (l : Line α) :
    openWidths (lines ++ [l]) = l.width :: (openWidths lines).filter (· < l.width) := by
  induction lines with
  | nil =>
      simp [openWidths]
  | cons m later ih =>
      rw [List.cons_append, openWidths, ih, openWidths, List.filter_append, List.cons_append]
      congr 2
      by_cases hlater : ∀ k ∈ later, m.width < k.width
      · by_cases hl : m.width < l.width
        · have hall : ∀ k ∈ later ++ [l], m.width < k.width := by
            intro k hk
            rcases List.mem_append.1 hk with hk | hk
            · exact hlater k hk
            · rw [List.mem_singleton.1 hk]
              exact hl
          rw [if_pos hall, if_pos hlater]
          simp [hl]
        · have hnot : ¬ ∀ k ∈ later ++ [l], m.width < k.width :=
            fun hall => hl (hall l (by simp))
          rw [if_neg hnot, if_pos hlater]
          simp [hl]
      · have hnot : ¬ ∀ k ∈ later ++ [l], m.width < k.width :=
          fun hall => hlater fun k hk => hall k (by simp [hk])
        rw [if_neg hnot, if_neg hlater]
        rfl

/-- The level of a width is how many open blocks are narrower. -/
theorem level_eq_length_filter
    (width : Nat)
    (lines : List (Line α)) :
    level width lines = ((openWidths lines).filter (· < width)).length := by
  induction lines with
  | nil =>
      rfl
  | cons m later ih =>
      rw [level, openWidths, List.filter_append, List.length_append, ← ih, Nat.add_comm]
      congr 1
      by_cases hlater : ∀ k ∈ later, m.width < k.width
      · by_cases hwidth : m.width < width
        · rw [if_pos ⟨hwidth, hlater⟩, if_pos hlater]
          simp [hwidth]
        · rw [if_neg fun h => hwidth h.1, if_pos hlater]
          simp [hwidth]
      · rw [if_neg fun h => hlater h.2, if_neg hlater]
        rfl

/-- The widths that may be continued get smaller from the last line on. -/
theorem openWidths_pairwise
    (lines : List (Line α)) :
    (openWidths lines).Pairwise (· > ·) := by
  induction lines using List.reverseRecOn with
  | nil =>
      exact List.Pairwise.nil
  | append_singleton lines l ih =>
      rw [openWidths_append, List.pairwise_cons]
      refine ⟨fun width hwidth => ?_, ih.filter _⟩
      simpa using (List.mem_filter.1 hwidth).2

/-- The line that a width belongs under is the innermost that is not wider. -/
theorem map_width_latestWithin
    (width : Nat)
    (lines : List (Line α)) :
    (latestWithin width lines).map (·.width) = (openWidths lines).find? (· ≤ width) := by
  induction lines using List.reverseRecOn with
  | nil =>
      rfl
  | append_singleton lines l ih =>
      rw [latestWithin] at ih ⊢
      rw [openWidths_append, List.reverse_append, List.reverse_singleton, List.singleton_append,
        List.find?_cons, List.find?_cons]
      by_cases hl : l.width ≤ width
      · simp [hl]
      · simp only [hl, decide_false]
        rw [ih, List.find?_filter]
        congr 1
        funext w
        have hlt : w ≤ width → w < l.width := fun hw => by omega
        by_cases hw : w ≤ width
        · simp [hw, hlt hw]
        · simp [hw]

/-- Changes the items of a line and keeps its width. -/
def map
    {β : Type}
    (f : α → β)
    (l : Line α) : Line β :=
  ⟨l.width, f l.first, l.more.map f⟩

theorem split_map
    {β : Type}
    (f : α → β)
    (items : List (Option Nat × α)) :
    split (items.map fun item => (item.1, f item.2)) =
      ((split items).1.map f, (split items).2.map (map f)) := by
  induction items with
  | nil =>
      rfl
  | cons item rest ih =>
      obtain ⟨marker, a⟩ := item
      cases marker <;> simp [split, ih, map]

@[simp] theorem level_map
    {β : Type}
    (f : α → β)
    (width : Nat)
    (lines : List (Line α)) :
    level width (lines.map (map f)) = level width lines := by
  induction lines with
  | nil =>
      rfl
  | cons m later ih =>
      simp [level, ih, map]

@[simp] theorem lastLevel_map
    {β : Type}
    (f : α → β)
    (lines : List (Line α)) :
    lastLevel (lines.map (map f)) = lastLevel lines := by
  rcases List.eq_nil_or_concat lines with rfl | ⟨init, l, rfl⟩
  · rfl
  · simp only [List.concat_eq_append, List.map_append, List.map_cons, List.map_nil,
      lastLevel_append, level_map]
    rfl

/-- The last item of the last line is the last item of all. -/
theorem last_of_getLast?_split
    {items : List (Option Nat × α)}
    {l : Line α}
    (hl : (split items).2.getLast? = some l) :
    items.getLast?.map Prod.snd = some l.last := by
  induction items using List.reverseRecOn generalizing l with
  | nil =>
      simp [split] at hl
  | append_singleton items item ih =>
      obtain ⟨marker, a⟩ := item
      cases marker with
      | some width =>
          rw [split_append_some] at hl
          simp only [List.getLast?_concat, Option.some.injEq] at hl
          simp [← hl, last]
      | none =>
          rw [split_append_none] at hl
          by_cases hnil : (split items).2 = []
          · simp [hnil] at hl
          · obtain ⟨init, k, hk⟩ := (List.eq_nil_or_concat _).resolve_left hnil
            simp only [hk, List.concat_eq_append, List.append_eq_nil_iff, List.cons_ne_self,
              and_false, if_false, List.modifyLast_concat, List.getLast?_concat,
              Option.some.injEq] at hl
            simp [← hl, last, push]

/-- Continuing the last line changes no width. -/
theorem map_width_modifyLast_push
    (a : α)
    (lines : List (Line α)) :
    (lines.modifyLast (push a)).map (·.width) = lines.map (·.width) := by
  rcases List.eq_nil_or_concat lines with rfl | ⟨init, l, rfl⟩
  · rfl
  · simp only [List.concat_eq_append, List.modifyLast_concat, List.map_append, List.map_cons,
      List.map_nil]
    rfl

theorem openWidths_modifyLast_push
    (a : α)
    (lines : List (Line α)) :
    openWidths (lines.modifyLast (push a)) = openWidths lines := by
  rcases List.eq_nil_or_concat lines with rfl | ⟨init, l, rfl⟩
  · rfl
  · simp only [List.concat_eq_append, List.modifyLast_concat, openWidths_append]
    rfl

/-- An item that opens a line parts what stands before it from what stands behind it. -/
theorem split_append_cons
    (items rest : List (Option Nat × α))
    (width : Nat)
    (a : α) :
    split (items ++ (some width, a) :: rest) =
      ((split items).1, (split items).2 ++ ⟨width, a, (split rest).1⟩ :: (split rest).2) := by
  induction items with
  | nil =>
      rfl
  | cons item items ih =>
      obtain ⟨marker, b⟩ := item
      cases marker <;> simp [split, ih]

/-- Every line is opened by an item, and the lines before it are those of the items before that. -/
theorem exists_of_split_eq
    {items : List (Option Nat × α)}
    {before after : List (Line α)}
    {l : Line α}
    (hlines : (split items).2 = before ++ l :: after) :
    ∃ init a rest, items = init ++ (some l.width, a) :: rest ∧ (split init).2 = before := by
  induction items generalizing before with
  | nil =>
      simp [split] at hlines
  | cons item items ih =>
      obtain ⟨marker, b⟩ := item
      cases marker with
      | none =>
          obtain ⟨init, a, rest, rfl, hinit⟩ := ih hlines
          exact ⟨(none, b) :: init, a, rest, rfl, hinit⟩
      | some width =>
          cases before with
          | nil =>
              simp only [split, List.nil_append, List.cons.injEq] at hlines
              refine ⟨[], b, items, ?_, rfl⟩
              rw [← hlines.1]
              rfl
          | cons first before =>
              simp only [split, List.cons_append, List.cons.injEq] at hlines
              obtain ⟨init, a, rest, rfl, hinit⟩ := ih hlines.2
              refine ⟨(some width, b) :: init, a, rest, rfl, ?_⟩
              rw [split_append_cons] at hlines
              rw [split, hinit, ← hlines.1]

end Line

end BlockMarkup
