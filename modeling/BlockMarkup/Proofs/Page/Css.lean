import BlockMarkup.Proofs.Text.Blank

/-!
# Reading stylesheets

A reader of stylesheets that knows nothing about how they are written. It cuts the text at braces
and semicolons, and a declaration at its first colon. White space around the head of a block and
around a property does not count, nor does one space behind the colon.

What a piece of text is read as does not depend on what stands around it, so a text can be put
together from pieces of which each spells its items.
-/

namespace BlockMarkup

namespace Css

/-! ## Reading a stylesheet -/

inductive Item where
  | declaration (property value : String)
  | block (head : String) (items : List Item)

/-- The state of reading: for each open block, innermost first, its head and the items before it;
the items of the innermost block; and the characters since the last cut. -/
structure Reader where
  outer : List (String × List Item)
  items : List Item
  pending : List Char

/-- Drops the space behind a colon. -/
def dropSpace : List Char → List Char
  | ' ' :: cs => cs
  | cs => cs

def declaration? (cs : List Char) : Option Item :=
  (Text.splitFirst ':' cs).map fun (property, value) =>
    .declaration (String.ofList (Text.dropBlank property)) (String.ofList (dropSpace value))

namespace Reader

/-- An opening brace ends the head of a block, a closing brace ends a block, and a semicolon ends a
declaration. -/
def step (r : Reader) (c : Char) : Option Reader :=
  if c = '{' then some ⟨(String.ofList (Text.dropBlank r.pending), r.items) :: r.outer, [], []⟩
  else if c = '}' then
    match r.outer with
    | [] => none
    | (head, before) :: outer =>
      if r.pending.all Text.isBlank then some ⟨outer, before ++ [.block head r.items], []⟩ else none
  else if c = ';' then
    (declaration? r.pending).map fun item => { r with items := r.items ++ [item], pending := [] }
  else some { r with pending := r.pending ++ [c] }

def run (r : Reader) (cs : List Char) : Option Reader := cs.foldlM step r

/-- The items, if no block is open and nothing was left over. -/
def finish (r : Reader) : Option (List Item) :=
  if r.outer.isEmpty && r.pending.all Text.isBlank then some r.items else none

end Reader

def read (cs : List Char) : Option (List Item) := (Reader.run ⟨[], [], []⟩ cs).bind Reader.finish

/-! ## What texts spell -/

/-- The characters at which a stylesheet is not cut. -/
def isPlain (c : Char) : Bool := c ≠ '{' && c ≠ '}' && c ≠ ';'

/-- A class without braces and semicolon has only plain characters. -/
theorem isPlain_of_apply
    {p : Char → Bool}
    (hopen : p '{' = false)
    (hclose : p '}' = false)
    (hend : p ';' = false)
    {c : Char}
    (hc : p c = true) :
    isPlain c = true := by
  simp only [isPlain, Bool.and_eq_true, decide_eq_true_eq]
  refine ⟨⟨?_, ?_⟩, ?_⟩
  · rintro rfl
    simp [hopen] at hc
  · rintro rfl
    simp [hclose] at hc
  · rintro rfl
    simp [hend] at hc

theorem isPlain_of_isBlank
    {c : Char}
    (hc : Text.isBlank c = true) :
    isPlain c = true :=
  isPlain_of_apply (by decide) (by decide) (by decide) hc

namespace Reader

variable (r : Reader)

theorem run_cons
    (c : Char)
    (cs : List Char) :
    r.run (c :: cs) = (r.step c).bind fun s => s.run cs :=
  List.foldlM_cons

theorem run_append
    (cs ds : List Char) :
    r.run (cs ++ ds) = (r.run cs).bind fun s => s.run ds :=
  List.foldlM_append

/-- Characters that mean nothing wait for one that does. -/
theorem run_plain
    {cs : List Char}
    (hcs : ∀ c ∈ cs, isPlain c = true) :
    r.run cs = some { r with pending := r.pending ++ cs } := by
  induction cs generalizing r with
  | nil =>
      simp [run]
  | cons c cs ih =>
      rw [List.forall_mem_cons] at hcs
      have hc := hcs.1
      simp only [isPlain, Bool.and_eq_true, decide_eq_true_eq] at hc
      have hstep : r.step c = some { r with pending := r.pending ++ [c] } := by
        simp [step, hc]
      rw [run_cons, hstep, Option.bind_some, ih _ hcs.2]
      simp

end Reader

/-- Whether `cs` is read as `items`, wherever it stands, if only white space stands directly before
it. -/
def Spells
    (cs : List Char)
    (items : List Item) : Prop :=
  ∀ r : Reader, (∀ c ∈ r.pending, Text.isBlank c = true) →
    ∃ blanks, (∀ c ∈ blanks, Text.isBlank c = true) ∧
      r.run cs = some { r with items := r.items ++ items, pending := blanks }

theorem spells_blank
    {cs : List Char}
    (hblank : cs.all Text.isBlank = true) :
    Spells cs [] := by
  have hcs := List.all_eq_true.1 hblank
  intro r hr
  refine ⟨r.pending ++ cs, List.forall_mem_append.2 ⟨hr, hcs⟩, ?_⟩
  rw [r.run_plain fun c hc => isPlain_of_isBlank (hcs c hc), List.append_nil]

theorem Spells.append
    {cs ds : List Char}
    {items more : List Item}
    (hcs : Spells cs items)
    (hds : Spells ds more) :
    Spells (cs ++ ds) (items ++ more) := by
  intro r hr
  obtain ⟨blanks, hblanks, hrun⟩ := hcs r hr
  obtain ⟨blanks', hblanks', hrun'⟩ :=
    hds { r with items := r.items ++ items, pending := blanks } hblanks
  refine ⟨blanks', hblanks', ?_⟩
  rw [Reader.run_append, hrun, Option.bind_some, hrun', List.append_assoc]

/-- A property and a value with a colon between them spell a declaration. -/
theorem spells_declaration
    {property value : String}
    (hplain : ∀ c ∈ property.toList, isPlain c = true)
    (hcolon : ':' ∉ property.toList)
    (htrim : Text.dropBlank property.toList = property.toList)
    (hvalue : ∀ c ∈ value.toList, isPlain c = true) :
    Spells (property.toList ++ ':' :: ' ' :: (value.toList ++ [';']))
      [.declaration property value] := by
  intro r hr
  have hwhole : ∀ c ∈ property.toList ++ ':' :: ' ' :: value.toList, isPlain c = true := by
    rw [List.forall_mem_append, List.forall_mem_cons, List.forall_mem_cons]
    exact ⟨hplain, by decide, by decide, hvalue⟩
  have hfirst : ':' ∉ r.pending ++ property.toList := by
    rw [List.mem_append, not_or]
    exact ⟨fun h => absurd (hr ':' h) (by decide), hcolon⟩
  have hproperty : Text.dropBlank (r.pending ++ property.toList) = property.toList := by
    have hpadded := Text.dropBlank_padded hr (List.forall_mem_nil _) property.toList
    rwa [List.append_nil, htrim] at hpadded
  have hread : declaration? (r.pending ++ (property.toList ++ ':' :: ' ' :: value.toList)) =
      some (.declaration property value) := by
    rw [declaration?, ← List.append_assoc, Text.splitFirst_append hfirst]
    simp [hproperty, dropSpace]
  have htext : property.toList ++ ':' :: ' ' :: (value.toList ++ [';']) =
      (property.toList ++ ':' :: ' ' :: value.toList) ++ [';'] := by
    simp
  refine ⟨[], List.forall_mem_nil _, ?_⟩
  rw [htext, Reader.run_append, r.run_plain hwhole, Option.bind_some, Reader.run_cons, Reader.step]
  simp [hread, Reader.run]

/-- A head and items between braces spell a block. -/
theorem spells_block
    {head : String}
    {cs : List Char}
    {items : List Item}
    (hplain : ∀ c ∈ head.toList, isPlain c = true)
    (htrim : Text.dropBlank head.toList = head.toList)
    (hcs : Spells cs items) :
    Spells (head.toList ++ ' ' :: '{' :: (cs ++ ['}'])) [.block head items] := by
  intro r hr
  have hhead : ∀ c ∈ head.toList ++ [' '], isPlain c = true := by
    rw [List.forall_mem_append]
    exact ⟨hplain, List.all_eq_true.1 (by decide)⟩
  have hread : String.ofList (Text.dropBlank (r.pending ++ (head.toList ++ [' ']))) = head := by
    rw [Text.dropBlank_padded hr (List.all_eq_true.1 (by decide)), htrim, String.ofList_toList]
  have htext : head.toList ++ ' ' :: '{' :: (cs ++ ['}']) =
      (head.toList ++ [' ']) ++ '{' :: (cs ++ ['}']) := by
    simp
  obtain ⟨blanks, hblanks, hinside⟩ :=
    hcs ⟨(head, r.items) :: r.outer, [], []⟩ (List.forall_mem_nil _)
  have hblank : blanks.all Text.isBlank = true := List.all_eq_true.2 hblanks
  refine ⟨[], List.forall_mem_nil _, ?_⟩
  rw [htext, Reader.run_append, r.run_plain hhead, Option.bind_some, Reader.run_cons, Reader.step,
    if_pos rfl, hread, Option.bind_some, Reader.run_append, hinside, Option.bind_some,
    Reader.run_cons, Reader.step]
  simp [hblank, Reader.run]

/-- Texts that spell an item each spell their items together. -/
theorem spells_flatMap
    {α : Type}
    {xs : List α}
    {text : α → List Char}
    {item : α → Item}
    (h : ∀ x ∈ xs, Spells (text x) [item x]) :
    Spells (xs.flatMap text) (xs.map item) := by
  induction xs with
  | nil =>
      exact spells_blank rfl
  | cons x xs ih =>
      rw [List.forall_mem_cons] at h
      exact h.1.append (ih h.2)

/-- Texts that each spell one item spell their items if blanks are put between them. -/
theorem spells_join
    {pieces : List (String × Item)}
    (hpieces : ∀ piece ∈ pieces, Spells piece.1.toList [piece.2]) :
    Spells (Text.join "\n\n" (pieces.map Prod.fst)).toList (pieces.map Prod.snd) := by
  induction pieces with
  | nil =>
      exact spells_blank rfl
  | cons piece pieces ih =>
      rw [List.forall_mem_cons] at hpieces
      cases pieces with
      | nil =>
          exact hpieces.1
      | cons next pieces =>
          have hgap : Spells "\n\n".toList [] := spells_blank (by decide)
          simpa [Text.join] using (hpieces.1.append hgap).append (ih hpieces.2)

/-- A stylesheet is read as the items that it spells. -/
theorem read_of_spells
    {cs : List Char}
    {items : List Item}
    (h : Spells cs items) :
    read cs = some items := by
  obtain ⟨blanks, hblanks, hrun⟩ := h ⟨[], [], []⟩ (List.forall_mem_nil _)
  have hblank : blanks.all Text.isBlank = true := List.all_eq_true.2 hblanks
  rw [read, hrun]
  simp [Reader.finish, hblank]

end Css

end BlockMarkup
