import BlockMarkup.Bundle
import BlockMarkup.Proofs.Node.Writing

/-!
# Reading what was written

The scanner and the reader are followed line by line over a written source. All that is said about
the reader holds up to positions: a reader that agrees with the expected one up to positions makes
a document that agrees with the expected one up to positions.

The main result is that a forest can be written with margins or with braces and is read back from
both sources.
-/

namespace BlockMarkup

open Relabelling (unplaced)

namespace Reader

/-- Forgets all positions that a reader has stored. -/
def forget (r : Reader) : Reader where
  blocks := r.blocks.map fun block =>
    ⟨unplaced.header block.header, Position.start, block.before.map (Node.relabel unplaced)⟩
  nodes := r.nodes.map (Node.relabel unplaced)
  width := r.width
  fresh := r.fresh

/-- Whether every reader that agrees with `r` up to positions makes of `tokens` a document that
agrees with `document` up to positions. -/
def Completes
    (r : Reader)
    (tokens : List Token)
    (document : Document) : Prop :=
  ∀ (last : Position) (s : Reader), s.forget = r.forget →
    ∃ result, s.run last tokens = .ok result ∧
      result.map (Node.relabel unplaced) = document.map (Node.relabel unplaced)

theorem forget_add
    (r : Reader)
    (n : Node) :
    (r.add n).forget = r.forget.add (n.relabel unplaced) := rfl

theorem forget_enter
    (r : Reader)
    (header : Header)
    (brace : Position) :
    (r.enter header brace).forget = r.forget.enter (unplaced.header header) Position.start := rfl

theorem marker_forget
    (r : Reader) :
    r.forget.marker = r.marker := rfl

section Header

variable {last : Position} {rest : List Token}

/-- Classes are read one after another. -/
theorem decorations_classes
    (header : Header)
    {names : List String}
    {tokens : List Token}
    (htokens : tokens.map Token.bare =
      (names.map fun name => (⟨'.', name⟩ : Token.Decoration)).flatMap Token.Decoration.tokens) :
    decorations last header (tokens ++ rest) =
      decorations last { header with classes := header.classes ++ names } rest := by
  induction names generalizing header tokens with
  | nil =>
      have hnil : tokens = [] := by simpa using htokens
      simp [hnil]
  | cons name names ih =>
      simp only [List.map_cons, List.flatMap_cons, Token.Decoration.tokens, List.cons_append,
        List.nil_append, List.map_eq_cons_iff] at htokens
      obtain ⟨mark, more, rfl, hmark, t, more, rfl, ht, hmore⟩ := htokens
      simp only [Token.bare, Prod.mk.injEq, if_true] at hmark ht
      rw [List.cons_append, List.cons_append, decorations, if_pos hmark.1, if_pos ht.1, ih _ hmore,
        ht.2]
      simp

theorem decorations_id
    {header : Header}
    (hid : header.id = none)
    {id : Option String}
    {tokens : List Token}
    (htokens : tokens.map Token.bare =
      (id.toList.map fun name => (⟨'#', name⟩ : Token.Decoration)).flatMap
        Token.Decoration.tokens) :
    decorations last header (tokens ++ rest) = decorations last { header with id := id } rest := by
  cases id with
  | none =>
      have hnil : tokens = [] := by simpa using htokens
      simp [hnil, ← hid]
  | some name =>
      simp only [Option.toList_some, List.map_cons, List.map_nil, List.flatMap_cons,
        List.flatMap_nil, Token.Decoration.tokens, List.append_nil, List.map_eq_cons_iff,
        List.map_eq_nil_iff] at htokens
      obtain ⟨mark, more, rfl, hmark, t, more, rfl, ht, rfl⟩ := htokens
      simp only [Token.bare, Prod.mk.injEq] at hmark ht
      have hkind : mark.kind = .hash := hmark.1
      simp [decorations, hkind, ht.1, ht.2, hid]

theorem decorations_stop
    (header : Header)
    (hdot : kindAhead rest ≠ .dot)
    (hhash : kindAhead rest ≠ .hash) :
    decorations last header rest = .ok (header, rest) := by
  match rest with
  | [] => rfl
  | [mark] => simp_all [decorations, kindAhead]
  | mark :: name :: rest => simp_all [decorations, kindAhead]

/-- The header that is read from a written one. -/
theorem header_written
    (last : Position)
    {t : Token}
    {tokens : List Token}
    {h : Header}
    (hattributes : h.attributes = Dict.empty)
    {marker : Option Nat}
    (hindent : h.indent = marker)
    {place : Nat}
    (hread : (t :: tokens).map Token.bare =
      (.identifier, h.tag) :: (h.decorations place).flatMap Token.Decoration.tokens)
    (hrest : kindAhead rest ∉ [.dot, .hash, .parenOpen]) :
    Reader.header last marker t (tokens ++ rest) =
      .ok ({ h with position := t.position }, rest) := by
  subst hindent
  simp only [List.map_cons, List.cons.injEq, Token.bare, Prod.mk.injEq] at hread
  obtain ⟨⟨-, htag⟩, hread⟩ := hread
  simp only [List.mem_cons, List.not_mem_nil, or_false, not_or] at hrest
  rw [Header.decorations, List.flatMap_append, List.flatMap_append] at hread
  obtain ⟨most, after, rfl, hmost, hafter⟩ := List.map_eq_append_iff.1 hread
  obtain ⟨before, id, rfl, hbefore, hid⟩ := List.map_eq_append_iff.1 hmost
  rw [Reader.header, List.append_assoc, List.append_assoc, decorations_classes _ hbefore,
    decorations_id rfl hid, decorations_classes _ hafter, decorations_stop _ hrest.1 hrest.2.1]
  cases rest with
  | nil =>
      simp [htag, ← hattributes]
  | cons next rest =>
      have hparen : next.kind ≠ .parenOpen := hrest.2.2
      simp [htag, hparen, ← hattributes]

/-- How reading goes on behind a header. -/
theorem run_identifier
    {r : Reader}
    {t next : Token}
    {tokens inside : List Token}
    {h : Header}
    (ht : t.kind = .identifier)
    (hread : Reader.header last r.marker t tokens = .ok (h, next :: inside)) :
    r.run last (t :: tokens) =
      if next.kind = .braceOpen then
        if maxDepth ≤ r.blocks.length then .error ⟨.tooDeep, next.position⟩
        else (r.enter h next.position).run last inside
      else (r.add (.element h [])).run last (next :: inside) := by
  rw [run]
  simp only [ht]
  split
  · next e herror =>
      rw [hread] at herror
      cases herror
  · next found rest hfound =>
      rw [hread] at hfound
      simp only [Except.ok.injEq, Prod.mk.injEq] at hfound
      obtain ⟨rfl, rfl⟩ := hfound
      rfl

end Header

namespace Completes

variable {r : Reader} {tokens : List Token} {document : Document} {t : Token}

theorem endOfInput
    (ht : t.kind = .endOfInput)
    (hblocks : r.blocks = []) :
    Completes r (t :: tokens) r.nodes.reverse := by
  intro last s hs
  have hnone : s.blocks = [] := by
    have hmap := congrArg Reader.blocks hs
    simpa [forget, hblocks] using hmap
  have hnodes := congrArg Reader.nodes hs
  refine ⟨s.nodes.reverse, ?_, ?_⟩
  · rw [run]
    simp [ht, finish, hnone]
  · simp only [forget] at hnodes
    rw [List.map_reverse, List.map_reverse, hnodes]

theorem newline
    (ht : t.kind = .newline)
    (h : Completes { r with fresh := true } tokens document) :
    Completes r (t :: tokens) document := by
  intro last s hs
  obtain ⟨result, hrun, heq⟩ := h last { s with fresh := true }
    (congrArg (fun r : Reader => { r with fresh := true }) hs)
  refine ⟨result, ?_, heq⟩
  rw [run]
  simpa [ht] using hrun

theorem margin
    (ht : t.kind = .indent ∨ t.kind = .dedent)
    (h : Completes { r with width := t.width, fresh := true } tokens document) :
    Completes r (t :: tokens) document := by
  intro last s hs
  obtain ⟨result, hrun, heq⟩ := h last { s with width := t.width, fresh := true }
    (congrArg (fun r : Reader => { r with width := t.width, fresh := true }) hs)
  refine ⟨result, ?_, heq⟩
  rw [run]
  rcases ht with ht | ht <;> simpa [ht] using hrun

theorem textRun
    (ht : t.kind = .textRun)
    (run : TextRun)
    (hvalue : run.value = t.text)
    (hindent : run.indent = r.marker)
    (h : Completes (r.add (.text run)) tokens document) :
    Completes r (t :: tokens) document := by
  intro last s hs
  have hmarker : s.marker = r.marker := by rw [← marker_forget s, hs, marker_forget]
  have hadd : (s.add (.text ⟨t.text, t.position, s.marker⟩)).forget =
      (r.add (.text run)).forget := by
    rw [forget_add, forget_add, hs]
    simp [unplaced, hmarker, ← hvalue, ← hindent]
  obtain ⟨result, hrun, heq⟩ := h last _ hadd
  refine ⟨result, ?_, heq⟩
  rw [Reader.run]
  simpa [ht] using hrun

theorem braceClose
    (ht : t.kind = .braceClose)
    {block : OpenBlock}
    {outer : List OpenBlock}
    (hblocks : r.blocks = block :: outer)
    (h : Completes { r with
        blocks := outer
        nodes := .element block.header r.nodes.reverse :: block.before } tokens document) :
    Completes r (t :: tokens) document := by
  intro last s hs
  have hmap := congrArg Reader.blocks hs
  have hnodes := congrArg Reader.nodes hs
  have hwidth := congrArg Reader.width hs
  have hfresh := congrArg Reader.fresh hs
  simp only [forget, hblocks, List.map_cons, List.map_eq_cons_iff] at hmap hnodes hwidth hfresh
  obtain ⟨block', outer', hblocks', hblock, houter⟩ := hmap
  simp only [OpenBlock.mk.injEq] at hblock
  obtain ⟨result, hrun, heq⟩ := h last { s with
      blocks := outer'
      nodes := .element block'.header s.nodes.reverse :: block'.before } (by
    simp [forget, houter, hwidth, hfresh, hblock, List.map_reverse, hnodes])
  refine ⟨result, ?_, heq⟩
  rw [Reader.run]
  simpa [ht, hblocks'] using hrun

section Element

variable {h : Header} {more : List Token} {place : Nat}

theorem element
    (hattributes : h.attributes = Dict.empty)
    (hread : (t :: more).map Token.bare =
      (.identifier, h.tag) :: (h.decorations place).flatMap Token.Decoration.tokens)
    (hindent : h.indent = r.marker)
    (hrest : kindAhead tokens = .newline ∨ kindAhead tokens = .endOfInput)
    (hnonempty : tokens ≠ [])
    (hadd : Completes (r.add (.element h [])) tokens document) :
    Completes r (t :: (more ++ tokens)) document := by
  intro last s hs
  have hmarker : h.indent = s.marker := by rw [← marker_forget s, hs, marker_forget, hindent]
  have hkind : kindAhead tokens ∉ [.dot, .hash, .parenOpen] := by
    rcases hrest with hrest | hrest <;> simp [hrest]
  have hheader := header_written last hattributes hmarker hread hkind
  have hidentifier : t.kind = .identifier := congrArg Prod.fst (List.cons.inj hread).1
  obtain ⟨next, inside, rfl⟩ := List.exists_cons_of_ne_nil hnonempty
  obtain ⟨result, hrun, heq⟩ := hadd last (s.add (.element { h with position := t.position } []))
    (by rw [forget_add, forget_add, hs]; simp [unplaced])
  refine ⟨result, ?_, heq⟩
  have hbrace : next.kind ≠ .braceOpen := by
    rintro hopen
    rcases hrest with hrest | hrest <;> simp [kindAhead, hopen] at hrest
  rw [run_identifier hidentifier hheader, if_neg hbrace]
  exact hrun

theorem enter
    (hattributes : h.attributes = Dict.empty)
    (hread : (t :: more).map Token.bare =
      (.identifier, h.tag) :: (h.decorations place).flatMap Token.Decoration.tokens)
    (hindent : h.indent = r.marker)
    {brace : Token}
    (hbrace : brace.kind = .braceOpen)
    (hdepth : r.blocks.length < maxDepth)
    (henter : Completes (r.enter h brace.position) tokens document) :
    Completes r (t :: (more ++ brace :: tokens)) document := by
  intro last s hs
  have hmarker : h.indent = s.marker := by rw [← marker_forget s, hs, marker_forget, hindent]
  have hkind : kindAhead (brace :: tokens) ∉ [.dot, .hash, .parenOpen] := by
    simp [kindAhead, hbrace]
  have hheader := header_written last hattributes hmarker hread hkind
  have hidentifier : t.kind = .identifier := congrArg Prod.fst (List.cons.inj hread).1
  obtain ⟨result, hrun, heq⟩ := henter last
    (s.enter { h with position := t.position } brace.position)
    (by rw [forget_enter, forget_enter, hs]; simp [unplaced])
  refine ⟨result, ?_, heq⟩
  have hlength : ¬maxDepth ≤ s.blocks.length := by
    have hblocks := congrArg (fun r : Reader => r.blocks.length) hs
    simp only [forget, List.length_map] at hblocks
    omega
  rw [run_identifier hidentifier hheader, if_pos hbrace, if_neg hlength]
  exact hrun

end Element

end Completes

/-- Whether the characters from the beginning of a line on are read as `document`, up to
positions. -/
def Reads
    (r : Reader)
    (chars : List Char)
    (document : Document) : Prop :=
  ∀ position, ∃ tokens, Scanner.fromLine ⟨chars, position⟩ r.width = .ok tokens ∧
    r.Completes tokens document

/-- The same from the end of a line on: the source ends there, or another line follows. -/
def ReadsOn
    (r : Reader)
    (chars : List Char)
    (document : Document) : Prop :=
  chars = [] ∧ r.blocks = [] ∧ document = r.nodes.reverse ∨
    ∃ next, chars = '\n' :: next ∧ Reads { r with fresh := true } next document

section Lines

variable {r : Reader} {rest : List Char} {document : Document}

theorem ReadsOn.lineEnds
    (h : r.ReadsOn rest document) :
    Token.LineEnds rest := by
  rcases h with ⟨rfl, -⟩ | ⟨next, rfl, -⟩
  · exact fun c hc => by simp at hc
  · exact fun c hc => by simpa [eq_comm] using hc

/-- Where a line ends, the token for it comes next. -/
theorem ReadsOn.exists_tokens
    (h : r.ReadsOn rest document)
    (position : Position) :
    ∃ t tokens, Scanner.tokens ⟨⟨rest, position⟩, r.width, false⟩ = .ok (t :: tokens) ∧
      (t.kind = .newline ∨ t.kind = .endOfInput) ∧ r.Completes (t :: tokens) document := by
  rcases h with ⟨rfl, hblocks, rfl⟩ | ⟨next, rfl, hnext⟩
  · refine ⟨⟨.endOfInput, "", position⟩, [], Scanner.tokens_nil _ _ _, Or.inr rfl, ?_⟩
    exact Completes.endOfInput rfl hblocks
  · obtain ⟨tokens, hscan, hcompletes⟩ := hnext (position.next '\n')
    refine ⟨Token.single .newline '\n' position, tokens, ?_, Or.inl rfl, hcompletes.newline rfl⟩
    have hscan' : Scanner.fromLine ⟨next, position.next '\n'⟩ r.width = .ok tokens := hscan
    rw [Scanner.tokens_newline, hscan']
    rfl

theorem completes_marginTokens
    (hfresh : r.fresh = true)
    {width : Nat}
    {tokens : List Token}
    (h : Completes { r with width := width } tokens document)
    (position : Position) :
    Completes r (Token.marginTokens r.width width position ++ tokens) document := by
  have hmargin : ∀ kind,
      (⟨kind, String.ofList (List.replicate width ' '), position⟩ : Token).width =
      width := by
    simp [Token.width]
  have hsame : ({ r with width := width, fresh := true } : Reader) = { r with width := width } := by
    rw [← hfresh]
  rw [Token.marginTokens]
  split
  · exact Completes.margin (Or.inl rfl) (by rw [hmargin, hsame]; exact h)
  · split
    · exact Completes.margin (Or.inr rfl) (by rw [hmargin, hsame]; exact h)
    · next hle hge =>
        have hwidth : width = r.width := by omega
        rw [hwidth] at h
        exact h

/-- A line is read from behind its margin. -/
theorem reads_margin
    (hfresh : r.fresh = true)
    {c : Char}
    (hblank : Text.isBlank c = false)
    {width : Nat}
    (h : ∀ position, ∃ tokens, Scanner.tokens ⟨⟨c :: rest, position⟩, width, true⟩ = .ok tokens ∧
      Completes { r with width := width } tokens document) :
    r.Reads (List.replicate width ' ' ++ c :: rest) document := by
  intro position
  obtain ⟨tokens, hscan, hcompletes⟩ := h (position.after (List.replicate width ' '))
  refine ⟨Token.marginTokens r.width width position ++ tokens, ?_,
    completes_marginTokens hfresh hcompletes position⟩
  rw [Scanner.fromLine_margin hblank, hscan]
  rfl

/-- One line: a text with its margin is read as a node. -/
theorem reads_text
    (hfresh : r.fresh = true)
    {run : TextRun}
    (hplain : run.Plain)
    (width : Nat)
    (h : ReadsOn
      (({ r with width := width } : Reader).add (.text { run with indent := some width }))
      rest document) :
    r.Reads (List.replicate width ' ' ++ (run.value.toList ++ rest)) document := by
  obtain ⟨first, more, hcons⟩ := List.exists_cons_of_ne_nil hplain.text.nonempty
  have hblank := hplain.text.first first (by rw [hcons]; rfl)
  rw [hcons, List.cons_append]
  refine reads_margin hfresh hblank fun position => ?_
  obtain ⟨t, tokens, hscan, -, hcompletes⟩ := h.exists_tokens (position.after run.value.toList)
  rw [← List.cons_append, ← hcons, Scanner.tokens_text hplain.text h.lineEnds]
  refine ⟨_, congrArg (Except.map _) hscan, ?_⟩
  refine Completes.textRun rfl { run with indent := some width } ?_ ?_ hcompletes
  · simp
  · simp [marker, hfresh]

section Element

variable {h : Header} (hplain : h.Plain) (place width : Nat)

include hplain

theorem proper_decorations :
    ∀ d ∈ h.decorations place, d.Proper := by
  have hclasses : ∀ names : List String, (∀ name ∈ names, name ∈ h.classes) →
      ∀ d ∈ names.map fun name => (⟨'.', name⟩ : Token.Decoration), d.Proper := by
    intro names hnames d hd
    obtain ⟨name, hname, rfl⟩ := List.mem_map.1 hd
    exact ⟨Or.inl rfl, hplain.classes name (hnames name hname)⟩
  intro d hd
  rw [Header.decorations, List.mem_append, List.mem_append] at hd
  rcases hd with (hd | hd) | hd
  · exact hclasses _ (fun name => List.mem_of_mem_take) d hd
  · obtain ⟨name, hname, rfl⟩ := List.mem_map.1 hd
    exact ⟨Or.inr rfl, hplain.id name (by simpa using hname)⟩
  · exact hclasses _ (fun name => List.mem_of_mem_drop) d hd

/-- A line that begins with a header is read from its tokens. -/
theorem reads_header
    (hfresh : r.fresh = true)
    (hrest : Token.LineEnds rest ∨ ∃ more, rest = ' ' :: '{' :: more)
    (hline : ∀ t tokens position,
      (t :: tokens).map Token.bare =
        (.identifier, h.tag) :: (h.decorations place).flatMap Token.Decoration.tokens →
      ∃ more, Scanner.tokens ⟨⟨rest, position⟩, width, false⟩ = .ok more ∧
        Completes { r with width := width } (t :: (tokens ++ more)) document) :
    r.Reads (List.replicate width ' ' ++ (h.written place ++ rest)) document := by
  obtain ⟨first, tail, hcons, -, hchars⟩ :=
    exists_of_isIdentifier (isIdentifier_of_isStandardElement hplain.tag)
  have hblank := isBlank_of_isIdentifierChar (hchars first (hcons ▸ List.mem_cons_self))
  have hwritten : h.written place ++ rest =
      first :: (tail ++ (h.decorations place).flatMap Token.Decoration.written ++ rest) := by
    simp [Header.written, Token.headerText, hcons]
  rw [hwritten]
  refine reads_margin hfresh hblank fun position => ?_
  obtain ⟨read, hscan, hread⟩ := Scanner.tokens_header hplain.tag
    (proper_decorations hplain place) hrest position width
  obtain ⟨t, tokens, rfl, -⟩ := List.map_eq_cons_iff.1 hread
  obtain ⟨more, hmore, hcompletes⟩ := hline t tokens
    (position.after (Token.headerText h.tag (h.decorations place))) hread
  refine ⟨t :: (tokens ++ more), ?_, hcompletes⟩
  rw [← hwritten, Header.written, hscan, hmore]
  rfl

/-- One line: a header with its margin is read as a node. -/
theorem reads_element
    (hfresh : r.fresh = true)
    (hon : ReadsOn
      (({ r with width := width } : Reader).add (.element { h with indent := some width } []))
      rest document) :
    r.Reads (List.replicate width ' ' ++ (h.written place ++ rest)) document := by
  refine reads_header hplain place width hfresh (Or.inl hon.lineEnds)
    fun t tokens position hread => ?_
  obtain ⟨next, more, hscan, hkind, hcompletes⟩ := hon.exists_tokens position
  refine ⟨next :: more, hscan, ?_⟩
  have hindent : some width = ({ r with width := width } : Reader).marker := by
    simp [marker, hfresh]
  exact Completes.element (h := { h with indent := some width }) hplain.attributes hread hindent
    hkind (List.cons_ne_nil _ _) hcompletes

/-- One line: a header and a brace open a block. -/
theorem reads_open
    (hfresh : r.fresh = true)
    (hdepth : r.blocks.length < maxDepth)
    (hon : ReadsOn
      (({ r with width := width } : Reader).enter { h with indent := some width } Position.start)
      rest document) :
    r.Reads (List.replicate width ' ' ++ (h.written place ++ ' ' :: '{' :: rest)) document := by
  refine reads_header hplain place width hfresh (Or.inr ⟨rest, rfl⟩)
    fun t tokens position hread => ?_
  obtain ⟨next, more, hscan, -, hcompletes⟩ :=
    hon.exists_tokens ((position.next ' ').next '{')
  refine ⟨Token.single .braceOpen '{' (position.next ' ') :: next :: more, ?_, ?_⟩
  · have hscan' : Scanner.tokens ⟨⟨rest, (position.next ' ').next '{'⟩, width, false⟩ =
        .ok (next :: more) := hscan
    rw [Scanner.tokens_braceOpen, hscan']
    rfl
  · have hindent : some width = ({ r with width := width } : Reader).marker := by
      simp [marker, hfresh]
    exact Completes.enter (h := { h with indent := some width }) hplain.attributes hread hindent
      rfl hdepth hcompletes

end Element

/-- One line: a brace closes the innermost block. -/
theorem reads_close
    (hfresh : r.fresh = true)
    {block : OpenBlock}
    {outer : List OpenBlock}
    (hblocks : r.blocks = block :: outer)
    (hon : ReadsOn ⟨outer, .element block.header r.nodes.reverse :: block.before, 0, true⟩
      rest document) :
    r.Reads ('}' :: rest) document := by
  have hblank : Text.isBlank '}' = false := rfl
  change r.Reads (List.replicate 0 ' ' ++ '}' :: rest) document
  refine reads_margin hfresh hblank fun position => ?_
  obtain ⟨next, more, hscan, -, hcompletes⟩ := hon.exists_tokens (position.next '}')
  refine ⟨Token.single .braceClose '}' position :: next :: more, ?_, ?_⟩
  · have hscan' : Scanner.tokens ⟨⟨rest, position.next '}'⟩, 0, false⟩ = .ok (next :: more) := hscan
    rw [Scanner.tokens_braceClose, hscan']
    rfl
  · refine Completes.braceClose rfl hblocks ?_
    rw [hfresh]
    exact hcompletes

end Lines

/-- Reading goes on in the same way whether or not a node has begun on the line that ends. -/
theorem ReadsOn.of_eq
    {r s : Reader}
    {rest : List Char}
    {document : Document}
    (h : r.ReadsOn rest document)
    (heq : ({ s with fresh := true } : Reader) = { r with fresh := true }) :
    s.ReadsOn rest document := by
  have hfields := heq
  simp only [Reader.mk.injEq] at hfields
  rw [ReadsOn, heq, hfields.1, hfields.2.1]
  exact h

end Reader

namespace Text

/-- What follows a line in a source: the lines behind it, each after a line feed. -/
def behind
    (ended : Bool) :
    List (List Char) → List Char
  | [] => if ended then ['\n'] else []
  | line :: lines => '\n' :: (line ++ behind ended lines)

theorem toList_ofLines_nil
    (ended : Bool) :
    (ofLines ended []).toList = behind ended [] := by
  simp [ofLines, behind]

theorem toList_ofLines_cons
    (ended : Bool)
    (line : List Char)
    (lines : List (List Char)) :
    (ofLines ended (line :: lines)).toList = line ++ behind ended lines := by
  induction lines generalizing line with
  | nil =>
      simp [ofLines, behind]
  | cons next lines ih =>
      have hnext := ih next
      simp only [ofLines, String.toList_ofList] at hnext ⊢
      rw [List.intercalate_cons_cons, List.append_assoc, List.append_assoc, hnext]
      rfl

end Text

namespace Reader

theorem readsOn_nil
    {r : Reader}
    (hblocks : r.blocks = [])
    (ended : Bool) :
    r.ReadsOn (Text.behind ended []) r.nodes.reverse := by
  cases ended with
  | false =>
      exact Or.inl ⟨rfl, hblocks, rfl⟩
  | true =>
      refine Or.inr ⟨[], rfl, fun position => ⟨[⟨.endOfInput, "", position⟩], ?_, ?_⟩⟩
      · exact Scanner.fromLine_nil _ _
      · exact Completes.endOfInput rfl hblocks

/-- A line of a node without children adds that node. -/
theorem readsOn_outlineLine
    (place : Header → Nat)
    {n : Node}
    (hplain : n.Plain)
    (hchildless : (∃ header, n = .element header []) ∨ ∃ run, n = .text run)
    (width : Nat)
    {r : Reader}
    {rest : List Char}
    {document : Document}
    (h : ReadsOn (({ r with width := width } : Reader).add (n.onLine width)) rest document) :
    r.ReadsOn ('\n' :: (Node.outlineLine place (width, n) ++ rest)) document := by
  have hadd : ReadsOn (({ r with width := width, fresh := true } : Reader).add (n.onLine width))
      rest document := h.of_eq rfl
  refine Or.inr ⟨_, rfl, ?_⟩
  rw [Node.outlineLine, List.append_assoc]
  rcases hchildless with ⟨header, rfl⟩ | ⟨run, rfl⟩
  · exact reads_element hplain (place header) width rfl hadd
  · exact reads_text rfl hplain width hadd

/-- Line by line, an outline is read as the nodes of its lines. -/
theorem readsOn_outline
    (place : Header → Nat)
    (ended : Bool)
    {lines : List (Nat × Node)}
    (hplain : ∀ line ∈ lines, line.2.Plain)
    (hchildless : ∀ line ∈ lines,
      (∃ header, line.2 = .element header []) ∨ ∃ run, line.2 = .text run)
    {r : Reader}
    (hblocks : r.blocks = []) :
    r.ReadsOn (Text.behind ended (lines.map (Node.outlineLine place)))
      (r.nodes.reverse ++ lines.map fun line => line.2.onLine line.1) := by
  induction lines generalizing r with
  | nil =>
      simpa using readsOn_nil hblocks ended
  | cons line lines ih =>
      rw [List.forall_mem_cons] at hplain hchildless
      refine readsOn_outlineLine place hplain.1 hchildless.1 line.1 ?_
      have hrest := ih hplain.2 hchildless.2
        (r := ({ r with width := line.1 } : Reader).add (line.2.onLine line.1)) hblocks
      simpa [add] using hrest

/-- The reader after a list of nodes at the margin. -/
def addAll
    (r : Reader)
    (ns : List Node) : Reader :=
  { r with nodes := (ns.map (Node.relabel Relabelling.atMargin)).reverse ++ r.nodes }

section Braces

variable {place : Header → Nat} {ended : Bool}

/-- Whether the braced lines of a node add that node, wherever they stand. -/
def AddsBraced
    (place : Header → Nat)
    (ended : Bool)
    (n : Node) : Prop :=
  ∀ (r : Reader) (lines : List (List Char)) (document : Document), r.width = 0 →
    (∀ depth ∈ n.depths r.blocks.length, depth ≤ maxDepth) →
    ReadsOn (r.addAll [n]) (Text.behind ended lines) document →
      r.ReadsOn (Text.behind ended (n.bracedLines place ++ lines)) document

/-- Nodes one after another are read if each of them is. -/
theorem readsOn_bracedLinesList
    {ns : List Node}
    (hns : ∀ n ∈ ns, AddsBraced place ended n)
    {r : Reader}
    (hwidth : r.width = 0)
    (hdepth : ∀ depth ∈ Node.depthsList r.blocks.length ns, depth ≤ maxDepth)
    {lines : List (List Char)}
    {document : Document}
    (h : ReadsOn (r.addAll ns) (Text.behind ended lines) document) :
    r.ReadsOn (Text.behind ended (Node.bracedLinesList place ns ++ lines)) document := by
  induction ns generalizing r with
  | nil =>
      exact h
  | cons n ns ih =>
      rw [List.forall_mem_cons] at hns
      rw [Node.depthsList, List.forall_mem_append] at hdepth
      rw [Node.bracedLinesList, List.append_assoc]
      refine hns.1 r _ document hwidth hdepth.1 (ih hns.2 hwidth hdepth.2 ?_)
      simpa [addAll] using h

theorem addsBraced_of_childless
    {n : Node}
    (hplain : n.Plain)
    (hchildless : (∃ header, n = .element header []) ∨ ∃ run, n = .text run) :
    AddsBraced place ended n := by
  intro r lines document hwidth _ h
  have hline : n.bracedLines place = [Node.outlineLine place (0, n)] := by
    rcases hchildless with ⟨header, rfl⟩ | ⟨run, rfl⟩ <;>
      simp [Node.bracedLines, Node.outlineLine, Node.headline]
  have hnode : n.relabel Relabelling.atMargin = n.onLine 0 := by
    rcases hchildless with ⟨header, rfl⟩ | ⟨run, rfl⟩ <;> simp [Relabelling.atMargin, Node.onLine]
  rw [hline]
  refine readsOn_outlineLine place hplain hchildless 0 (h.of_eq ?_)
  simp [add, addAll, hnode, hwidth]

/-- A block is read from the line that opens it to the line that closes it. -/
theorem addsBraced_block
    {header : Header}
    (hplain : header.Plain)
    {children : List Node}
    (hnonempty : children ≠ [])
    (hchildren : ∀ child ∈ children, AddsBraced place ended child) :
    AddsBraced place ended (.element header children) := by
  intro r lines document hwidth hdepth h
  obtain ⟨first, rest, rfl⟩ := List.exists_cons_of_ne_nil hnonempty
  have hlines : Node.bracedLines place (.element header (first :: rest)) ++ lines =
      (header.written (place header) ++ [' ', '{']) ::
        (Node.bracedLinesList place (first :: rest) ++ (['}'] :: lines)) := by
    simp [Node.bracedLines, Node.bracedLinesList]
  rw [Node.depths, List.forall_mem_cons] at hdepth
  have hopen : r.blocks.length < maxDepth := by
    have hfirst : r.blocks.length + 1 ∈ Node.depthsList (r.blocks.length + 1) (first :: rest) := by
      cases first <;> simp [Node.depthsList, Node.depths]
    exact hdepth.2 _ hfirst
  rw [hlines, Text.behind, List.append_assoc]
  refine Or.inr ⟨_, rfl, reads_open hplain (place header) 0 rfl hopen ?_⟩
  refine readsOn_bracedLinesList hchildren ?_ ?_ (Or.inr ⟨_, rfl, ?_⟩)
  · rfl
  · exact hdepth.2
  refine reads_close rfl rfl (h.of_eq ?_)
  simp [addAll, enter, hwidth, Relabelling.atMargin]

/-- By induction over the tree: a node written with braces is read as itself. -/
theorem addsBraced
    {n : Node}
    (hplain : ∀ m ∈ n.preorder, m.Plain) :
    AddsBraced place ended n := by
  induction n with
  | element header children ih =>
      have hheader : header.Plain := hplain (.element header []) (by simp [Node.preorder])
      by_cases hnil : children = []
      · exact addsBraced_of_childless hheader (Or.inl ⟨header, by rw [hnil]⟩)
      · refine addsBraced_block hheader hnil fun child hchild => ih child hchild fun m hm => ?_
        exact hplain m (Node.mem_preorder_of_child hchild hm)
  | text run =>
      exact addsBraced_of_childless (hplain (.text run) (by simp [Node.preorder]))
        (Or.inr ⟨run, rfl⟩)

end Braces

end Reader

namespace Document

/-- A source is read if its lines are. -/
theorem exists_parse
    {ended : Bool}
    {lines : List (List Char)}
    {document : Document}
    (h : Reader.start.ReadsOn (Text.behind ended lines) document)
    (file : String) :
    ∃ result, parse (Text.ofLines ended lines) file = .ok result ∧
      result.map (Node.relabel unplaced) = document.map (Node.relabel unplaced) := by
  have hreads : Reader.start.Reads (Text.ofLines ended lines).toList document := by
    rcases h with ⟨hnil, -, rfl⟩ | ⟨next, hnext, hreads⟩
    · have hsource : (Text.ofLines ended lines).toList = [] := by
        cases lines with
        | nil =>
            rw [Text.toList_ofLines_nil, hnil]
        | cons line lines =>
            simp [Text.behind] at hnil
      intro position
      rw [hsource, Scanner.fromLine_nil]
      exact ⟨_, rfl, Reader.Completes.endOfInput rfl rfl⟩
    · cases lines with
      | nil =>
          -- the line feed ends an empty first line
          rw [Text.toList_ofLines_nil, hnext]
          intro position
          rw [Scanner.fromLine_newline]
          exact hreads (position.next '\n')
      | cons line lines =>
          rw [Text.toList_ofLines_cons]
          simp only [Text.behind, List.cons.injEq, true_and] at hnext
          rw [hnext]
          exact hreads
  obtain ⟨tokens, hscan, hcompletes⟩ := hreads Position.start
  obtain ⟨result, hrun, heq⟩ := hcompletes ((tokens.getLast?.map (·.position)).getD Position.start)
    Reader.start rfl
  refine ⟨result, ?_, heq⟩
  have htokens : Token.scan (Text.ofLines ended lines) = .ok tokens := hscan
  have hdocument : Document.ofTokens tokens = .ok result := hrun
  simp [parse, htokens, hdocument]

/-- What is read from a written source and nested is the forest that was written. -/
theorem exists_read
    {ended : Bool}
    {lines : List (List Char)}
    {document forest : Document}
    (h : Reader.start.ReadsOn (Text.behind ended lines) document)
    (hwell : document.WellIndented)
    (hforest : document.arranged = forest)
    (file : String) :
    ∃ result, read (Text.ofLines ended lines) file = .ok result ∧
      result.map (Node.relabel unplaced) = forest.map (Node.relabel unplaced) := by
  obtain ⟨parsed, hparse, hplaces⟩ := exists_parse h file
  obtain ⟨result, hnest, hresult⟩ :=
    exists_nest_of_relabel_eq Relabelling.keepsMarkers_unplaced hplaces hwell
  refine ⟨result, ?_, by rw [hresult, hforest]⟩
  simp [read, hparse, nestFrom, hnest]

/-- A tree written as an outline is read as that tree. -/
theorem exists_read_outline
    {forest : Document}
    (hplain : ∀ n ∈ Node.preorderList forest, n.Plain)
    (hdepth : ∀ depth ∈ Node.depthsList 0 forest, depth ≤ maxDepth)
    {margin : Nat}
    {lines : List (Nat × Node)}
    (hlines : Node.Outlines margin forest lines)
    (place : Header → Nat)
    (ended : Bool)
    (file : String) :
    ∃ result, read (Text.ofLines ended (lines.map (Node.outlineLine place))) file = .ok result ∧
      result.map (Node.relabel unplaced) = forest.map (Node.relabel unplaced) := by
  have hmem : ∀ line ∈ lines, line.2 ∈ Node.preorderList forest := fun line hline =>
    hlines.map_snd ▸ List.mem_map_of_mem hline
  have hunmarked : ∀ n ∈ Node.preorderList forest, n.indent = none := fun n hn =>
    (hplain n hn).indent_eq_none
  have hreads := Reader.readsOn_outline (r := Reader.start) place ended
    (fun line hline => hplain line.2 (hmem line hline))
    (fun line hline => Node.childless_of_mem_preorderList (hmem line hline)) rfl
  exact exists_read hreads (hlines.wellIndented hunmarked hdepth)
    (hlines.arranged_eq hunmarked) file

/-- A tree written with braces is read as that tree. -/
theorem exists_read_braces
    {forest : Document}
    (hplain : ∀ n ∈ Node.preorderList forest, n.Plain)
    (hdepth : ∀ depth ∈ Node.depthsList 0 forest, depth ≤ maxDepth)
    (place : Header → Nat)
    (ended : Bool)
    (file : String) :
    ∃ result, read (Text.ofLines ended (Node.bracedLinesList place forest)) file = .ok result ∧
      result.map (Node.relabel unplaced) = forest.map (Node.relabel unplaced) := by
  have hunmarked : ∀ n ∈ Node.preorderList forest, n.indent = none := fun n hn =>
    (hplain n hn).indent_eq_none
  have hadds : ∀ n ∈ forest, Reader.AddsBraced place ended n := by
    intro n hn
    exact Reader.addsBraced fun m hm => hplain m (Node.mem_preorderList.2 ⟨n, hn, hm⟩)
  have hend := Reader.readsOn_nil (r := Reader.start.addAll forest) rfl ended
  have hreads := Reader.readsOn_bracedLinesList (r := Reader.start) hadds rfl hdepth hend
  simp only [List.append_nil, Reader.addAll, Reader.start, List.reverse_reverse] at hreads
  exact exists_read hreads (wellIndented_atMargin hunmarked hdepth)
    (arranged_atMargin hunmarked) file

/-- A plain forest that is not too deep is read back from any outline of it and from its braced
lines. The two documents differ in positions only. -/
theorem read_outline_eq_read_braces
    {forest : Document}
    (hplain : ∀ n ∈ Node.preorderList forest, n.Plain)
    (hdepth : ∀ depth ∈ Node.depthsList 0 forest, depth ≤ maxDepth)
    {margin : Nat}
    {lines : List (Nat × Node)}
    (hlines : Node.Outlines margin forest lines)
    (place place' : Header → Nat)
    (ended ended' : Bool)
    (file : String) :
    ∃ indented braced,
      read (Text.ofLines ended (lines.map (Node.outlineLine place))) file = .ok indented ∧
      read (Text.ofLines ended' (Node.bracedLinesList place' forest)) file = .ok braced ∧
      indented.map (Node.relabel unplaced) = braced.map (Node.relabel unplaced) ∧
      indented.map (Node.relabel unplaced) = forest.map (Node.relabel unplaced) := by
  obtain ⟨indented, hindented, heq⟩ := exists_read_outline hplain hdepth hlines place ended file
  obtain ⟨braced, hbraced, heq'⟩ := exists_read_braces hplain hdepth place' ended' file
  exact ⟨indented, braced, hindented, hbraced, heq.trans heq'.symm, heq⟩

/-- A page with an id between two classes, a text beside an element, and a dedent of two levels. -/
def samplePage : Document :=
  [.element ⟨"section", some "top", ["wide", "dark"], Dict.empty, Position.start, none⟩
    [.text ⟨"Hello, world", Position.start, none⟩,
      .element ⟨"p", none, [], Dict.empty, Position.start, none⟩
        [.text ⟨"one: two", Position.start, none⟩]],
    .text ⟨"the end", Position.start, none⟩]

theorem read_outline_eq_read_braces_samplePage :
    ∃ lines indented braced, Node.Outlines 0 samplePage lines ∧
      lines.map Prod.fst = [0, 2, 2, 5, 0] ∧
      read (Text.ofLines true (lines.map (Node.outlineLine fun _ => 1))) "page" = .ok indented ∧
      read (Text.ofLines false (Node.bracedLinesList (fun _ => 1) samplePage)) "page" = .ok braced ∧
      indented.map (Node.relabel unplaced) = braced.map (Node.relabel unplaced) ∧
      indented.map (Node.relabel unplaced) = samplePage.map (Node.relabel unplaced) := by
  have hlines := Node.Outlines.element
    ⟨"section", some "top", ["wide", "dark"], Dict.empty, Position.start, none⟩
    (by decide : 0 < 2)
    (.text ⟨"Hello, world", Position.start, none⟩
      (.element ⟨"p", none, [], Dict.empty, Position.start, none⟩ (by decide : 2 < 5)
        (.text ⟨"one: two", Position.start, none⟩ (.nil 5)) (.nil 2)))
    (.text ⟨"the end", Position.start, none⟩ (.nil 0))
  have hplain : ∀ n ∈ Node.preorderList samplePage, n.Plain := by decide +kernel
  have hdepth : ∀ depth ∈ Node.depthsList 0 samplePage, depth ≤ maxDepth := by
    simp [Node.depthsList, Node.depths, samplePage, maxDepth]
  obtain ⟨indented, braced, h⟩ :=
    read_outline_eq_read_braces hplain hdepth hlines (fun _ => 1) (fun _ => 1) true false "page"
  exact ⟨_, indented, braced, hlines, rfl, h⟩

end Document

end BlockMarkup
