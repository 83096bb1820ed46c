import BlockMarkup.Bundle
import BlockMarkup.Proofs.Dict
import BlockMarkup.Proofs.Node.WellIndented
import BlockMarkup.Proofs.Token.Sound

/-!
# What a document says about its source

The reader takes tags and texts from tokens outside parentheses and attributes from tokens inside
them, and nesting moves nodes without changing more than their line markers. So every node of a
document that was read carries a piece of the source and the position of that piece, and the value
of each of its attributes is one that the name of the attribute allows.
-/

namespace BlockMarkup

/-- Whether an attribute called `name` can have a value. -/
def Attribute.Suits
    (name : String)
    (value : Attribute) : Prop :=
  ∃ text, derive name text = .ok value

/-- Whether attributes were taken from tokens that satisfy `inner`: a name is that of a token, and
its value suits it. -/
def Dict.TakenFrom
    (inner : Token → Prop)
    (attributes : Dict Attribute) : Prop :=
  ∀ entry ∈ attributes.entries,
    (∃ t, inner t ∧ t.kind = .identifier ∧ entry.1 = t.text) ∧ Attribute.Suits entry.1 entry.2

/-- Whether the label of a node was taken from tokens: tags and texts from those that satisfy
`outer`, attributes from those that satisfy `inner`. -/
def Node.ComesFrom
    (outer inner : Token → Prop) :
    Node → Prop
  | .element header _ =>
    (∃ t, outer t ∧ header.tag = t.text ∧ header.position = t.position) ∧
      header.attributes.TakenFrom inner
  | .text run =>
    ∃ t, outer t ∧ t.kind = .textRun ∧ run.value = t.text ∧ run.position = t.position

namespace Reader

open Token (Bracketed)

variable {outer inner : Token → Prop} {last : Position}

theorem bracketed_tail
    {inside : Bool}
    {t : Token}
    {rest : List Token}
    (h : Bracketed outer inner inside (t :: rest))
    (hopen : t.kind ≠ .parenOpen)
    (hclose : t.kind ≠ .parenClose) :
    (if inside then inner t else outer t) ∧ Bracketed outer inner inside rest := by
  cases inside <;> simpa [Bracketed, hopen, hclose] using h

theorem bracketed_rest_of_parenClose
    {t : Token}
    {rest : List Token}
    (h : Bracketed outer inner true (t :: rest))
    (hclose : t.kind = .parenClose) :
    Bracketed outer inner false rest := by
  simp only [Bracketed, hclose, if_true, ne_eq, not_true, decide_false] at h
  exact h.2

/-- Behind the classes and ids, all of a header but these is as before. -/
theorem decorations_sound
    {header stop : Header}
    {tokens rest : List Token}
    (hread : decorations last header tokens = .ok (stop, rest))
    (h : Bracketed outer inner false tokens) :
    stop = { header with id := stop.id, classes := stop.classes } ∧
      Bracketed outer inner false rest := by
  fun_induction decorations last header tokens with
  | case5 header mark name more hmark hname ih =>
      have hmore := (bracketed_tail (bracketed_tail h (by simp [hmark]) (by simp [hmark])).2
        (by simp [hname]) (by simp [hname])).2
      exact ih hread hmore
  | case8 header mark name more _ hmark hname _ ih =>
      have hmore := (bracketed_tail (bracketed_tail h (by simp [hmark]) (by simp [hmark])).2
        (by simp [hname]) (by simp [hname])).2
      exact ih hread hmore
  | case1 | case4 | case10 =>
      simp only [Except.ok.injEq, Prod.mk.injEq] at hread
      obtain ⟨rfl, rfl⟩ := hread
      exact ⟨rfl, h⟩
  | _ => simp at hread

/-- An attribute that is read is taken from tokens inside the list. -/
theorem oneAttribute_sound
    {seen stop : Dict Attribute}
    {tokens rest : List Token}
    (hread : oneAttribute last seen tokens = .ok (stop, rest))
    (h : Bracketed outer inner true tokens)
    (hseen : seen.TakenFrom inner) :
    stop.TakenFrom inner ∧ Bracketed outer inner true rest := by
  unfold oneAttribute at hread
  cases hname : expect .identifier .attributeName last tokens with
  | error e => simp [hname, bind, Except.bind] at hread
  | ok name =>
    cases hcolon : expect .colon .attributeColon last name.2 with
    | error e => simp [hname, hcolon, bind, Except.bind] at hread
    | ok colon =>
      cases hvalue : expect .stringLiteral .attributeValue last colon.2 with
      | error e => simp [hname, hcolon, hvalue, bind, Except.bind] at hread
      | ok value =>
        obtain ⟨htokens, hidentifier⟩ := expect_eq_ok_iff.1 hname
        obtain ⟨hafterName, hcolonKind⟩ := expect_eq_ok_iff.1 hcolon
        obtain ⟨hafterColon, hvalueKind⟩ := expect_eq_ok_iff.1 hvalue
        rw [htokens] at h
        have h₁ := bracketed_tail h (by simp [hidentifier]) (by simp [hidentifier])
        have h₂ := bracketed_tail (hafterName ▸ h₁.2) (by simp [hcolonKind]) (by simp [hcolonKind])
        have h₃ := bracketed_tail (hafterColon ▸ h₂.2) (by simp [hvalueKind]) (by simp [hvalueKind])
        simp only [hname, hcolon, hvalue, bind, Except.bind] at hread
        split at hread
        · simp at hread
        · split at hread
          · simp at hread
          · next derived hderived =>
              simp only [Except.ok.injEq, Prod.mk.injEq] at hread
              obtain ⟨rfl, rfl⟩ := hread
              refine ⟨fun entry hentry => ?_, h₃.2⟩
              rcases Dict.mem_entries_insert hentry with rfl | hentry
              · exact ⟨⟨name.1, h₁.1, hidentifier, rfl⟩, value.1.text, hderived⟩
              · exact hseen entry hentry

/-- All attributes of a list are taken from tokens inside of it, and behind it the list is left. -/
theorem attributes_sound
    {seen stop : Dict Attribute}
    {tokens rest : List Token}
    (hread : attributes last seen tokens = .ok (stop, rest))
    (h : Bracketed outer inner true tokens)
    (hseen : seen.TakenFrom inner) :
    stop.TakenFrom inner ∧ Bracketed outer inner false rest := by
  fun_induction attributes last seen tokens with
  | case3 seen tokens found t more hone hclose =>
      obtain ⟨hfound, hmore⟩ := oneAttribute_sound hone h hseen
      simp only [Except.ok.injEq, Prod.mk.injEq] at hread
      obtain ⟨rfl, rfl⟩ := hread
      exact ⟨hfound, bracketed_rest_of_parenClose hmore hclose⟩
  | case4 seen tokens found t more hone hclose hcomma hahead =>
      obtain ⟨hfound, hmore⟩ := oneAttribute_sound hone h hseen
      simp only [Except.ok.injEq, Prod.mk.injEq] at hread
      obtain ⟨rfl, rfl⟩ := hread
      have htail := (bracketed_tail hmore (by simp [hcomma]) hclose).2
      cases more with
      | nil =>
          simp [kindAhead] at hahead
      | cons close more =>
          exact ⟨hfound, bracketed_rest_of_parenClose htail hahead⟩
  | case5 seen tokens found t more hone hclose hcomma hahead _ ih =>
      obtain ⟨hfound, hmore⟩ := oneAttribute_sound hone h hseen
      exact ih hread (bracketed_tail hmore (by simp [hcomma]) hclose).2 hfound
  | _ => simp at hread

/-- The tag of a header that is read comes from the token it starts with, and its attributes from
tokens inside its list. -/
theorem header_sound
    {indent : Option Nat}
    {t : Token}
    {header : Header}
    {tokens rest : List Token}
    (hread : Reader.header last indent t tokens = .ok (header, rest))
    (ht : outer t)
    (h : Bracketed outer inner false tokens) :
    Node.ComesFrom outer inner (.element header []) ∧ Bracketed outer inner false rest := by
  have hempty : Dict.TakenFrom inner Dict.empty := by
    intro entry hentry
    simp [Dict.empty] at hentry
  unfold Reader.header at hread
  split at hread
  · simp at hread
  · next found tokens' hfound =>
      obtain ⟨hheader, hmore⟩ := decorations_sound hfound h
      split at hread
      · simp only [Except.ok.injEq, Prod.mk.injEq] at hread
        obtain ⟨rfl, rfl⟩ := hread
        rw [hheader]
        exact ⟨⟨⟨t, ht, rfl, rfl⟩, hempty⟩, hmore⟩
      · next paren more =>
          split at hread
          · next hparen =>
              have hinside : Bracketed outer inner true more := by
                simp only [Bracketed, hparen] at hmore
                simpa using hmore.2
              split at hread
              · next hclose =>
                  simp only [Except.ok.injEq, Prod.mk.injEq] at hread
                  obtain ⟨rfl, rfl⟩ := hread
                  cases more with
                  | nil =>
                      simp [kindAhead] at hclose
                  | cons close more =>
                      rw [hheader]
                      exact ⟨⟨⟨t, ht, rfl, rfl⟩, hempty⟩,
                        bracketed_rest_of_parenClose hinside hclose⟩
              · cases hattr : attributes last Dict.empty more with
                | error e =>
                    simp [hattr, Except.map] at hread
                | ok read =>
                    obtain ⟨hnames, hrest⟩ := attributes_sound hattr hinside hempty
                    simp only [hattr, Except.map, Except.ok.injEq, Prod.mk.injEq] at hread
                    obtain ⟨rfl, rfl⟩ := hread
                    rw [hheader]
                    exact ⟨⟨⟨t, ht, rfl, rfl⟩, hnames⟩, hrest⟩
          · simp only [Except.ok.injEq, Prod.mk.injEq] at hread
            obtain ⟨rfl, rfl⟩ := hread
            rw [hheader]
            exact ⟨⟨⟨t, ht, rfl, rfl⟩, hempty⟩, hmore⟩

/-- Whether all that a reader has stored was taken from tokens. -/
structure Sound
    (outer inner : Token → Prop)
    (r : Reader) : Prop where
  nodes : ∀ n ∈ Node.preorderList r.nodes, n.ComesFrom outer inner
  headers : ∀ block ∈ r.blocks, Node.ComesFrom outer inner (.element block.header [])
  before : ∀ block ∈ r.blocks, ∀ n ∈ Node.preorderList block.before, n.ComesFrom outer inner

theorem mem_preorderList_reverse
    {ns : List Node}
    {n : Node} :
    n ∈ Node.preorderList ns.reverse ↔ n ∈ Node.preorderList ns := by
  simp [Node.preorderList_eq_flatMap]

/-- One step: a node whose parts all come from tokens may be added. -/
theorem Sound.add
    {r : Reader}
    (h : r.Sound outer inner)
    {n : Node}
    (hn : ∀ m ∈ n.preorder, m.ComesFrom outer inner) :
    (r.add n).Sound outer inner := by
  refine ⟨?_, h.headers, h.before⟩
  rw [Reader.add, Node.preorderList, List.forall_mem_append]
  exact ⟨hn, h.nodes⟩

theorem Sound.enter
    {r : Reader}
    (h : r.Sound outer inner)
    {header : Header}
    (hheader : Node.ComesFrom outer inner (.element header []))
    (brace : Position) :
    (r.enter header brace).Sound outer inner := by
  refine ⟨by simp [Reader.enter, Node.preorderList], ?_, ?_⟩
  · exact List.forall_mem_cons.2 ⟨hheader, h.headers⟩
  · exact List.forall_mem_cons.2 ⟨h.nodes, h.before⟩

/-- One step: closing a block turns it into a node of the block around it. -/
theorem Sound.close
    {r : Reader}
    (h : r.Sound outer inner)
    {block : OpenBlock}
    {blocks : List OpenBlock}
    (hblocks : r.blocks = block :: blocks) :
    Sound outer inner { r with
      blocks
      nodes := .element block.header r.nodes.reverse :: block.before } := by
  obtain ⟨hnodes, hheaders, hbefore⟩ := h
  rw [hblocks, List.forall_mem_cons] at hheaders hbefore
  refine ⟨?_, hheaders.2, hbefore.2⟩
  rw [Node.preorderList, Node.preorder, List.forall_mem_append, List.forall_mem_cons]
  exact ⟨⟨hheaders.1, fun n hn => hnodes n (mem_preorderList_reverse.1 hn)⟩, hbefore.1⟩

theorem Sound.finish
    {r : Reader}
    (h : r.Sound outer inner)
    {document : Document}
    (hfinish : r.finish = .ok document) :
    ∀ n ∈ Node.preorderList document, n.ComesFrom outer inner := by
  unfold Reader.finish at hfinish
  split at hfinish
  · simp only [Except.ok.injEq] at hfinish
    subst hfinish
    exact fun n hn => h.nodes n (mem_preorderList_reverse.1 hn)
  · simp at hfinish

/-- A whole run: every node of a document that is read comes from tokens. -/
theorem run_sound
    {r : Reader}
    {tokens : List Token}
    {document : Document}
    (hrun : r.run last tokens = .ok document)
    (htokens : Bracketed outer inner false tokens)
    (h : r.Sound outer inner) :
    ∀ n ∈ Node.preorderList document, n.ComesFrom outer inner := by
  fun_induction Reader.run last r tokens with
  | case1 r =>
      exact h.finish hrun
  | case2 r t tail hkind =>
      exact h.finish hrun
  | case3 r t tail hkind ih =>
      exact ih hrun (bracketed_tail htokens (by simp [hkind]) (by simp [hkind])).2 ⟨h.1, h.2, h.3⟩
  | case4 r t tail hkind ih =>
      exact ih hrun (bracketed_tail htokens (by simp [hkind]) (by simp [hkind])).2 ⟨h.1, h.2, h.3⟩
  | case5 r t tail hkind ih =>
      exact ih hrun (bracketed_tail htokens (by simp [hkind]) (by simp [hkind])).2 ⟨h.1, h.2, h.3⟩
  | case7 r t tail hkind block outerBlocks hblocks element ih =>
      have helement : element = .element block.header r.nodes.reverse := by simp [element]
      rw [helement] at ih
      exact ih hrun (bracketed_tail htokens (by simp [hkind]) (by simp [hkind])).2 (h.close hblocks)
  | case8 r t tail hkind ih =>
      obtain ⟨ht, htail⟩ := bracketed_tail htokens (by simp [hkind]) (by simp [hkind])
      refine ih hrun htail (h.add ?_)
      rw [Node.preorder, List.forall_mem_singleton]
      exact ⟨t, ht, hkind, rfl, rfl⟩
  | case10 r t tail hkind header hheader _ ih =>
      obtain ⟨ht, htail⟩ := bracketed_tail htokens (by simp [hkind]) (by simp [hkind])
      obtain ⟨hfrom, hrest⟩ := header_sound hheader ht htail
      refine ih hrun hrest (h.add ?_)
      simpa [Node.preorder, Node.preorderList] using hfrom
  | case12 r t tail hkind header brace inside hheader hbrace hdepth _ ih =>
      obtain ⟨ht, htail⟩ := bracketed_tail htokens (by simp [hkind]) (by simp [hkind])
      obtain ⟨hfrom, hrest⟩ := header_sound hheader ht htail
      exact ih hrun (bracketed_tail hrest (by simp [hbrace]) (by simp [hbrace])).2 (h.enter hfrom _)
  | case13 r t tail hkind header brace inside hheader hbrace _ ih =>
      obtain ⟨ht, htail⟩ := bracketed_tail htokens (by simp [hkind]) (by simp [hkind])
      obtain ⟨hfrom, hrest⟩ := header_sound hheader ht htail
      refine ih hrun hrest (h.add ?_)
      simpa [Node.preorder, Node.preorderList] using hfrom
  | _ => simp at hrun

end Reader

namespace Node

/-- What a node is written with in the source: its tag or its text. -/
def wording : Node → String
  | element header _ => header.tag
  | text run => run.value

theorem ComesFrom.unmarked
    {outer inner : Token → Prop}
    {n : Node}
    (h : n.ComesFrom outer inner) :
    n.unmarked.ComesFrom outer inner := by
  cases n <;> exact h

theorem ComesFrom.stands
    {source : List Char}
    {inner : Token → Prop}
    {n : Node}
    (h : n.ComesFrom (Token.Faithful source) inner) :
    Text.Stands source n.position n.wording.toList := by
  cases n with
  | element header children =>
      obtain ⟨⟨t, ht, htag, hposition⟩, -⟩ := h
      simpa [position, wording, htag, hposition] using ht.stands
  | text run =>
      obtain ⟨t, ht, -, hvalue, hposition⟩ := h
      simpa [position, wording, hvalue, hposition] using ht.stands

end Node

namespace Document

/-- The nodes of a document come from the tokens that the scanner has found in the source. -/
theorem parse_sound
    {source file : String}
    {document : Document}
    (hparse : parse source file = .ok document) :
    ∀ n ∈ Node.preorderList document,
      n.ComesFrom (Token.Faithful source.toList) Token.NamesAttribute := by
  unfold parse at hparse
  split at hparse
  · simp at hparse
  · next tokens hscan =>
      split at hparse
      · simp at hparse
      · next found hfound =>
          simp only [Except.ok.injEq] at hparse
          subst hparse
          have hstart : Reader.start.Sound (Token.Faithful source.toList) Token.NamesAttribute :=
            ⟨by simp [Reader.start, Node.preorderList], by simp [Reader.start],
              by simp [Reader.start]⟩
          exact Reader.run_sound hfound (Token.scan_sound hscan) hstart

/-- Every node of a document that was read carries pieces of the source. -/
theorem read_sound
    {source file : String}
    {document : Document}
    (hread : read source file = .ok document) :
    ∀ n ∈ Node.preorderList document,
      n.ComesFrom (Token.Faithful source.toList) Token.NamesAttribute := by
  unfold read at hread
  split at hread
  · simp at hread
  · next parsed hparse =>
      unfold nestFrom at hread
      split at hread
      · simp at hread
      · next nested hnest =>
          simp only [Except.ok.injEq] at hread
          subst hread
          obtain ⟨hwell, rfl⟩ := (nest_eq_ok_iff _ _).1 hnest
          rw [preorderList_arranged hwell, List.forall_mem_map]
          exact fun n hn => (parse_sound hparse n hn).unmarked

end Document

end BlockMarkup
