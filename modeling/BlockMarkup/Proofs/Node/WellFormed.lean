import BlockMarkup.Proofs.Attribute.Inline
import BlockMarkup.Proofs.Node.LineMarkers
import BlockMarkup.Proofs.Node.Visits
import BlockMarkup.Proofs.Page.Shown
import BlockMarkup.Proofs.Token.Zones

/-!
# Documents that are read are well formed

What validation and the outputs may rely on in every document that was read from a source. The
characters of tags, names and texts come from the scanner, the names of attributes are kept apart
by the reader, and their values are the ones that the names ask for. The order of the nodes is that
of their places in the source, and nesting keeps it.

The tokens of a source have the shapes for their zones, and a derivation knows which of its tokens
stand in which zone. So the labels are read off the derivation of a document
(`Grammar.Content.wellFormed`).
-/

namespace BlockMarkup

/-- Whether what is written of an element has the form that the language asks for. -/
structure Header.WellFormed (h : Header) : Prop where
  tag : isIdentifier h.tag = true
  names : ∀ name ∈ h.id.toList ++ h.classes, Token.IsName name.toList
  keys : ∀ key ∈ h.attributes.keys, Token.IsKey key.toList
  distinct : h.attributes.keys.Nodup
  kinds : ∀ entry ∈ h.attributes.entries, entry.2.GoesBy entry.1
  styles : ∀ name style, (name, .style style) ∈ h.attributes.entries → style.WellFormed

/-- Whether the label of a node is well formed. -/
def Node.WellFormed : Node → Prop
  | element header _ => header.WellFormed
  | text run => Token.IsRun run.value.toList

/-- Whether the nodes of a document are well formed and stand at later and later places. -/
structure Document.WellFormed (document : Document) : Prop where
  nodes : ∀ n ∈ Node.preorderList document, n.WellFormed
  ordered : (Node.preorderList document).Pairwise fun n later => n.position.Before later.position

namespace Grammar

open Token

variable {rest : List Token}

/-- A token that opens neither a name nor a list leaves the zone of nodes as it is. -/
theorem zoned_tail
    {t : Token}
    (h : Zoned .nodes (t :: rest))
    (hdot : t.kind ≠ .dot)
    (hhash : t.kind ≠ .hash)
    (hopen : t.kind ≠ .parenOpen) :
    Zoned .nodes rest := by
  have hrest := h.2
  rwa [Zone.behind, if_neg (not_or.2 ⟨hdot, hhash⟩), if_neg hopen] at hrest

theorem Decoration.isName
    {ds : List Decoration}
    (h : Zoned .nodes (ds.flatMap tokens ++ rest)) :
    (∀ name ∈ ds.filterMap id? ++ ds.filterMap className?, IsName name.toList) ∧
      Zoned .nodes rest := by
  induction ds with
  | nil =>
      exact ⟨by simp, h⟩
  | cons d ds ih =>
      rw [List.flatMap_cons, List.append_assoc] at h
      cases d with
      | className dot name =>
          simp only [tokens, List.cons_append, List.nil_append, Zoned, Zone.behind, dot.2,
            true_or, if_true] at h
          obtain ⟨-, hname, hmore⟩ := h
          obtain ⟨hnames, hrest⟩ := ih hmore
          refine ⟨?_, hrest⟩
          simp only [List.mem_append] at hnames
          simp only [List.filterMap_cons, id?, className?, List.mem_append, List.mem_cons]
          rintro word (hid | rfl | hclass)
          · exact hnames word (Or.inl hid)
          · exact hname.2
          · exact hnames word (Or.inr hclass)
      | id hash name =>
          simp only [tokens, List.cons_append, List.nil_append, Zoned, Zone.behind, hash.2,
            or_true, if_true] at h
          obtain ⟨-, hname, hmore⟩ := h
          obtain ⟨hnames, hrest⟩ := ih hmore
          refine ⟨?_, hrest⟩
          simp only [List.filterMap_cons, id?, className?, List.cons_append]
          exact List.forall_mem_cons.2 ⟨hname.2, hnames⟩

theorem Pair.isKey
    {p : Pair}
    (h : Zoned .list (p.tokens ++ rest)) :
    IsKey p.key.toList ∧ Zoned .list rest := by
  simp only [tokens, List.cons_append, List.nil_append, Zoned, Zone.behind, p.name.2, p.colon.2,
    p.value.2, reduceCtorEq, if_false] at h
  exact ⟨h.1.2 p.name.2, h.2.2.2⟩

theorem Pairs.isKey
    {ps : Pairs}
    (h : Zoned .list (ps.tokens ++ rest)) :
    (∀ p ∈ ps.toList, IsKey p.key.toList) ∧ Zoned .list rest := by
  have hbehind : ∀ {comma : Terminal .comma} {more : List Token},
      Zoned .list (comma.1 :: more) → Zoned .list more := by
    intro comma more hmore
    have hrest := hmore.2
    rwa [Zone.behind, if_neg (by simp)] at hrest
  induction ps with
  | one p =>
      obtain ⟨hp, hrest⟩ := Pair.isKey h
      exact ⟨by simpa [toList] using hp, hrest⟩
  | trailing p comma =>
      rw [tokens, List.append_assoc] at h
      obtain ⟨hp, hmore⟩ := Pair.isKey h
      exact ⟨by simpa [toList] using hp, hbehind hmore⟩
  | more p comma ps ih =>
      rw [tokens, List.append_assoc] at h
      obtain ⟨hp, hmore⟩ := Pair.isKey h
      obtain ⟨hps, hrest⟩ := ih (hbehind hmore)
      exact ⟨List.forall_mem_cons.2 ⟨hp, hps⟩, hrest⟩

theorem Parens.isKey
    {ps : Parens}
    (h : Zoned .nodes (ps.tokens ++ rest)) :
    (∀ p ∈ ps.pairs, IsKey p.key.toList) ∧ Zoned .nodes rest := by
  cases ps with
  | absent =>
      exact ⟨by simp [pairs], h⟩
  | empty opening closing =>
      simp only [tokens, List.cons_append, List.nil_append, Zoned, Zone.behind, opening.2,
        closing.2, reduceCtorEq, or_self, if_true, if_false] at h
      exact ⟨by simp [pairs], h.2.2⟩
  | filled opening ps closing =>
      simp only [tokens, List.cons_append, List.append_assoc, Zoned, Zone.behind, opening.2,
        reduceCtorEq, or_self, if_true, if_false] at h
      obtain ⟨hps, hclosing⟩ := Pairs.isKey h.2
      have hrest := hclosing.2
      rw [Zone.behind, if_pos closing.2] at hrest
      exact ⟨hps, hrest⟩

/-- The header of a heading is well-formed. -/
theorem Heading.wellFormed
    {heading : Heading}
    (h : Zoned .nodes (heading.tokens ++ rest)) :
    (heading.header none).WellFormed ∧ Zoned .nodes rest := by
  have hbehind : Zoned .nodes (heading.behind ++ rest) := zoned_tail h (by simp) (by simp) (by simp)
  rw [behind, List.append_assoc] at hbehind
  obtain ⟨hnames, hparens⟩ := Decoration.isName hbehind
  obtain ⟨hkeys, hrest⟩ := Parens.isKey hparens
  have hsuits : ∀ p ∈ heading.parens.pairs, Attribute.Suits p.entry.1 p.entry.2 := fun p hp =>
    ⟨p.text, Pair.derive_eq_ok (heading.readable p hp)⟩
  have hall : (heading.header none).attributes.keys = heading.parens.pairs.map Pair.key := by
    simp [header, Dict.keys, Function.comp_def, Pair.entry]
  refine ⟨⟨h.1.1 heading.tag.2, fun name hname => ?_, ?_, ?_, ?_, fun name style hstyle => ?_⟩,
    hrest⟩
  · refine hnames name ?_
    rw [List.mem_append] at hname ⊢
    exact hname.imp_left fun hid => List.mem_of_mem_head? (Option.mem_toList.1 hid)
  · rw [hall, List.forall_mem_map]
    exact hkeys
  · rw [hall]
    exact heading.keys_nodup
  · exact List.forall_mem_map.2 fun p hp => (hsuits p hp).goesBy
  · obtain ⟨p, hp, hentry⟩ := List.mem_map.1 hstyle
    have hvalue := hsuits p hp
    rw [hentry] at hvalue
    exact hvalue.wellFormed

/-- The labels of the nodes that a derivation stands for are well formed. -/
theorem Content.wellFormed
    {c : Content}
    (h : Zoned .nodes (c.tokens ++ rest)) :
    (∀ n ∈ Node.preorderList c.nodes, n.WellFormed) ∧ Zoned .nodes rest := by
  induction c generalizing rest with
  | nil =>
      exact ⟨by simp [nodes, Node.preorderList], h⟩
  | layout token more ih =>
      have hkind : token.1.kind ≠ .dot ∧ token.1.kind ≠ .hash ∧ token.1.kind ≠ .parenOpen := by
        obtain hkind | hkind | hkind := token.2 <;> simp [hkind]
      exact ih (zoned_tail h hkind.1 hkind.2.1 hkind.2.2)
  | text run more ih =>
      obtain ⟨hnodes, hrest⟩ := ih (zoned_tail h (by simp) (by simp) (by simp))
      exact ⟨List.forall_mem_cons.2 ⟨h.1.2 run.2, hnodes⟩, hrest⟩
  | element heading more ih =>
      rw [tokens, List.append_assoc] at h
      obtain ⟨hheading, hmore⟩ := Heading.wellFormed h
      obtain ⟨hnodes, hrest⟩ := ih hmore
      exact ⟨List.forall_mem_cons.2 ⟨hheading, hnodes⟩, hrest⟩
  | block heading opening inside closing more ihinside ih =>
      rw [tokens, List.append_assoc] at h
      obtain ⟨hheading, hopening⟩ := Heading.wellFormed h
      have hblock : Zoned .nodes ((inside.tokens ++ closing.1 :: more.tokens) ++ rest) :=
        zoned_tail hopening (by simp) (by simp) (by simp)
      rw [List.append_assoc] at hblock
      obtain ⟨hchildren, hclosing⟩ := ihinside hblock
      obtain ⟨hnodes, hrest⟩ := ih (zoned_tail hclosing (by simp) (by simp) (by simp))
      refine ⟨?_, hrest⟩
      rw [nodes, Node.preorderList, Node.preorder, List.forall_mem_append]
      exact ⟨List.forall_mem_cons.2 ⟨hheading, hchildren⟩, hnodes⟩

end Grammar

namespace Node

theorem preorder_relabel
    (ρ : Relabelling)
    (n : Node) :
    (n.relabel ρ).preorder = n.preorder.map (relabel ρ) := by
  induction n with
  | element header children ih =>
      have hchildren : (children.map (relabel ρ)).flatMap preorder =
          children.flatMap fun child => child.preorder.map (relabel ρ) := by
        rw [List.flatMap_map]
        exact List.flatMap_congr ih
      simp [preorder, preorderList_eq_flatMap, hchildren, List.map_flatMap]
  | text run =>
      simp [preorder]

theorem preorderList_relabel
    (ρ : Relabelling)
    (ns : List Node) :
    preorderList (ns.map (relabel ρ)) = (preorderList ns).map (relabel ρ) := by
  rw [preorderList_eq_flatMap, preorderList_eq_flatMap, List.flatMap_map, List.map_flatMap]
  exact List.flatMap_congr fun n _ => n.preorder_relabel ρ

/-- Line markers have no part in being well formed. -/
theorem WellFormed.unmarked
    {n : Node}
    (h : (n.relabel .unmarked).WellFormed) :
    n.unmarked.WellFormed := by
  cases n with
  | element header children =>
      rw [relabel_element] at h
      exact ⟨h.tag, h.names, h.keys, h.distinct, h.kinds, h.styles⟩
  | text run =>
      rw [relabel_text] at h
      exact h

end Node

namespace Document

variable {source file : String} {document : Document}

/-- What is parsed is well-formed, but for the markers of its lines. -/
theorem parse_wellFormed
    (hparse : parse source file = .ok document) :
    ∀ n ∈ Node.preorderList document, n.unmarked.WellFormed := by
  unfold parse at hparse
  split at hparse
  · simp at hparse
  · next tokens hscan =>
      split at hparse
      · simp at hparse
      · next found hfound =>
          simp only [Except.ok.injEq] at hparse
          subst hparse
          obtain ⟨c, rest, rfl, -, -, hnodes⟩ := exists_derivation hfound
          have hwell := (Grammar.Content.wellFormed (Token.scan_zoned hscan)).1
          rw [← hnodes, Node.preorderList_relabel, List.forall_mem_map] at hwell
          exact fun n hn => (hwell n hn).unmarked

/-- Every node that is read is well-formed. -/
theorem read_labels_wellFormed
    (hread : read source file = .ok document) :
    ∀ n ∈ Node.preorderList document, n.WellFormed := by
  unfold read at hread
  split at hread
  · simp at hread
  · next parsed hparse =>
      unfold nestFrom at hread
      split at hread
      · simp at hread
      · next nested hnest =>
          simp only [Except.ok.injEq] at hread
          subst hread
          obtain ⟨hwell, rfl⟩ := (nest_eq_ok_iff _ _).1 hnest
          rw [preorderList_arranged hwell, List.forall_mem_map]
          exact parse_wellFormed hparse

end Document

/-! ## Tags in validation -/

theorem Attribute.rule_ne_invalidTag
    (position : Position)
    (name : String)
    (value : Attribute) :
    ∀ d ∈ value.errors position name, d.rule ≠ .invalidTag := by
  intro d hd
  cases value with
  | text value =>
      simp only [errors] at hd
      split at hd
      · split at hd
        · cases hd
        · rw [List.mem_singleton.1 hd]
          simp
      · cases hd
  | style declarations =>
      obtain ⟨⟨property, value⟩, -, hd⟩ := List.mem_flatMap.1 hd
      rcases List.mem_append.1 hd with hd | hd
      · rw [eq_of_mem_ite (Or.inr hd)]
        simp
      · rw [eq_of_mem_ite (Or.inr hd)]
        simp
  | directive directive =>
      rw [eq_of_mem_ite (Or.inl hd)]
      simp

/-- Only the tag of an element can be complained about as a tag. -/
theorem Header.rule_ne_invalidTag
    {h : Header}
    (htag : isIdentifier h.tag = true) :
    ∀ d ∈ h.errors, d.rule ≠ .invalidTag := by
  intro d hd
  simp only [errors, tagErrors, htag, if_true, List.nil_append, List.mem_append] at hd
  rcases hd with (hid | hclass) | hattribute
  · unfold idErrors at hid
    split at hid
    · cases hid
    · rw [eq_of_mem_ite (Or.inr hid)]
      simp
  · obtain ⟨name, -, hname⟩ := List.mem_flatMap.1 hclass
    rw [eq_of_mem_ite (Or.inr hname)]
    simp
  · obtain ⟨⟨name, value⟩, -, hvalue⟩ := List.mem_flatMap.1 hattribute
    exact Attribute.rule_ne_invalidTag h.position name value d hvalue

namespace Document

variable {source file : String} {document : Document}

/-- Every document that is read is well formed. So validation never complains about a tag. -/
theorem read_wellFormed
    (hread : read source file = .ok document) :
    document.WellFormed ∧
      ∀ threshold, ∀ d ∈ (document.validate file threshold).errors ++
        (document.validate file threshold).warnings, d.rule ≠ .invalidTag := by
  have hlabels := read_labels_wellFormed hread
  refine ⟨⟨hlabels, read_ordered hread⟩, fun threshold => ?_⟩
  rw [List.forall_mem_append]
  constructor
  · intro d hd
    rw [errors_validate] at hd
    obtain ⟨e, he, hd⟩ := List.mem_flatMap.1 hd
    have hheader : e.header ∈ document.headers := by
      rw [← elements_map_header]
      exact List.mem_map_of_mem he
    obtain ⟨children, hnode⟩ := mem_preorderList_of_mem_headers hheader
    exact Header.rule_ne_invalidTag (hlabels _ hnode).tag d hd
  · intro d hd htag
    have hwarning := severity_of_mem_warnings document file threshold hd
    rw [Diagnostic.severity, htag] at hwarning
    cases hwarning

/-- Names with strange characters, a colour mark, a style with a repeated property, an attribute
list on two lines, and texts that a header and a brace cut off. -/
def strangeSource : String :=
  "div.☂x#1st(⚡\uFE0F-call: 'go',\n  style: \" color : red;; color: a:b ;\", _x: '\x7b') \x7b\n" ++
    "  some text p.a \x7b\x7d more  \x7d\n  \x0b\nlast\n"

theorem read_wellFormed_strangeSource :
    ∃ document, read strangeSource "index" = .ok document ∧
      (Node.preorderList document).length = 6 ∧ document.WellFormed ∧
        ∀ threshold, ∀ d ∈ (document.validate "index" threshold).errors ++
          (document.validate "index" threshold).warnings, d.rule ≠ .invalidTag := by
  have hlength : (read strangeSource "index").toOption.map
      (fun document => (Node.preorderList document).length) = some 6 := by decide +kernel
  cases hread : read strangeSource "index" with
  | error e =>
      simp [hread, Except.toOption] at hlength
  | ok document =>
      simp only [hread, Except.toOption, Option.map_some, Option.some.injEq] at hlength
      exact ⟨document, rfl, hlength, read_wellFormed hread⟩

end Document

end BlockMarkup
