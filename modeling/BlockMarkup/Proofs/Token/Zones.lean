import BlockMarkup.Proofs.Token.Starts

/-!
# What tokens look like, zone by zone

The scanner decides by looking ahead what a token is, and it takes characters of one class for it.
So the text of a token has a shape that its kind alone does not tell: an identifier is a tag among
nodes, a name behind the mark of a class or an id, and the name of an attribute in a list. Here the
zones are followed from token to token (`Token.Zoned`), and every reading function is shown to
come back to the zone that it has started from with tokens of the right shape.
-/

namespace BlockMarkup

namespace Token

/-- A class or an id. -/
structure IsName (name : List Char) : Prop where
  nonempty : name ≠ []
  chars : ∀ c ∈ name,
    Text.isBlank c = false ∧ c ∉ ['.', '#', '(', ')', '{', '}', ':', ',', '"', '\'']

/-- The name of an attribute as it is kept. -/
structure IsKey (name : List Char) : Prop where
  first : ∃ c rest, name = c :: rest ∧ (isAsciiLetter c = true ∨ c = '_' ∨ c = '⚡')
  unmarked : '\uFE0F' ∉ name

/-- The text of a run. It may be empty. -/
structure IsRun (text : List Char) : Prop where
  chars : ∀ c ∈ text, c ≠ '{' ∧ c ≠ '}' ∧ c ≠ '\n'
  last : ∀ c ∈ text.getLast?, Text.isBlank c = false

/-- The zone behind a token. -/
def Zone.behind : Zone → Token → Zone
  | .nodes, t =>
    if t.kind = .dot ∨ t.kind = .hash then .name
    else if t.kind = .parenOpen then .list
    else .nodes
  | .name, _ => .nodes
  | .list, t => if t.kind = .parenClose then .nodes else .list

/-- What a token looks like in its zone. Lines end among nodes only. -/
def Shaped : Zone → Token → Prop
  | .nodes, t =>
    (t.kind = .identifier → isIdentifier t.text = true) ∧ (t.kind = .textRun → IsRun t.text.toList)
  | .name, t => t.kind = .identifier ∧ IsName t.text.toList
  | .list, t => t.kind ≠ .newline ∧ (t.kind = .identifier → IsKey t.text.toList)

/-- Whether every token has the shape for its zone; the first one stands in `zone`. -/
def Zoned (zone : Zone) : List Token → Prop
  | [] => True
  | t :: rest => Shaped zone t ∧ Zoned (zone.behind t) rest

/-- Whether tokens lead from one zone to another, each of them in the shape for its zone. -/
def Leads
    (zone : Zone)
    (tokens : List Token)
    (after : Zone) : Prop :=
  ∀ rest, Zoned after rest → Zoned zone (tokens ++ rest)

section Leads

variable {zone between after : Zone} {t : Token} {tokens more : List Token}

theorem Leads.refl
    (zone : Zone) :
    Leads zone [] zone :=
  fun _ hrest => hrest

theorem Leads.cons
    (ht : Shaped zone t)
    (htokens : Leads (zone.behind t) tokens after) :
    Leads zone (t :: tokens) after :=
  fun rest hrest => ⟨ht, htokens rest hrest⟩

theorem Leads.trans
    (htokens : Leads zone tokens between)
    (hmore : Leads between more after) :
    Leads zone (tokens ++ more) after := by
  intro rest hrest
  rw [List.append_assoc]
  exact htokens _ (hmore rest hrest)

/-- The tokens that say nothing about a node: they have any text, and nodes go on behind them. -/
theorem leads_mark
    (hidentifier : t.kind ≠ .identifier)
    (hrun : t.kind ≠ .textRun)
    (hzone : Zone.behind .nodes t = .nodes) :
    Leads .nodes [t] .nodes := by
  refine Leads.cons ⟨fun h => absurd h hidentifier, fun h => absurd h hrun⟩ ?_
  rw [hzone]
  exact .refl .nodes

theorem Leads.list_cons
    (hnewline : t.kind ≠ .newline)
    (hclose : t.kind ≠ .parenClose)
    (hkey : t.kind = .identifier → IsKey t.text.toList)
    (htokens : Leads .list tokens after) :
    Leads .list (t :: tokens) after := by
  refine Leads.cons ⟨hnewline, hkey⟩ ?_
  rw [Zone.behind, if_neg hclose]
  exact htokens

end Leads

section Reading

variable {c stop : Cursor} {tokens : List Token}

theorem isName_of_isNameChar
    {first : Char}
    (hfirst : isNameChar first = true)
    (rest : List Char) :
    IsName (first :: rest.takeWhile isNameChar) := by
  refine ⟨List.cons_ne_nil _ _, fun c hc => ?_⟩
  have hchar : isNameChar c = true := by
    rcases List.mem_cons.1 hc with rfl | hc
    · exact hfirst
    · exact List.mem_takeWhile_imp hc
  rw [isNameChar, Bool.and_eq_true, Bool.not_eq_true', Bool.not_eq_true'] at hchar
  exact ⟨hchar.1, fun hmem => by simp [nameEnds, hmem] at hchar⟩

/-- Classes and an id have the shape of names. -/
theorem decorations_leads
    (c : Cursor) :
    Leads .nodes (decorations c).1 .nodes := by
  fun_induction decorations c with
  | case1 mark first rest position hmark place name tokens stop hstop ih =>
      rw [hstop] at ih
      rw [Bool.and_eq_true] at hmark
      have hkind : (single (if mark = '.' then .dot else .hash) mark position).kind = .dot ∨
          (single (if mark = '.' then .dot else .hash) mark position).kind = .hash := by
        by_cases hdot : mark = '.'
        · exact Or.inl (by simp [single, hdot])
        · exact Or.inr (by simp [single, hdot])
      have hname : Shaped .name ⟨.identifier, String.ofList name, place⟩ :=
        ⟨rfl, by simpa using isName_of_isNameChar hmark.2 rest⟩
      refine Leads.cons ⟨fun h => ?_, fun h => ?_⟩ ?_
      · rcases hkind with hkind | hkind <;> rw [hkind] at h <;> cases h
      · rcases hkind with hkind | hkind <;> rw [hkind] at h <;> cases h
      · rw [Zone.behind, if_pos hkind]
        exact Leads.cons hname ih
  | case2 mark first rest position hmark =>
      exact .refl .nodes
  | case3 c hshort =>
      exact .refl .nodes

theorem isKey_filter
    {first : Char}
    (hfirst : isAttributeStart first = true)
    (rest : List Char) :
    IsKey ((first :: rest).filter (· != colourMark)) := by
  have hmark : first ≠ colourMark := by
    rintro rfl
    exact absurd hfirst (by decide)
  refine ⟨⟨first, rest.filter (· != colourMark), by simp [hmark], ?_⟩, ?_⟩
  · simpa [isAttributeStart, or_assoc] using hfirst
  · intro hmem
    have hkept := (List.mem_filter.1 hmem).2
    exact absurd hkept (by decide)

/-- An attribute list goes on to the first parenthesis that closes one. -/
theorem attributeList_leads
    {opened : Position}
    (hread : attributeList opened c = .ok (tokens, stop)) :
    Leads .list tokens .nodes := by
  fun_induction attributeList opened c generalizing tokens stop with
  | case1 => simp at hread
  | case2 =>
      rename_i ih
      exact ih hread
  | case3 rest position hclose =>
      simp only [Except.ok.injEq, Prod.mk.injEq] at hread
      obtain ⟨rfl, rfl⟩ := hread
      exact Leads.cons ⟨by simp [single], by simp [single]⟩ (.refl .nodes)
  | case4 =>
      rename_i ih
      obtain ⟨more, hmore, rfl⟩ := exists_of_map_followedBy hread
      exact (ih hmore).list_cons (by simp [single]) (by simp [single]) (by simp [single])
  | case5 =>
      rename_i ih
      obtain ⟨more, hmore, rfl⟩ := exists_of_map_followedBy hread
      exact (ih hmore).list_cons (by simp [single]) (by simp [single]) (by simp [single])
  | case6 => simp at hread
  | case7 first rest position _ _ _ _ _ value literalStop hliteral ih =>
      obtain ⟨more, hmore, rfl⟩ := exists_of_map_followedBy hread
      exact (ih hmore).list_cons (by simp) (by simp) (by simp)
  | case8 first rest position _ _ _ _ _ hstart name =>
      rename_i ih
      obtain ⟨more, hmore, rfl⟩ := exists_of_map_followedBy hread
      refine (ih hmore).list_cons (by simp) (by simp) fun _ => ?_
      simpa using isKey_filter hstart (rest.takeWhile isAttributeChar)
  | case9 => simp at hread

theorem isIdentifier_takeWhile
    {first : Char}
    (hfirst : isAsciiLetter first = true)
    (rest : List Char) :
    isIdentifier (String.ofList ((first :: rest).takeWhile isIdentifierChar)) = true := by
  have hchar : isIdentifierChar first = true := by
    simp [isIdentifierChar, isAsciiAlphanumeric, hfirst]
  rw [isIdentifier, String.toList_ofList, List.takeWhile_cons_of_pos hchar, isIdentifierChars,
    hfirst, Bool.true_and, List.all_eq_true]
  exact fun c hc => List.mem_takeWhile_imp hc

/-- A header is a tag, its classes and ids, and perhaps a list. -/
theorem header_leads
    {first : Char}
    {rest : List Char}
    {position : Position}
    (hfirst : isAsciiLetter first = true)
    (hread : header ⟨first :: rest, position⟩ = .ok (tokens, stop)) :
    Leads .nodes tokens .nodes := by
  have htag : Leads .nodes (⟨.identifier, String.ofList
      (Cursor.span ⟨first :: rest, position⟩ isIdentifierChar).1, position⟩ ::
        (decorations (Cursor.span ⟨first :: rest, position⟩ isIdentifierChar).2).1) .nodes :=
    Leads.cons ⟨fun _ => isIdentifier_takeWhile hfirst rest, by simp⟩ (decorations_leads _)
  unfold header at hread
  simp only at hread
  split at hread
  · next list opened hopen =>
      cases hlist : attributeList opened ⟨list, opened.next '('⟩ with
      | error e =>
          simp [hlist, Except.map] at hread
      | ok read =>
          simp only [hlist, Except.map, Except.ok.injEq, Prod.mk.injEq] at hread
          obtain ⟨rfl, rfl⟩ := hread
          exact htag.trans (Leads.cons ⟨by simp [single], by simp [single]⟩
            (attributeList_leads hlist))
  · simp only [Except.ok.injEq, Prod.mk.injEq] at hread
    obtain ⟨rfl, rfl⟩ := hread
    exact htag

/-- A text run has neither braces nor line breaks. -/
theorem ne_of_mem_textSpan
    (afterBlank : Bool)
    (cs : List Char) :
    ∀ c ∈ (textSpan afterBlank cs).1, c ≠ '{' ∧ c ≠ '}' ∧ c ≠ '\n' := by
  induction cs generalizing afterBlank with
  | nil =>
      simp [textSpan]
  | cons c rest ih =>
      unfold textSpan
      split
      · simp
      · next hc =>
          split
          · simp
          · simp only [Bool.or_eq_true, decide_eq_true_eq, not_or] at hc
            exact List.forall_mem_cons.2 ⟨⟨hc.1.1, hc.1.2, hc.2⟩, ih _⟩

theorem isBlank_getLast?_dropBlankEnd
    (cs : List Char) :
    ∀ c ∈ (Text.dropBlankEnd cs).getLast?, Text.isBlank c = false := by
  intro c hc
  rw [Text.dropBlankEnd, List.getLast?_reverse] at hc
  have hnot := List.head?_dropWhile_not Text.isBlank cs.reverse
  rw [hc] at hnot
  simpa using hnot

/-- A text run has the shape of one: no braces, no line break, and no white space at its end. -/
theorem textRun_leads
    (c : Cursor) :
    Leads .nodes [(textRun c).1] .nodes := by
  have hkept := dropBlankEnd_prefix (textSpan false c.rest).1
  have hrun : IsRun (Text.dropBlankEnd (textSpan false c.rest).1) :=
    ⟨fun d hd => ne_of_mem_textSpan false c.rest d (hkept.subset hd),
      isBlank_getLast?_dropBlankEnd _⟩
  exact Leads.cons ⟨by simp [textRun], fun _ => by simpa [textRun] using hrun⟩ (.refl .nodes)

end Reading

end Token

namespace Scanner

open Token

theorem beginLine_leads
    (c : Cursor)
    (lineWidth : Nat) :
    Leads .nodes (beginLine c lineWidth).1 .nodes := by
  unfold beginLine
  simp only
  split
  · exact .refl .nodes
  · split
    · exact leads_mark (by simp) (by simp) (by simp [Zone.behind])
    · split
      · exact leads_mark (by simp) (by simp) (by simp [Zone.behind])
      · exact .refl .nodes

/-- One step of the scanner starts and ends outside of lists. -/
theorem step_leads
    {s next : Scanner}
    {c : Char}
    {rest : List Char}
    {read : List Token}
    (hstep : s.step c rest = .ok (read, next)) :
    Leads .nodes read .nodes := by
  cases steps_of_step hstep with
  | newline hline =>
      have hbreak : Leads .nodes [single .newline c s.cursor.position] .nodes :=
        leads_mark (by simp [single]) (by simp [single]) (by simp [Zone.behind, single])
      exact hbreak.trans (beginLine_leads _ _)
  | gap hgap =>
      exact .refl .nodes
  | braceOpen hbrace =>
      exact leads_mark (by simp [single]) (by simp [single]) (by simp [Zone.behind, single])
  | braceClose hbrace =>
      exact leads_mark (by simp [single]) (by simp [single]) (by simp [Zone.behind, single])
  | header hgap hmark hahead hread =>
      have hletter : isAsciiLetter c = true := by
        simp only [headerAhead, Bool.and_eq_true] at hahead
        exact hahead.1
      exact header_leads hletter hread
  | text hgap hmark =>
      exact textRun_leads _

/-- All tokens of a run have the shape that their zone asks for. -/
theorem tokens_zoned
    {s : Scanner}
    {tokens : List Token}
    (htokens : s.tokens = .ok tokens) :
    Zoned .nodes tokens := by
  fun_induction Scanner.tokens s generalizing tokens with
  | case1 s hrest =>
      simp only [Except.ok.injEq] at htokens
      subst htokens
      exact ⟨⟨by simp, by simp⟩, trivial⟩
  | case2 s c rest hrest e hstep =>
      simp at htokens
  | case3 s c rest hrest read next hstep ih =>
      cases hmore : next.tokens with
      | error e =>
          simp [hmore, Except.map] at htokens
      | ok more =>
          simp only [hmore, Except.map, Except.ok.injEq] at htokens
          subst htokens
          exact step_leads hstep more (ih hmore)

end Scanner

/-- The tokens of a source have the shapes for their zones. -/
theorem Token.scan_zoned
    {source : String}
    {tokens : List Token}
    (hscan : Token.scan source = .ok tokens) :
    Token.Zoned .nodes tokens := by
  unfold Token.scan at hscan
  simp only at hscan
  cases htokens : (Scanner.beginLine ⟨source.toList, Position.start⟩ 0).2.tokens with
  | error e =>
      simp [htokens, Except.map] at hscan
  | ok more =>
      simp only [htokens, Except.map, Except.ok.injEq] at hscan
      subst hscan
      exact Scanner.beginLine_leads _ _ more (Scanner.tokens_zoned htokens)

end BlockMarkup
