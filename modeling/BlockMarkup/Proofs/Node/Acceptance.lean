import BlockMarkup.Proofs.Node.Unseen
import BlockMarkup.Proofs.Node.Grammar
import BlockMarkup.Proofs.Node.Sound

/-!
# The reader accepts the grammar

Every function of the reader is set against the part of the grammar that it reads. What a function
takes from its tokens has a derivation, and what it returns is read off that derivation; and tokens
that have a derivation are not refused. Since derivations are unique, the second direction need not
say what is returned.
-/

namespace BlockMarkup

/-- Forgets line markers. -/
def Relabelling.unmarked : Relabelling where
  header h := { h with indent := none }
  run t := { t with indent := none }

open Grammar

open Relabelling (unmarked)

theorem Grammar.Pair.derive_eq_ok
    {p : Pair}
    (hp : p.Readable) :
    Attribute.derive p.key p.text = .ok p.entry.2 := by
  obtain ⟨derived, hderived⟩ := (Attribute.exists_derive_iff p.key p.text).2 hp
  rw [entry, hderived]
  rfl

namespace Reader

variable {last : Position} {tokens rest : List Token}

/-! ## Attributes -/

theorem exists_pair_of_oneAttribute
    {seen stop : Dict Attribute}
    (h : oneAttribute last seen tokens = .ok (stop, rest)) :
    ∃ (p : Pair) (more : List Token), tokens = p.tokens ++ more := by
  unfold oneAttribute at h
  cases hname : expect .identifier .attributeName last tokens with
  | error e => simp [hname, bind, Except.bind] at h
  | ok name =>
    cases hcolon : expect .colon .attributeColon last name.2 with
    | error e => simp [hname, hcolon, bind, Except.bind] at h
    | ok colon =>
      cases hvalue : expect .stringLiteral .attributeValue last colon.2 with
      | error e => simp [hname, hcolon, hvalue, bind, Except.bind] at h
      | ok value =>
        obtain ⟨htokens, hnameKind⟩ := expect_eq_ok_iff.1 hname
        obtain ⟨hafterName, hcolonKind⟩ := expect_eq_ok_iff.1 hcolon
        obtain ⟨hafterColon, hvalueKind⟩ := expect_eq_ok_iff.1 hvalue
        refine ⟨⟨⟨name.1, hnameKind⟩, ⟨colon.1, hcolonKind⟩, ⟨value.1, hvalueKind⟩⟩, value.2, ?_⟩
        rw [htokens, hafterName, hafterColon]
        rfl

/-- A pair is read exactly if its key is new and its value can be read. -/
theorem oneAttribute_pair
    (last : Position)
    (seen : Dict Attribute)
    (p : Pair)
    (rest : List Token)
    (stop : Dict Attribute)
    (found : List Token) :
    oneAttribute last seen (p.tokens ++ rest) = .ok (stop, found) ↔
      p.key ∉ seen.keys ∧ p.Readable ∧ stop = seen.insert p.key p.entry.2 ∧ found = rest := by
  have hunfold : oneAttribute last seen (p.tokens ++ rest) =
      if seen.contains p.key then .error ⟨.duplicateAttribute p.key, p.name.1.position⟩
      else
        ((Attribute.derive p.key p.text).mapError fun declaration =>
          ⟨.malformedStyle declaration, p.value.1.position⟩).map
            fun derived => (seen.insert p.key derived, rest) := by
    simp only [oneAttribute, expect, Pair.tokens, bind, Except.bind, Pair.key, Pair.text,
      List.cons_append, List.nil_append, p.name.2, p.colon.2, p.value.2, if_true]
    cases Attribute.derive p.name.1.text p.value.1.text <;> rfl
  have hcontains : seen.contains p.key = true ↔ p.key ∈ seen.keys := by
    simp [Dict.contains]
  rw [hunfold]
  by_cases hkey : p.key ∈ seen.keys
  · simp [hcontains.2 hkey, hkey]
  · rw [if_neg (fun h => hkey (hcontains.1 h))]
    by_cases hp : p.Readable
    · rw [Pair.derive_eq_ok hp]
      simp only [Except.mapError, Except.map, Except.ok.injEq, Prod.mk.injEq]
      exact ⟨fun h => ⟨hkey, hp, h.1.symm, h.2.symm⟩, fun h => ⟨h.2.2.1.symm, h.2.2.2.symm⟩⟩
    · cases hderived : Attribute.derive p.key p.text with
      | error declaration => simp [hp, Except.mapError, Except.map]
      | ok derived => exact absurd ((Attribute.exists_derive_iff _ _).1 ⟨derived, hderived⟩) hp

/-- Whatever is read as an attribute is a pair. -/
theorem oneAttribute_derived
    {seen stop : Dict Attribute}
    (h : oneAttribute last seen tokens = .ok (stop, rest)) :
    ∃ p : Pair, tokens = p.tokens ++ rest ∧ p.key ∉ seen.keys ∧ p.Readable ∧
      stop = seen.insert p.key p.entry.2 := by
  obtain ⟨p, more, rfl⟩ := exists_pair_of_oneAttribute h
  obtain ⟨hkey, hreadable, hstop, rfl⟩ := (oneAttribute_pair ..).1 h
  exact ⟨p, rfl, hkey, hreadable, hstop⟩

/-- Whether pairs can be read behind the attributes `seen`. -/
structure Fits
    (seen : Dict Attribute)
    (ps : List Pair) : Prop where
  nodup : (ps.map Pair.key).Nodup
  fresh : ∀ p ∈ ps, p.key ∉ seen.keys
  readable : ∀ p ∈ ps, p.Readable

theorem fits_cons_iff
    (seen : Dict Attribute)
    (p : Pair)
    (ps : List Pair) :
    Fits seen (p :: ps) ↔
      p.key ∉ seen.keys ∧ p.Readable ∧ Fits (seen.insert p.key p.entry.2) ps := by
  have hkeys : p.key ∉ seen.keys → ∀ q : Pair,
      q.key ∉ (seen.insert p.key p.entry.2).keys ↔ q.key ∉ seen.keys ∧ q.key ≠ p.key := by
    intro hfresh q
    simp [Dict.keys_insert_of_not_mem hfresh]
  constructor
  · rintro ⟨hnodup, hfresh, hreadable⟩
    rw [List.map_cons, List.nodup_cons, List.mem_map] at hnodup
    rw [List.forall_mem_cons] at hfresh hreadable
    refine ⟨hfresh.1, hreadable.1, hnodup.2,
      fun q hq => (hkeys hfresh.1 q).2 ⟨hfresh.2 q hq, ?_⟩, hreadable.2⟩
    exact fun heq => hnodup.1 ⟨q, hq, heq⟩
  · rintro ⟨hfresh, hreadable, hfits⟩
    refine ⟨?_, ?_, ?_⟩
    · rw [List.map_cons, List.nodup_cons, List.mem_map]
      refine ⟨?_, hfits.nodup⟩
      rintro ⟨q, hq, heq⟩
      exact ((hkeys hfresh q).1 (hfits.fresh q hq)).2 heq
    · rw [List.forall_mem_cons]
      exact ⟨hfresh, fun q hq => ((hkeys hfresh q).1 (hfits.fresh q hq)).1⟩
    · rw [List.forall_mem_cons]
      exact ⟨hreadable, hfits.readable⟩

theorem fits_nil
    (seen : Dict Attribute) :
    Fits seen [] := by
  constructor <;> simp

/-- Whatever is read as an attribute list is derived from the grammar. -/
theorem attributes_derived
    {seen stop : Dict Attribute}
    (h : attributes last seen tokens = .ok (stop, rest)) :
    ∃ (ps : Pairs) (closing : Terminal .parenClose), tokens = ps.tokens ++ closing.1 :: rest ∧
      Fits seen ps.toList ∧ stop.entries = seen.entries ++ ps.toList.map Pair.entry := by
  fun_induction attributes last seen tokens with
  | case3 seen tokens found t more hone hclose =>
      obtain ⟨p, rfl, hkey, hreadable, rfl⟩ := oneAttribute_derived hone
      cases h
      exact ⟨.one p, ⟨t, hclose⟩, rfl, (fits_cons_iff ..).2 ⟨hkey, hreadable, fits_nil _⟩,
        Dict.entries_insert_of_not_mem hkey _⟩
  | case4 seen tokens found t more hone hclose hcomma hahead =>
      obtain ⟨p, rfl, hkey, hreadable, rfl⟩ := oneAttribute_derived hone
      cases h
      cases more with
      | nil =>
          simp [kindAhead] at hahead
      | cons close more =>
          exact ⟨.trailing p ⟨t, hcomma⟩, ⟨close, hahead⟩, by simp [Pairs.tokens],
            (fits_cons_iff ..).2 ⟨hkey, hreadable, fits_nil _⟩,
            Dict.entries_insert_of_not_mem hkey _⟩
  | case5 seen tokens found t more hone hclose hcomma hahead _ ih =>
      obtain ⟨p, rfl, hkey, hreadable, rfl⟩ := oneAttribute_derived hone
      obtain ⟨ps, closing, rfl, hfits, hstop⟩ := ih h
      rw [Dict.entries_insert_of_not_mem hkey] at hstop
      exact ⟨.more p ⟨t, hcomma⟩ ps, closing, by simp [Pairs.tokens],
        (fits_cons_iff ..).2 ⟨hkey, hreadable, hfits⟩, by simp [hstop, Pairs.toList, Pair.entry]⟩
  | _ => simp at h

/-- An attribute list of the grammar is read. -/
theorem exists_attributes
    (last : Position)
    {seen : Dict Attribute}
    {ps : Pairs}
    (hps : Fits seen ps.toList)
    (closing : Terminal .parenClose)
    (rest : List Token) :
    ∃ stop, attributes last seen (ps.tokens ++ closing.1 :: rest) = .ok (stop, rest) := by
  induction ps generalizing seen with
  | one p =>
      obtain ⟨hkey, hreadable, -⟩ := (fits_cons_iff ..).1 hps
      have hone := (oneAttribute_pair last seen p (closing.1 :: rest) _ _).2
        ⟨hkey, hreadable, rfl, rfl⟩
      exact ⟨_, by rw [Pairs.tokens, attributes_of_ok hone, if_pos closing.2]⟩
  | trailing p comma =>
      obtain ⟨hkey, hreadable, -⟩ := (fits_cons_iff ..).1 hps
      have hone := (oneAttribute_pair last seen p (comma.1 :: closing.1 :: rest) _ _).2
        ⟨hkey, hreadable, rfl, rfl⟩
      refine ⟨seen.insert p.key p.entry.2, ?_⟩
      rw [Pairs.tokens, List.append_assoc, List.singleton_append, attributes_of_ok hone]
      simp
  | more p comma ps ih =>
      obtain ⟨hkey, hreadable, hfits⟩ := (fits_cons_iff ..).1 hps
      have hone := (oneAttribute_pair last seen p
        (comma.1 :: (ps.tokens ++ closing.1 :: rest)) _ _).2 ⟨hkey, hreadable, rfl, rfl⟩
      obtain ⟨stop, hstop⟩ := ih hfits
      refine ⟨stop, ?_⟩
      rw [Pairs.tokens, List.append_assoc, List.cons_append, attributes_of_ok hone]
      simpa [ps.kindAhead_tokens] using hstop

/-! ## Headers -/

/-- The ids of a header and of decorations behind it. -/
def idsWith
    (header : Header)
    (ds : List Decoration) : List String :=
  header.id.toList ++ ds.filterMap Decoration.id?

/-- A header with decorations behind it. -/
def decorated
    (header : Header)
    (ds : List Decoration) : Header :=
  { header with
    id := (idsWith header ds).head?
    classes := header.classes ++ ds.filterMap Decoration.className? }

theorem idsWith_nil
    (header : Header) :
    (idsWith header []).length ≤ 1 := by
  rw [idsWith]
  cases header.id <;> simp

theorem decorated_nil
    (header : Header) :
    decorated header [] = header := by
  obtain ⟨_, id, _, _, _, _⟩ := header
  cases id <;> simp [decorated, idsWith]

section

variable (header : Header) (mark : Terminal .dot) (name : Terminal .identifier)
  (ds : List Decoration)

theorem idsWith_className :
    idsWith header (.className mark name :: ds) =
      idsWith { header with classes := header.classes ++ [name.1.text] } ds := by
  simp [idsWith, List.filterMap_cons, Decoration.id?]

theorem decorated_className :
    decorated header (.className mark name :: ds) =
      decorated { header with classes := header.classes ++ [name.1.text] } ds := by
  simp [decorated, idsWith_className, Decoration.className?]

end

section

variable {header : Header} (hid : header.id = none) (mark : Terminal .hash)
  (name : Terminal .identifier) (ds : List Decoration)

include hid

theorem idsWith_id :
    idsWith header (.id mark name :: ds) = idsWith { header with id := some name.1.text } ds := by
  simp [idsWith, hid, Decoration.id?]

theorem decorated_id :
    decorated header (.id mark name :: ds) =
      decorated { header with id := some name.1.text } ds := by
  simp [decorated, idsWith_id hid, List.filterMap_cons, Decoration.className?]

end

/-- Whatever is read as decorations is derived, with one id at most. -/
theorem decorations_derived
    {header stop : Header}
    (h : decorations last header tokens = .ok (stop, rest)) :
    ∃ ds : List Decoration, tokens = ds.flatMap Decoration.tokens ++ rest ∧
      (idsWith header ds).length ≤ 1 ∧ stop = decorated header ds := by
  fun_induction decorations last header tokens with
  | case1 | case4 | case10 =>
      cases h
      exact ⟨[], rfl, idsWith_nil _, (decorated_nil _).symm⟩
  | case5 header mark name more hmark hname ih =>
      obtain ⟨ds, rfl, hids, hstop⟩ := ih h
      refine ⟨.className ⟨mark, hmark⟩ ⟨name, hname⟩ :: ds, rfl, ?_, ?_⟩
      · rwa [idsWith_className]
      · rwa [decorated_className]
  | case8 header mark name more _ hmark hname hid ih =>
      obtain ⟨ds, rfl, hids, hstop⟩ := ih h
      refine ⟨.id ⟨mark, hmark⟩ ⟨name, hname⟩ :: ds, rfl, ?_, ?_⟩
      · rwa [idsWith_id hid]
      · rwa [decorated_id hid]
  | _ => simp at h

/-- Decorations of the grammar are read. -/
theorem exists_decorations
    (last : Position)
    {header : Header}
    {ds : List Decoration}
    (hids : (idsWith header ds).length ≤ 1)
    (hdot : kindAhead rest ≠ .dot)
    (hhash : kindAhead rest ≠ .hash) :
    ∃ stop, decorations last header (ds.flatMap Decoration.tokens ++ rest) = .ok (stop, rest) := by
  induction ds generalizing header with
  | nil =>
      exact ⟨header, decorations_stop header hdot hhash⟩
  | cons d ds ih =>
      cases d with
      | className mark name =>
          rw [idsWith_className] at hids
          obtain ⟨stop, hstop⟩ := ih hids
          exact ⟨stop, by simpa [Decoration.tokens, decorations] using hstop⟩
      | id mark name =>
          cases hid : header.id with
          | some first =>
              simp [idsWith, hid, Decoration.id?] at hids
          | none =>
              rw [idsWith_id hid] at hids
              obtain ⟨stop, hstop⟩ := ih hids
              exact ⟨stop, by simpa [Decoration.tokens, decorations, hid] using hstop⟩

/-- Whatever is read as a header is a heading of the grammar. -/
theorem header_derived
    {indent : Option Nat}
    {tag : Token}
    {read : Header}
    (htag : tag.kind = .identifier)
    (h : Reader.header last indent tag tokens = .ok (read, rest)) :
    ∃ heading : Heading, heading.tag.1 = tag ∧ tokens = heading.behind ++ rest ∧
      read = heading.header indent := by
  unfold Reader.header at h
  split at h
  · cases h
  · next found more hfound =>
      obtain ⟨ds, rfl, hids, rfl⟩ := decorations_derived hfound
      -- the heading with what was found between parentheses
      have hheading : ∀ ps : Parens, more = ps.tokens ++ rest → Fits Dict.empty ps.pairs →
          ∀ attributes : Dict Attribute, attributes.entries = ps.pairs.map Pair.entry →
          read = { decorated ⟨tag.text, none, [], Dict.empty, tag.position, indent⟩ ds with
            attributes } →
          ∃ heading : Heading, heading.tag.1 = tag ∧
            ds.flatMap Decoration.tokens ++ more = heading.behind ++ rest ∧
            read = heading.header indent := by
        rintro ps rfl hps ⟨entries, hentries⟩ rfl rfl
        refine ⟨⟨⟨tag, htag⟩, ds, ps, hids, hps.nodup, hps.readable⟩, rfl, ?_, rfl⟩
        rw [Heading.behind, List.append_assoc]
      split at h
      · cases h
        exact hheading .absent rfl (fits_nil _) Dict.empty rfl rfl
      · next t more =>
          split at h
          · next hopen =>
              split at h
              · next hclose =>
                  cases h
                  cases more with
                  | nil =>
                      simp [kindAhead] at hclose
                  | cons close more =>
                      exact hheading (.empty ⟨t, hopen⟩ ⟨close, hclose⟩) rfl (fits_nil _)
                        Dict.empty rfl rfl
              · cases hattributes : attributes last Dict.empty more with
                | error e =>
                    simp [hattributes, Except.map] at h
                | ok found =>
                    obtain ⟨ps, closing, rfl, hfits, hstop⟩ := attributes_derived hattributes
                    simp only [hattributes, Except.map, Except.ok.injEq, Prod.mk.injEq] at h
                    obtain ⟨rfl, rfl⟩ := h
                    exact hheading (.filled ⟨t, hopen⟩ ps closing) (by simp [Parens.tokens]) hfits
                      _ hstop rfl
          · cases h
            exact hheading .absent rfl (fits_nil _) Dict.empty rfl rfl

/-- A heading of the grammar is read, provided that what follows does not belong to it. -/
theorem exists_header
    (last : Position)
    (indent : Option Nat)
    (heading : Heading)
    (hrest : EndsHeading rest) :
    ∃ read, Reader.header last indent heading.tag.1 (heading.behind ++ rest) =
      .ok (read, rest) := by
  obtain ⟨tag, ds, ps, hids, hnodup, hreadable⟩ := heading
  have hdot := ps.kindAhead_tokens_ne (by decide) hrest.not_dot
  have hhash := ps.kindAhead_tokens_ne (by decide) hrest.not_hash
  have hids' : (idsWith ⟨tag.1.text, none, [], Dict.empty, tag.1.position, indent⟩ ds).length ≤ 1 :=
    hids
  obtain ⟨stop, hstop⟩ := exists_decorations last hids' hdot hhash
  rw [Heading.behind, List.append_assoc, Reader.header, hstop]
  cases ps with
  | absent =>
      cases rest with
      | nil => exact ⟨stop, rfl⟩
      | cons t rest => exact ⟨stop, if_neg hrest.not_parenOpen⟩
  | empty opening closing =>
      exact ⟨stop, by simp [Parens.tokens]⟩
  | filled opening ps closing =>
      have hfits : Fits Dict.empty ps.toList := ⟨hnodup, by simp [Dict.keys, Dict.empty], hreadable⟩
      obtain ⟨attributes, hattributes⟩ := exists_attributes last hfits closing rest
      exact ⟨{ stop with attributes := attributes }, by
        simp [Parens.tokens, ps.kindAhead_tokens, hattributes, Except.map]⟩

/-! ## Nodes -/

/-- What open blocks ask of the tokens ahead, if `before` are the nodes of the innermost block so
far and `nodes` those of the document: content and a closing brace for each block, and then content
up to the end of input. Line markers are left out. -/
def Demands : List OpenBlock → List Node → List Token → List Node → Prop
  | [], before, tokens, nodes =>
      ∃ (c : Content) (rest : List Token), tokens = c.tokens ++ rest ∧
        kindAhead rest = .endOfInput ∧ c.depth ≤ maxDepth ∧ nodes = before ++ c.nodes
  | block :: outer, before, tokens, nodes =>
      ∃ (c : Content) (closing : Terminal .braceClose) (rest : List Token),
        tokens = c.tokens ++ closing.1 :: rest ∧ outer.length + 1 + c.depth ≤ maxDepth ∧
        Demands outer (block.before.reverse.map (Node.relabel unmarked) ++
          [.element (unmarked.header block.header) (before ++ c.nodes)]) rest nodes

/-- Content may be put before the content that is asked for. -/
theorem Demands.prepend
    {blocks : List OpenBlock}
    {before added nodes : List Node}
    (ahead : List Token)
    {tokens : List Token}
    (f : Content → Content)
    (htokens : ∀ c, (f c).tokens = ahead ++ c.tokens)
    (hdepth : ∀ c, blocks.length + c.depth ≤ maxDepth → blocks.length + (f c).depth ≤ maxDepth)
    (hnodes : ∀ c, (f c).nodes = added ++ c.nodes)
    (h : Demands blocks (before ++ added) tokens nodes) :
    Demands blocks before (ahead ++ tokens) nodes := by
  cases blocks with
  | nil =>
      obtain ⟨c, rest, rfl, hrest, hc, rfl⟩ := h
      refine ⟨f c, rest, ?_, hrest, ?_, ?_⟩
      · rw [htokens, List.append_assoc]
      · simpa using hdepth c (by simpa using hc)
      · rw [hnodes, List.append_assoc]
  | cons block outer =>
      obtain ⟨c, closing, rest, rfl, hc, houter⟩ := h
      refine ⟨f c, closing, rest, ?_, hdepth c hc, ?_⟩
      · rw [htokens, List.append_assoc]
      · rwa [hnodes, ← List.append_assoc]

theorem Demands.layout
    {blocks : List OpenBlock}
    {before nodes : List Node}
    (t : Layout)
    (h : Demands blocks before tokens nodes) :
    Demands blocks before (t.1 :: tokens) nodes :=
  prepend [t.1] (.layout t) (fun _ => rfl) (fun _ => id) (fun _ => rfl)
    (by rwa [List.append_nil])

theorem Demands.text
    {blocks : List OpenBlock}
    {before nodes : List Node}
    (t : Terminal .textRun)
    (h : Demands blocks (before ++ [.text ⟨t.1.text, t.1.position, none⟩]) tokens nodes) :
    Demands blocks before (t.1 :: tokens) nodes :=
  prepend [t.1] (.text t) (fun _ => rfl) (fun _ => id) (fun _ => rfl) h

theorem Demands.element
    {blocks : List OpenBlock}
    {before nodes : List Node}
    (heading : Heading)
    (h : Demands blocks (before ++ [.element (heading.header none) []]) tokens nodes) :
    Demands blocks before (heading.tokens ++ tokens) nodes :=
  prepend heading.tokens (.element heading) (fun _ => rfl) (fun _ => id) (fun _ => rfl) h

theorem Demands.enter
    {blocks : List OpenBlock}
    {before nodes : List Node}
    {heading : Heading}
    {indent : Option Nat}
    {brace : Position}
    (opening : Terminal .braceOpen)
    (h : Demands (⟨heading.header indent, brace, before⟩ :: blocks) [] tokens nodes) :
    Demands blocks (before.reverse.map (Node.relabel unmarked))
      (heading.tokens ++ opening.1 :: tokens) nodes := by
  obtain ⟨inside, closing, rest, rfl, hdepth, houter⟩ := h
  have hblock := prepend (heading.tokens ++ opening.1 :: (inside.tokens ++ [closing.1]))
    (.block heading opening inside closing) (fun c => by simp [Content.tokens])
    (fun c hc => by rw [Content.depth]; omega) (fun _ => rfl) houter
  simpa using hblock

/-- A closing brace is read on behind the block, which is a node now. -/
theorem Demands.close
    {block : OpenBlock}
    {outer : List OpenBlock}
    {before nodes : List Node}
    (closing : Terminal .braceClose)
    (hdepth : (block :: outer).length ≤ maxDepth)
    (h : Demands outer (block.before.reverse.map (Node.relabel unmarked) ++
      [.element (unmarked.header block.header) before]) tokens nodes) :
    Demands (block :: outer) before (closing.1 :: tokens) nodes :=
  ⟨.nil, closing, tokens, rfl, hdepth, by simpa [Content.nodes] using h⟩

theorem Demands.finish
    {r : Reader}
    {document : Document}
    (h : r.finish = .ok document)
    (hend : kindAhead tokens = .endOfInput) :
    Demands r.blocks (r.nodes.reverse.map (Node.relabel unmarked)) tokens
      (document.map (Node.relabel unmarked)) := by
  unfold Reader.finish at h
  split at h
  · next hblocks =>
      cases h
      rw [hblocks]
      exact ⟨.nil, tokens, rfl, hend, Nat.zero_le _, by simp [Content.nodes]⟩
  · cases h

/-- What was read up to the end of input is what the open blocks asked for. -/
theorem run_derived
    {r : Reader}
    {document : Document}
    (hblocks : r.blocks.length ≤ maxDepth)
    (h : r.run last tokens = .ok document) :
    Demands r.blocks (r.nodes.reverse.map (Node.relabel unmarked)) tokens
      (document.map (Node.relabel unmarked)) := by
  fun_induction Reader.run last r tokens with
  | case1 r =>
      exact .finish h rfl
  | case2 r t rest ht =>
      exact .finish h ht
  | case3 r t rest ht ih =>
      exact .layout ⟨t, .inl ht⟩ (ih hblocks h)
  | case4 r t rest ht ih =>
      exact .layout ⟨t, .inr (.inl ht)⟩ (ih hblocks h)
  | case5 r t rest ht ih =>
      exact .layout ⟨t, .inr (.inr ht)⟩ (ih hblocks h)
  | case7 r t rest ht block outer hopen element ih =>
      have helement : element = .element block.header r.nodes.reverse := by simp [element]
      rw [helement] at ih
      rw [hopen] at hblocks ⊢
      refine .close ⟨t, ht⟩ hblocks ?_
      simpa using ih (Nat.le_of_succ_le hblocks) h
  | case8 r t rest ht ih =>
      refine .text ⟨t, ht⟩ ?_
      simpa [add, unmarked] using ih hblocks h
  | case10 r t rest ht read hread _ ih =>
      obtain ⟨heading, rfl, rfl, rfl⟩ := header_derived ht hread
      refine .element heading ?_
      simpa [add, unmarked, Heading.header] using ih hblocks h
  | case12 r t rest ht read brace inside hread hbrace hdepth _ ih =>
      obtain ⟨heading, rfl, rfl, rfl⟩ := header_derived ht hread
      have hinside := ih (by simp [enter]; omega) h
      exact .enter ⟨brace, hbrace⟩ hinside
  | case13 r t rest ht read brace inside hread _ _ ih =>
      obtain ⟨heading, rfl, rfl, rfl⟩ := header_derived ht hread
      refine .element heading ?_
      simpa [add, unmarked, Heading.header] using ih hblocks h
  | _ => cases h

theorem run_element
    {r : Reader}
    {t : Token}
    {read : Header}
    (ht : t.kind = .identifier)
    (hread : Reader.header last r.marker t tokens = .ok (read, rest))
    (hbrace : kindAhead rest ≠ .braceOpen) :
    r.run last (t :: tokens) = (r.add (.element read [])).run last rest := by
  cases rest with
  | nil =>
      conv_lhs => rw [run]
      simp only [ht]
      split
      · next e herror =>
          rw [hread] at herror
          cases herror
      · next hfound =>
          rw [hread] at hfound
          cases hfound
          rfl
  | cons next rest =>
      rw [run_identifier ht hread]
      exact if_neg hbrace

/-- Content is not refused while blocks do not nest too deep. -/
theorem exists_run
    (last : Position)
    (c : Content)
    (r : Reader)
    (hdepth : r.blocks.length + c.depth ≤ maxDepth)
    (hrest : EndsContent rest) :
    ∃ s : Reader, s.blocks = r.blocks ∧ r.run last (c.tokens ++ rest) = s.run last rest := by
  induction c generalizing r rest with
  | nil =>
      exact ⟨r, rfl, rfl⟩
  | layout t more ih =>
      obtain ht | ht | ht := t.2
      · obtain ⟨s, hs, hrun⟩ := ih { r with fresh := true } hdepth hrest
        exact ⟨s, hs, by rw [← hrun, Content.tokens, List.cons_append, run]; simp only [ht]⟩
      · obtain ⟨s, hs, hrun⟩ := ih { r with width := t.1.width, fresh := true } hdepth hrest
        exact ⟨s, hs, by rw [← hrun, Content.tokens, List.cons_append, run]; simp only [ht]⟩
      · obtain ⟨s, hs, hrun⟩ := ih { r with width := t.1.width, fresh := true } hdepth hrest
        exact ⟨s, hs, by rw [← hrun, Content.tokens, List.cons_append, run]; simp only [ht]⟩
  | text t more ih =>
      obtain ⟨s, hs, hrun⟩ := ih (r.add (.text ⟨t.1.text, t.1.position, r.marker⟩)) hdepth hrest
      exact ⟨s, hs, by rw [← hrun, Content.tokens, List.cons_append, run]; simp only [t.2]⟩
  | element heading more ih =>
      obtain ⟨hends, hbrace⟩ := more.endsHeading_tokens_append hrest
      obtain ⟨read, hread⟩ := exists_header last r.marker heading hends
      obtain ⟨s, hs, hrun⟩ := ih (r.add (.element read [])) hdepth hrest
      refine ⟨s, hs, ?_⟩
      rw [← hrun, Content.tokens, List.append_assoc]
      exact run_element heading.tag.2 hread hbrace
  | block heading opening inside closing more ihinside ih =>
      rw [Content.depth] at hdepth
      obtain ⟨read, hread⟩ := exists_header last r.marker heading (endsHeading_opening opening)
      obtain ⟨s, hs, hinside⟩ := ihinside (r.enter read opening.1.position)
        (by simp only [enter, List.length_cons]; omega) (endsContent_closing closing)
      obtain ⟨s', hs', hmore⟩ := ih { s with
        blocks := r.blocks
        nodes := .element read s.nodes.reverse :: r.nodes } (by dsimp only; omega) hrest
      refine ⟨s', hs', ?_⟩
      have hopened : ¬ maxDepth ≤ r.blocks.length := by omega
      calc r.run last ((Content.block heading opening inside closing more).tokens ++ rest)
        _ = r.run last (heading.tag.1 :: (heading.behind ++ opening.1 ::
              (inside.tokens ++ closing.1 :: (more.tokens ++ rest)))) := by
            simp [Content.tokens, Heading.tokens]
        _ = (r.enter read opening.1.position).run last
              (inside.tokens ++ closing.1 :: (more.tokens ++ rest)) := by
            rw [run_identifier heading.tag.2 hread, if_pos opening.2, if_neg hopened]
        _ = s.run last (closing.1 :: (more.tokens ++ rest)) := hinside
        _ = s'.run last rest := by
            rw [← hmore, run]
            simp only [closing.2, hs, enter]

theorem run_endOfInput
    (last : Position)
    (r : Reader)
    (hend : kindAhead tokens = .endOfInput) :
    r.run last tokens = r.finish := by
  cases tokens with
  | nil =>
      rw [run]
  | cons t rest =>
      have ht : t.kind = .endOfInput := hend
      rw [run]
      simp only [ht]

end Reader

namespace Document

open Reader (kindAhead)

variable {tokens ending : List Token} {document : Document}

/-- Whatever is read as a document is derived from the grammar, and the tree is that of the
derivation. -/
theorem exists_derivation
    (h : ofTokens tokens = .ok document) :
    ∃ (c : Content) (rest : List Token), tokens = c.tokens ++ rest ∧
      kindAhead rest = .endOfInput ∧ c.depth ≤ maxDepth ∧
      document.map (Node.relabel unmarked) = c.nodes :=
  Reader.run_derived (r := Reader.start) (Nat.zero_le _) h

/-- What the grammar derives is read, unless it is too deep. -/
theorem exists_ofTokens
    {c : Content}
    (hdepth : c.depth ≤ maxDepth)
    (hending : kindAhead ending = .endOfInput) :
    ∃ document, ofTokens (c.tokens ++ ending) = .ok document := by
  have hstart : Reader.start.blocks.length + c.depth ≤ maxDepth := by
    simpa [Reader.start] using hdepth
  obtain ⟨r, hr, hrun⟩ := Reader.exists_run _ c Reader.start hstart (.inr hending)
  have hfinish : r.finish = .ok r.nodes.reverse := by rw [Reader.finish, hr]; rfl
  exact ⟨r.nodes.reverse, (hrun.trans (Reader.run_endOfInput _ r hending)).trans hfinish⟩

/-- If tokens hold no end of input, they end before the first one. -/
theorem eq_of_append_eq_append
    {tokens' ending' : List Token}
    (htokens : ∀ t ∈ tokens, t.kind ≠ .endOfInput)
    (htokens' : ∀ t ∈ tokens', t.kind ≠ .endOfInput)
    (hending : kindAhead ending = .endOfInput)
    (hending' : kindAhead ending' = .endOfInput)
    (h : tokens ++ ending = tokens' ++ ending') :
    tokens = tokens' := by
  induction tokens generalizing tokens' with
  | nil =>
      cases tokens' with
      | nil => rfl
      | cons t' rest' =>
          rw [List.nil_append] at h
          subst h
          exact absurd hending (htokens' t' List.mem_cons_self)
  | cons t rest ih =>
      cases tokens' with
      | nil =>
          rw [List.nil_append] at h
          subst h
          exact absurd hending' (htokens t List.mem_cons_self)
      | cons t' rest' =>
          rw [List.forall_mem_cons] at htokens htokens'
          rw [List.cons_append, List.cons_append, List.cons.injEq] at h
          rw [h.1, ih htokens.2 htokens'.2 h.2]

/-- The reader accepts exactly what the grammar derives, and what it returns is, but for line
markers, the tree of the only derivation. It does not matter whether the tokens just end or an end
of input stands behind them, nor what stands behind that. -/
theorem ofTokens_reads_derivation
    (htokens : ∀ t ∈ tokens, t.kind ≠ .endOfInput) :
    (∀ ending, kindAhead ending = .endOfInput →
      ((∃ document, ofTokens (tokens ++ ending) = .ok document) ↔
        ∃ c : Content, c.tokens = tokens ∧ c.depth ≤ maxDepth) ∧
      ∀ document, ofTokens (tokens ++ ending) = .ok document →
        ∃ c : Content, c.tokens = tokens ∧ document.map (Node.relabel unmarked) = c.nodes ∧
          ∀ d : Content, d.tokens = tokens → d = c) ∧
    ∀ (eof : Token) (after : List Token), eof.kind = .endOfInput →
      ofTokens (tokens ++ eof :: after) = ofTokens (tokens ++ [eof]) := by
  refine ⟨fun ending hending => ?_, fun eof after heof => ?_⟩
  · have hderived : ∀ document, ofTokens (tokens ++ ending) = .ok document →
        ∃ c : Content, c.tokens = tokens ∧ c.depth ≤ maxDepth ∧
          document.map (Node.relabel unmarked) = c.nodes := by
      intro document hread
      obtain ⟨c, rest, heq, hrest, hdepth, hnodes⟩ := exists_derivation hread
      have hc := eq_of_append_eq_append htokens c.kind_ne_endOfInput hending hrest heq
      exact ⟨c, hc.symm, hdepth, hnodes⟩
    refine ⟨⟨?_, ?_⟩, ?_⟩
    · rintro ⟨document, hread⟩
      obtain ⟨c, hc, hdepth, -⟩ := hderived document hread
      exact ⟨c, hc, hdepth⟩
    · rintro ⟨c, rfl, hdepth⟩
      exact exists_ofTokens hdepth hending
    · intro document hread
      obtain ⟨c, hc, -, hnodes⟩ := hderived document hread
      refine ⟨c, hc, hnodes, fun d hd => ?_⟩
      have heq : d.tokens ++ [] = c.tokens ++ [] := by rw [hd, hc]
      exact (Content.tokens_append_inj (.inr rfl) (.inr rfl) heq).1
  · exact Reader.run_append heof after [] _ _ Reader.start tokens

/-- A block with a class, an id, a style and a trailing comma, and layout around its text. -/
def decoratedBlock : List Token :=
  [⟨.newline, "\n", ⟨1, 1⟩⟩, ⟨.identifier, "p", ⟨2, 1⟩⟩, ⟨.dot, ".", ⟨2, 2⟩⟩,
    ⟨.identifier, "note", ⟨2, 3⟩⟩, ⟨.hash, "#", ⟨2, 7⟩⟩, ⟨.identifier, "top", ⟨2, 8⟩⟩,
    ⟨.parenOpen, "(", ⟨2, 11⟩⟩, ⟨.identifier, "style", ⟨2, 12⟩⟩, ⟨.colon, ":", ⟨2, 17⟩⟩,
    ⟨.stringLiteral, "color: red; ", ⟨2, 18⟩⟩, ⟨.comma, ",", ⟨2, 32⟩⟩,
    ⟨.parenClose, ")", ⟨2, 33⟩⟩, ⟨.braceOpen, "\x7b", ⟨2, 34⟩⟩, ⟨.newline, "\n", ⟨2, 35⟩⟩,
    ⟨.indent, "  ", ⟨3, 1⟩⟩, ⟨.textRun, "hello", ⟨3, 3⟩⟩, ⟨.braceClose, "\x7d", ⟨3, 8⟩⟩]

theorem ofTokens_reads_derivation_decoratedBlock :
    (∀ t ∈ decoratedBlock, t.kind ≠ .endOfInput) ∧
    ∃ c : Content, c.tokens = decoratedBlock ∧
      c.nodes = [.element
        ⟨"p", some "top", ["note"], .ofList [("style", .style (.ofList [("color", "red")]))],
          ⟨2, 1⟩, none⟩
        [.text ⟨"hello", ⟨3, 3⟩, none⟩]] ∧
      (∀ d : Content, d.tokens = decoratedBlock → d = c) ∧
      ∀ (eof : Token) (after : List Token), eof.kind = .endOfInput →
        ofTokens (decoratedBlock ++ eof :: after) = ofTokens (decoratedBlock ++ [eof]) := by
  have hkinds : ∀ t ∈ decoratedBlock, t.kind ≠ .endOfInput := by decide
  have hread : (ofTokens (decoratedBlock ++ [])).toOption = some [.element
      ⟨"p", some "top", ["note"], .ofList [("style", .style (.ofList [("color", "red")]))], ⟨2, 1⟩,
        some 0⟩
      [.text ⟨"hello", ⟨3, 3⟩, some 2⟩]] := by decide +kernel
  obtain ⟨hderived, hafter⟩ := ofTokens_reads_derivation hkinds
  cases hdocument : ofTokens (decoratedBlock ++ []) with
  | error e =>
      rw [hdocument] at hread
      cases hread
  | ok document =>
      rw [hdocument] at hread
      cases hread
      obtain ⟨c, hc, hnodes, hunique⟩ := (hderived [] rfl).2 _ hdocument
      refine ⟨hkinds, c, hc, ?_, hunique, hafter⟩
      rw [← hnodes]
      simp [unmarked]

end Document

end BlockMarkup
