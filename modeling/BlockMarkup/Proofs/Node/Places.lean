import BlockMarkup.Proofs.Node.Complaints
import BlockMarkup.Proofs.Node.WellFormed

/-!
# The places of nodes and of what is wrong with them

A complaint about tokens is blamed on a token, and what is known of the character that this token
begins at tells what it complains about. A node is at the place of its tag or of its text. A fault
of indentation is at the place of a node.
-/

namespace BlockMarkup

/-- What a problem tells about the character `c` that it is blamed on, and about `after`, which
stands behind that. -/
def TreeProblem.Blames
    (problem : TreeProblem)
    (c : Char)
    (after : List Char) : Prop :=
  match problem with
  | unexpected expected _ => expected = .headerBeforeBlock → c = '{'
  | unmatchedBrace => c = '}'
  | unclosedBrace => c = '{'
  | duplicateId _ _ => c = '#'
  | duplicateAttribute name => Token.NameFrom name.toList c after
  | malformedStyle declaration =>
    ∃ value, Token.QuotedFrom value.toList c after ∧ Style.read value = .error declaration
  | tooDeep => c = '{'

/-- A complaint about the tokens of a source is blamed on a character of it. -/
theorem Reader.Complaint.blames
    {source : List Char}
    {tokens : List Token}
    (hscanned : Token.Scanned source tokens)
    {e : TreeError}
    (h : Complaint tokens e) :
    Text.HasAt source e.position e.problem.Blames := by
  have hopens : ∀ {t : Token} {kind : TokenKind}, t ∈ tokens → t.kind = kind →
      kind ≠ .endOfInput →
        Text.HasAt source t.position (Token.Opens ⟨kind, t.text, t.position⟩) := by
    rintro t _ ht rfl hend
    exact hscanned.begins t ht hend
  cases h with
  | unmatchedBrace ht hkind | unclosedBrace ht hkind | tooDeep ht hkind =>
      exact hopens ht hkind (by simp)
  | headerBeforeBlock ht hkind =>
      exact (hopens ht hkind (by simp)).imp fun c after hc _ => hc
  | duplicateId hmark hname hpair first =>
      exact hopens (hpair.subset List.mem_cons_self) hmark (by simp)
  | duplicateAttribute hlist hmem hname =>
      exact hopens (hlist.mem hmem) hname (by simp)
  | malformedStyle hlist hmem hvalue hread =>
      exact (hopens (hlist.mem hmem) hvalue (by simp)).imp fun c after hc => ⟨_, hc, hread⟩
  | inside hlist hmem hexpected =>
      refine (hopens (hlist.mem hmem) rfl (hlist.kind_ne hmem (by decide))).imp
        fun c after _ hheader => ?_
      simp [hheader] at hexpected
  | closing hlist hexpected =>
      refine (hopens hlist.closing_mem hlist.kind_closing (by simp)).imp fun c after _ hheader => ?_
      simp [hheader] at hexpected

theorem Token.bracketed_of_forall
    {outer inner : Token → Prop}
    {tokens : List Token}
    (h : ∀ t ∈ tokens, outer t ∧ inner t)
    (inside : Bool) :
    Token.Bracketed outer inner inside tokens := by
  induction tokens generalizing inside with
  | nil =>
      trivial
  | cons t tokens ih =>
      rw [List.forall_mem_cons] at h
      rw [Bracketed]
      split
      · exact ⟨h.1.2, ih h.2 _⟩
      · exact ⟨h.1.1, ih h.2 _⟩

namespace Node

/-- Whether a node can start with the character `c` before `after`: with it begins the tag of an
element, or a text up to the white space at its end. -/
def Opens
    (n : Node)
    (c : Char)
    (after : List Char) : Prop :=
  match n with
  | element header _ => ∃ tail, header.tag.toList = c :: tail ∧ tail <+: after
  | text run => Token.RunFrom run.value.toList c after

/-- The label of a node is among those inside it. -/
theorem exists_label
    (n : Node) :
    ∃ m ∈ n.preorder, m.position = n.position := by
  cases n with
  | element header children => exact ⟨_, List.mem_cons_self, rfl⟩
  | text run => exact ⟨_, List.mem_cons_self, rfl⟩

theorem siblingFaults_position
    {ns : List Node}
    (hinside : ∀ n ∈ ns, ∀ depth, ∀ e ∈ n.faults depth, ∃ m ∈ n.preorder, m.position = e.position)
    (depth : Nat)
    (before : List Node) :
    ∀ e ∈ siblingFaults depth before ns, ∃ m ∈ preorderList ns, m.position = e.position := by
  induction ns generalizing before with
  | nil =>
      simp [siblingFaults]
  | cons n rest ih =>
      rw [List.forall_mem_cons] at hinside
      have hhere : ∀ e : IndentationError, (∃ m ∈ n.preorder, m.position = e.position) →
          ∃ m ∈ preorderList (n :: rest), m.position = e.position :=
        fun e ⟨m, hm, hposition⟩ => ⟨m, List.mem_append_left _ hm, hposition⟩
      rw [siblingFaults, List.forall_mem_append, List.forall_mem_append]
      refine ⟨⟨fun e he => hhere e ?_, fun e he => hhere e (hinside.1 _ e he)⟩, fun e he => ?_⟩
      · unfold lineFaults at he
        split at he
        · cases he
        · simp only [Option.mem_toList, Option.map_eq_some_iff] at he
          obtain ⟨problem, -, rfl⟩ := he
          exact n.exists_label
      · obtain ⟨m, hm, hposition⟩ := ih hinside.2 _ e he
        exact ⟨m, List.mem_append_right _ hm, hposition⟩

/-- By induction over the tree: a fault is at the place of a node. -/
theorem faults_position
    (n : Node)
    (depth : Nat) :
    ∀ e ∈ n.faults depth, ∃ m ∈ n.preorder, m.position = e.position := by
  induction n generalizing depth with
  | element header children ih =>
      rw [faults, List.forall_mem_append]
      refine ⟨fun e he => ?_, fun e he => ?_⟩
      · rw [eq_of_mem_ite (Or.inl he)]
        exact ⟨_, List.mem_cons_self, rfl⟩
      · obtain ⟨m, hm, hposition⟩ := siblingFaults_position ih _ _ e he
        exact ⟨m, List.mem_cons_of_mem _ hm, hposition⟩
  | text run =>
      intro e he
      rw [eq_of_mem_ite (Or.inl he)]
      exact ⟨_, List.mem_cons_self, rfl⟩

end Node

namespace Document

variable {source file : String} {document : Document}

/-- Nesting blames a node of the document. -/
theorem nest_error_position
    {e : IndentationError}
    (hnest : document.nest = .error e) :
    ∃ n ∈ Node.preorderList document, n.position = e.position := by
  have he := List.mem_of_head? ((nest_eq_error_iff _ _).1 hnest)
  exact Node.siblingFaults_position (fun n _ => n.faults_position) 0 [] e he

theorem parse_eq_ok
    (hparse : parse source file = .ok document) :
    ∃ tokens, Token.scan source = .ok tokens ∧ ofTokens tokens = .ok document := by
  unfold parse at hparse
  split at hparse
  · cases hparse
  · next tokens hscan =>
      split at hparse
      · cases hparse
      · next found hfound =>
          cases hparse
          exact ⟨tokens, hscan, hfound⟩

/-- Every node of a document comes from its tokens. -/
theorem ofTokens_comesFrom
    {tokens : List Token}
    (hread : ofTokens tokens = .ok document) :
    ∀ n ∈ Node.preorderList document, n.ComesFrom (· ∈ tokens) (· ∈ tokens) := by
  have hstart : Reader.start.Sound (· ∈ tokens) (· ∈ tokens) :=
    ⟨by simp [Reader.start, Node.preorderList], by simp [Reader.start], by simp [Reader.start]⟩
  exact Reader.run_sound hread (Token.bracketed_of_forall (fun t ht => ⟨ht, ht⟩) false) hstart

/-- Every node of a document opens at its place in the source. -/
theorem parse_opens
    (hparse : parse source file = .ok document) :
    ∀ n ∈ Node.preorderList document, Text.HasAt source.toList n.position n.Opens := by
  intro n hn
  cases n with
  | element header children =>
      have hidentifier : isIdentifier header.tag = true := (parse_wellFormed hparse _ hn).tag
      obtain ⟨before, after, hsource, hplace⟩ := (parse_sound hparse _ hn).stands
      cases htag : header.tag.toList with
      | nil =>
          -- a tag is an identifier, which has a first letter
          simp [isIdentifier, htag, isIdentifierChars] at hidentifier
      | cons c tail =>
          refine ⟨before, c, tail ++ after, ?_, hplace.trans (Position.start_after before), tail,
            htag, List.prefix_append tail after⟩
          simpa [Node.wording, htag] using hsource
  | text run =>
      obtain ⟨tokens, hscan, htokens⟩ := parse_eq_ok hparse
      obtain ⟨t, ht, hkind, hvalue, hposition⟩ := ofTokens_comesFrom htokens _ hn
      have hopens := (Token.scan_scanned hscan).begins t ht (by simp [hkind])
      rw [Node.position, hposition]
      refine hopens.imp fun c after hc => ?_
      simp only [Token.Opens, hkind, ← hvalue] at hc
      exact hc

theorem read_eq_ok
    (hread : read source file = .ok document) :
    ∃ parsed, parse source file = .ok parsed ∧ parsed.nest = .ok document := by
  unfold read nestFrom at hread
  split at hread
  · cases hread
  · next parsed hparse =>
      split at hread
      · cases hread
      · next nested hnest =>
          cases hread
          exact ⟨parsed, hparse, hnest⟩

/-- Every node that is read begins in the source where it says. -/
theorem read_opens
    (hread : read source file = .ok document) :
    ∀ n ∈ Node.preorderList document, Text.HasAt source.toList n.position n.Opens := by
  obtain ⟨parsed, hparse, hnest⟩ := read_eq_ok hread
  obtain ⟨hwell, rfl⟩ := (nest_eq_ok_iff _ _).1 hnest
  rw [preorderList_arranged hwell, List.forall_mem_map]
  intro n hn
  have hopens := parse_opens hparse n hn
  cases n <;> exact hopens

end Document

end BlockMarkup
