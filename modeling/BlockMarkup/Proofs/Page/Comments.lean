import BlockMarkup.Proofs.Page.Stylesheet

/-!
# Comments in stylesheets

A reader of a stylesheet skips comments and takes strings as they are; a brace opens or closes a
block only outside of both. Here the reader is an automaton over the characters of the text, which
tells comments and strings from the rest and nothing else. A string ends with its line at the
latest, and every declaration ends its line. So all that a value can hand on to what follows is an
open comment, and only another value can close it: whether the braces of a stylesheet are met
outside comments and strings is decided by the values of each style alone
(`compile_braces_outside_iff`).
-/

namespace BlockMarkup

namespace Css

/-- What a backslash in a string reaches to. -/
inductive Escape where
  | none
  /-- The backslash is the last character. -/
  | begun
  /-- The backslash is followed by hexadecimal digits, so many of them. -/
  | hex (digits : Nat)
  /-- The escape took a carriage return, and a line feed goes with it. -/
  | returned
  deriving DecidableEq

/-- What a reader of a stylesheet is in the middle of. -/
inductive Lexer where
  | code
  /-- Outside comments and strings, behind a slash. -/
  | slash
  /-- Outside comments and strings, behind a backslash. -/
  | escape
  | comment
  /-- In a comment, behind an asterisk. -/
  | star
  | quoted (quote : Char) (escape : Escape)
  deriving DecidableEq

namespace Lexer

def isLineEnd (c : Char) : Bool := c = '\n' || c = '\r' || c = '\x0c'

def isHexDigit (c : Char) : Bool :=
  isAsciiDigit c || ('a' ≤ c && c ≤ 'f') || ('A' ≤ c && c ≤ 'F')

def stepCode (c : Char) : Lexer :=
  if c = '/' then slash
  else if c = '"' || c = '\'' then quoted c .none
  else if c = '\\' then escape
  else code

/-- A string ends with its quote or before the end of its line. -/
def stepQuoted (quote c : Char) : Lexer :=
  if c = quote || isLineEnd c then code
  else if c = '\\' then quoted quote .begun
  else quoted quote .none

/-- Reads one character. An escape in a string is one character, or up to six hexadecimal digits and
a white space behind them. -/
def step : Lexer → Char → Lexer
  | code, c => stepCode c
  | slash, c => if c = '*' then comment else stepCode c
  | escape, _ => code
  | comment, c => if c = '*' then star else comment
  | star, c => if c = '/' then code else if c = '*' then star else comment
  | quoted quote .none, c => stepQuoted quote c
  | quoted quote .begun, c =>
    if isHexDigit c then quoted quote (.hex 1)
    else quoted quote (if c = '\r' then .returned else .none)
  | quoted quote (.hex digits), c =>
    if isHexDigit c && digits < 6 then quoted quote (.hex (digits + 1))
    else if isLineEnd c || c = ' ' || c = '\t' then
      quoted quote (if c = '\r' then .returned else .none)
    else stepQuoted quote c
  | quoted quote .returned, c => if c = '\n' then quoted quote .none else stepQuoted quote c

/-- The state behind a text. -/
def after (s : Lexer) (cs : List Char) : Lexer := cs.foldl step s

def inComment : Lexer → Bool
  | comment | star => true
  | _ => false

def isOutside : Lexer → Bool
  | code | slash | escape => true
  | _ => false

theorem after_append
    (s : Lexer)
    (cs ds : List Char) :
    s.after (cs ++ ds) = (s.after cs).after ds :=
  List.foldl_append

/-- The state between two declarations, where perhaps a comment is open. -/
def resting (inside : Bool) : Lexer := if inside then comment else code

theorem inComment_resting
    (inside : Bool) :
    (resting inside).inComment = inside := by
  cases inside <;> rfl

/-- A declaration ends every string, and only a comment goes on behind it. -/
theorem after_declarationEnd
    (s : Lexer) :
    s.after [';', '\n'] = resting s.inComment := by
  have hquoted : ∀ quote, (stepQuoted quote ';').after ['\n'] = code := by
    intro quote
    unfold stepQuoted
    split
    · rfl
    · simp [after, step, stepQuoted, isLineEnd]
  cases s with
  | quoted quote escape =>
      cases escape with
      | none => exact hquoted quote
      | begun =>
          simp [after, step, stepQuoted, isLineEnd, isHexDigit, isAsciiDigit, resting, inComment]
      | hex digits =>
          have hstep : (quoted quote (.hex digits)).step ';' = stepQuoted quote ';' := by
            simp [step, isHexDigit, isAsciiDigit, isLineEnd]
          rw [after, List.foldl_cons, hstep]
          exact hquoted quote
      | returned => exact hquoted quote
  | code => decide
  | slash => decide
  | escape => decide
  | comment => decide
  | star => decide

/-- The characters at which comments and strings open and close. -/
def marks : List Char := ['/', '*', '"', '\'', '\\']

def isInert (c : Char) : Bool := !marks.contains c

theorem isInert_of_apply
    {p : Char → Bool}
    (hp : marks.all (fun c => !p c) = true)
    {c : Char}
    (hc : p c = true) :
    isInert c = true := by
  rw [isInert, Bool.not_eq_true', ← Bool.not_eq_true, List.contains_iff_mem]
  intro hmem
  simp [eq_false_of_mem hp hmem] at hc

theorem step_resting
    {c : Char}
    (hc : isInert c = true)
    (inside : Bool) :
    (resting inside).step c = resting inside := by
  simp only [isInert, marks, List.contains_cons, List.contains_nil, Bool.or_false,
    Bool.not_eq_true', Bool.or_eq_false_iff, beq_eq_false_iff_ne] at hc
  cases inside <;> simp [resting, step, stepCode, hc]

/-- Characters that mean nothing to comments and strings leave the state as it is. -/
theorem after_resting
    {cs : List Char}
    (hcs : ∀ c ∈ cs, isInert c = true)
    (inside : Bool) :
    (resting inside).after cs = resting inside := by
  induction cs with
  | nil =>
      rfl
  | cons c cs ih =>
      rw [List.forall_mem_cons] at hcs
      rw [after, List.foldl_cons, step_resting hcs.1]
      exact ih hcs.2

end Lexer

open Lexer

/-- Whether a reader in the state `s` meets every brace of a text outside comments and strings. -/
def BracesOutside
    (s : Lexer)
    (cs : List Char) : Prop :=
  ∀ before brace behind, cs = before ++ brace :: behind → brace = '{' ∨ brace = '}' →
    (s.after before).isOutside = true

section Braces

variable {s : Lexer} {cs ds : List Char}

theorem bracesOutside_of_not_mem
    (hopen : '{' ∉ cs)
    (hclose : '}' ∉ cs) :
    BracesOutside s cs := by
  rintro before brace behind rfl (rfl | rfl)
  · simp at hopen
  · simp at hclose

theorem bracesOutside_append :
    BracesOutside s (cs ++ ds) ↔ BracesOutside s cs ∧ BracesOutside (s.after cs) ds := by
  constructor
  · intro h
    constructor
    · rintro before brace behind rfl hbrace
      exact h before brace (behind ++ ds) (by simp) hbrace
    · rintro before brace behind rfl hbrace
      rw [← after_append]
      exact h (cs ++ before) brace behind (by simp) hbrace
  · rintro ⟨hcs, hds⟩ before brace behind heq hbrace
    rcases List.append_eq_append_iff.1 heq with ⟨more, rfl, hmore⟩ | ⟨more, rfl, hmore⟩
    · rw [after_append]
      exact hds more brace behind hmore hbrace
    · cases more with
      | nil =>
          rw [List.append_nil] at hds
          exact hds [] brace behind hmore.symm hbrace
      | cons first more =>
          rw [List.cons_append, List.cons.injEq] at hmore
          exact hcs before brace more (by rw [hmore.1]) hbrace

/-- Where nothing opens or closes a comment or a string, the reader stays outside. -/
theorem bracesOutside_of_inert
    (hcs : ∀ c ∈ cs, isInert c = true) :
    BracesOutside .code cs := by
  rintro before brace behind rfl -
  rw [List.forall_mem_append] at hcs
  have hstate : Lexer.code.after before = .code := after_resting hcs.1 false
  rw [hstate]
  rfl

/-- The brace that closes a rule is met outside comments exactly if none is open. -/
theorem bracesOutside_close_iff
    {inside : Bool} :
    BracesOutside (resting inside) ['}'] ↔ inside = false := by
  constructor
  · intro h
    have houtside := h [] '}' [] rfl (Or.inr rfl)
    cases inside with
    | false => rfl
    | true => cases houtside
  · rintro rfl
    exact bracesOutside_of_inert (List.all_eq_true.1 (by decide))

end Braces

/-- Whether a comment is open behind a declaration with the value `value`; `inside` tells whether
one is open before it. -/
def leavesOpen
    (inside : Bool)
    (value : String) : Bool :=
  ((resting inside).after value.toList).inComment

theorem leavesOpen_of_inert
    {value : String}
    (hvalue : ∀ c ∈ value.toList, isInert c = true)
    (inside : Bool) :
    leavesOpen inside value = inside := by
  rw [leavesOpen, after_resting hvalue, inComment_resting]

end Css

namespace StyleRule

open Css Lexer

/-- Whether a comment is open at the end of a rule. -/
def leavesOpen (r : StyleRule) : Bool :=
  r.declarations.foldl (fun inside d => Css.leavesOpen inside d.2) false

theorem isInert_of_isProperty
    {property : String}
    (hproperty : Style.isProperty property = true) :
    ∀ c ∈ property.toList, isInert c = true ∧ c ≠ '{' ∧ c ≠ '}' := by
  intro c hc
  have hchar := List.all_eq_true.1 (Bool.and_eq_true_iff.1 hproperty).2 c hc
  refine ⟨isInert_of_apply (p := fun c => isAsciiLetter c || c = '-') (by decide) hchar, ?_, ?_⟩
  · rintro rfl
    exact absurd hchar (by decide)
  · rintro rfl
    exact absurd hchar (by decide)

/-- A declaration on a line of its own. -/
def declarationChars (d : String × String) : List Char :=
  ("  " ++ d.1 ++ ": " ++ d.2 ++ ";\n").toList

/-- A declaration leaves a comment open exactly if its value does. -/
theorem after_declaration
    {d : String × String}
    (hproperty : Style.isProperty d.1 = true)
    (inside : Bool) :
    (resting inside).after (declarationChars d) = resting (Css.leavesOpen inside d.2) := by
  have hfront : ∀ c ∈ "  ".toList ++ (d.1.toList ++ ": ".toList), isInert c = true := by
    rw [List.forall_mem_append, List.forall_mem_append]
    exact ⟨List.all_eq_true.1 (by decide), fun c hc => (isInert_of_isProperty hproperty c hc).1,
      List.all_eq_true.1 (by decide)⟩
  have htext : declarationChars d =
      ("  ".toList ++ (d.1.toList ++ ": ".toList)) ++ (d.2.toList ++ [';', '\n']) := by
    simp [declarationChars]
  rw [htext, after_append, after_resting hfront, after_append, after_declarationEnd,
    Css.leavesOpen]

theorem after_declarations
    {ds : List (String × String)}
    (hds : ∀ d ∈ ds, Style.isProperty d.1 = true)
    (inside : Bool) :
    (resting inside).after (ds.flatMap declarationChars) =
      resting (ds.foldl (fun inside d => Css.leavesOpen inside d.2) inside) := by
  induction ds generalizing inside with
  | nil =>
      rfl
  | cons d ds ih =>
      rw [List.forall_mem_cons] at hds
      rw [List.flatMap_cons, after_append, after_declaration hds.1, ih hds.2, List.foldl_cons]

/-- The text of a rule: what opens its block, its declarations, and what closes it. -/
theorem toList_text
    (r : StyleRule) :
    r.text.toList = (r.selector.toList ++ [' ', '{', '\n']) ++
      (r.declarations.flatMap declarationChars ++ ['}']) := by
  rw [text, String.toList_append, String.toList_append, String.toList_append, Page.toList_join,
    List.flatMap_map]
  change _ ++ r.declarations.flatMap declarationChars ++ _ = _
  simp

section Text

variable {r : StyleRule}

theorem isInert_opening
    (hselector : ∀ c ∈ r.selector.toList, isInert c = true) :
    ∀ c ∈ r.selector.toList ++ [' ', '{', '\n'], isInert c = true :=
  List.forall_mem_append.2 ⟨hselector, List.all_eq_true.1 (by decide)⟩

theorem after_opening
    (hselector : ∀ c ∈ r.selector.toList, isInert c = true) :
    Lexer.code.after (r.selector.toList ++ [' ', '{', '\n']) = resting false :=
  after_resting (isInert_opening hselector) false

/-- Declarations hold no braces, so these are those of the rules. -/
theorem brace_not_mem_declarations
    (hr : r.Harmless)
    {brace : Char}
    (hbrace : brace = '{' ∨ brace = '}') :
    brace ∉ r.declarations.flatMap declarationChars := by
  intro hmem
  obtain ⟨d, hd, hmem⟩ := List.mem_flatMap.1 hmem
  simp only [declarationChars, String.toList_append, List.mem_append] at hmem
  rcases hmem with (((hmem | hmem) | hmem) | hmem) | hmem
  · rcases hbrace with rfl | rfl <;> exact absurd hmem (by decide)
  · have hproperty := (isInert_of_isProperty (hr.property d hd) brace hmem).2
    exact hbrace.elim hproperty.1 hproperty.2
  · rcases hbrace with rfl | rfl <;> exact absurd hmem (by decide)
  · have hvalue := hr.value d hd brace hmem
    rcases hbrace with rfl | rfl <;> exact absurd hvalue (by decide)
  · rcases hbrace with rfl | rfl <;> exact absurd hmem (by decide)

/-- A rule leaves a comment open exactly if its declarations do. -/
theorem after_text
    (hselector : ∀ c ∈ r.selector.toList, isInert c = true)
    (hproperty : ∀ d ∈ r.declarations, Style.isProperty d.1 = true) :
    Lexer.code.after r.text.toList = resting r.leavesOpen := by
  rw [toList_text, after_append, after_opening hselector, after_append,
    after_declarations hproperty, after_resting (List.all_eq_true.1 (by decide))]
  rfl

/-- The values of a rule hold no brace, so its braces are the two that open and close its block. The
first is always met outside, the second unless a comment is open. -/
theorem bracesOutside_text_iff
    (hselector : ∀ c ∈ r.selector.toList, isInert c = true)
    (hr : r.Harmless) :
    BracesOutside .code r.text.toList ↔ r.leavesOpen = false := by
  have hfirst : BracesOutside .code (r.selector.toList ++ [' ', '{', '\n']) :=
    bracesOutside_of_inert (isInert_opening hselector)
  have hinside : BracesOutside (resting false) (r.declarations.flatMap declarationChars) :=
    bracesOutside_of_not_mem (brace_not_mem_declarations hr (Or.inl rfl))
      (brace_not_mem_declarations hr (Or.inr rfl))
  rw [toList_text, bracesOutside_append, and_iff_right hfirst, after_opening hselector,
    bracesOutside_append, and_iff_right hinside, after_declarations hr.property,
    bracesOutside_close_iff]
  rfl

end Text

end StyleRule

namespace Css

open Lexer

/-- Blocks that the reader is outside of again, once it has met their braces outside, do not depend
on each other. -/
theorem bracesOutside_join
    {blocks : List String}
    (hblocks : ∀ b ∈ blocks, BracesOutside .code b.toList → Lexer.code.after b.toList = .code) :
    BracesOutside .code (Text.join "\n\n" blocks).toList ↔
      ∀ b ∈ blocks, BracesOutside .code b.toList := by
  fun_induction Text.join "\n\n" blocks with
  | case1 =>
      simpa using bracesOutside_of_not_mem (by simp) (by simp)
  | case2 b =>
      simp
  | case3 b blocks hmore ih =>
      rw [List.forall_mem_cons] at hblocks
      rw [List.forall_mem_cons, ← ih hblocks.2, String.toList_append, String.toList_append,
        bracesOutside_append, bracesOutside_append, after_append]
      have hgap : Lexer.code.after "\n\n".toList = .code := by decide
      constructor
      · rintro ⟨⟨hb, -⟩, hrest⟩
        rw [hblocks.1 hb, hgap] at hrest
        exact ⟨hb, hrest⟩
      · rintro ⟨hb, hrest⟩
        rw [hblocks.1 hb, hgap]
        exact ⟨⟨hb, bracesOutside_of_not_mem (by decide) (by decide)⟩, hrest⟩

end Css

namespace Stylesheet

open Css Lexer

theorem isInert_keyframesText
    {name : String}
    (hname : isIdentifier name = true) :
    ∀ c ∈ (keyframesText name).toList, isInert c = true := by
  obtain ⟨-, -, -, -, hchars⟩ := exists_of_isIdentifier hname
  simp only [keyframesText, String.toList_append, List.forall_mem_append]
  exact ⟨⟨List.all_eq_true.1 (by decide), fun c hc => isInert_of_apply (by decide) (hchars c hc)⟩,
    List.all_eq_true.1 (by decide)⟩

/-- The braces of a stylesheet are met outside comments and strings exactly if no rule leaves a
comment open. -/
theorem bracesOutside_text_iff
    {s : Stylesheet}
    (hs : s.Harmless)
    (hselectors : ∀ r ∈ s.rules, ∀ c ∈ r.selector.toList, isInert c = true) :
    BracesOutside .code s.text.toList ↔ ∀ r ∈ s.rules, r.leavesOpen = false := by
  have hkeyframes : ∀ name ∈ s.keyframes, BracesOutside .code (keyframesText name).toList ∧
      Lexer.code.after (keyframesText name).toList = .code := by
    intro name hname
    have hinert := isInert_keyframesText (hs.keyframes name hname)
    exact ⟨bracesOutside_of_inert hinert, after_resting hinert false⟩
  have hrules : ∀ r ∈ s.rules,
      (BracesOutside .code r.text.toList ↔ r.leavesOpen = false) ∧
        Lexer.code.after r.text.toList = resting r.leavesOpen := fun r hr =>
    ⟨StyleRule.bracesOutside_text_iff (hselectors r hr) (hs.rules r hr),
      StyleRule.after_text (hselectors r hr) (hs.rules r hr).property⟩
  have hend : BracesOutside .code s.text.toList ↔ BracesOutside .code
      (Text.join "\n\n" (s.keyframes.map keyframesText ++ s.rules.map StyleRule.text)).toList := by
    rw [text]
    split
    · next hempty => rw [List.isEmpty_iff.1 hempty]; rfl
    · rw [String.toList_append, bracesOutside_append,
        and_iff_left (bracesOutside_of_not_mem (by decide) (by decide))]
  rw [hend, bracesOutside_join]
  · rw [List.forall_mem_append, List.forall_mem_map, List.forall_mem_map,
      and_iff_right fun name hname => (hkeyframes name hname).1]
    exact forall₂_congr fun r hr => (hrules r hr).1
  · rw [List.forall_mem_append, List.forall_mem_map, List.forall_mem_map]
    refine ⟨fun name hname _ => (hkeyframes name hname).2, fun r hr hbraces => ?_⟩
    rw [(hrules r hr).2, (hrules r hr).1.1 hbraces]
    rfl

end Stylesheet

namespace Style

/-- Whether the values of a style, one after another, leave a comment open. -/
def leavesOpen (style : Style) : Bool :=
  style.entries.foldl (fun inside d => Css.leavesOpen inside d.2) false

end Style

namespace Header

variable {h : Header}

/-- An animation neither opens nor closes a comment, so the style of an element decides. -/
theorem leavesOpen_of_rule?
    (herrors : h.errors = [])
    {r : StyleRule}
    (hr : h.rule? = some r) :
    r.leavesOpen = h.style.elim false Style.leavesOpen := by
  obtain ⟨anchor, -, rfl⟩ := Option.map_eq_some_iff.1 hr
  rw [StyleRule.leavesOpen, declarations, List.foldl_append]
  have hanimation : ∀ a, h.animation? = some a → ∀ inside,
      Css.leavesOpen inside a.text = inside := fun a ha => Css.leavesOpen_of_inert
    ((wellFormed_animation herrors ha).forall_mem_text (by decide)
      (Css.Lexer.isInert_of_apply (by decide)))
  cases ha : h.animation? with
  | none =>
      cases h.style <;> rfl
  | some a =>
      rw [List.foldl_cons, hanimation a ha]
      cases h.style <;> rfl

/-- Only a style can leave a comment open in a rule, and only if the rule holds it. -/
theorem leavesOpen_rule?_iff
    (herrors : h.errors = []) :
    (∀ r, h.rule? = some r → r.leavesOpen = false) ↔
      (h.anchor.isSome = true → ∀ style, h.style = some style → style.leavesOpen = false) := by
  cases hanchor : h.anchor with
  | none =>
      simp [rule?, hanchor]
  | some anchor =>
      have hr : h.rule? = some ⟨anchor.selector, h.declarations⟩ := by rw [rule?, hanchor]; rfl
      have hopen := leavesOpen_of_rule? herrors hr
      cases hstyle : h.style <;> simp [hr, hopen, hstyle]

theorem isInert_selector
    (herrors : h.errors = [])
    {r : StyleRule}
    (hr : h.rule? = some r) :
    ∀ c ∈ r.selector.toList, Css.Lexer.isInert c = true := by
  obtain ⟨anchor, hanchor, rfl⟩ := Option.map_eq_some_iff.1 hr
  intro c hc
  rcases mem_selector herrors hanchor c hc with rfl | rfl | hc
  · decide
  · decide
  · exact Css.Lexer.isInert_of_apply (by decide) hc

end Header

/-- All braces of a compiled stylesheet are met outside comments and strings exactly if no style
with a rule leaves a comment open. Styles hold no braces, so all braces are those of rules and
keyframes. -/
theorem compile_braces_outside_iff
    {source file : String}
    {options : CompileOptions}
    {bundle : Bundle}
    (hcompile : compile source file options = .ok bundle) :
    ∃ document, Document.read source file = .ok document ∧
      (Css.BracesOutside .code bundle.css.toList ↔
        ∀ h ∈ document.headers, h.anchor.isSome = true →
          ∀ style, h.style = some style → style.leavesOpen = false) := by
  obtain ⟨document, warnings, hread, hvalid, rfl⟩ := exists_document_of_compile hcompile
  have herrors : ∀ h ∈ document.headers, h.errors = [] := fun h hh =>
    Document.errors_eq_nil_of_mem_headers hvalid hh
  have hrules : (Stylesheet.ofDocument document).rules =
      document.headers.filterMap Header.rule? := by
    rw [Stylesheet.ofDocument, Document.elements_map_header]
  have hselectors : ∀ r ∈ (Stylesheet.ofDocument document).rules,
      ∀ c ∈ r.selector.toList, Css.Lexer.isInert c = true := by
    intro r hr
    rw [hrules] at hr
    obtain ⟨h, hh, hr⟩ := List.mem_filterMap.1 hr
    exact Header.isInert_selector (herrors h hh) hr
  have htext := Stylesheet.bracesOutside_text_iff (Document.harmless_stylesheet hvalid) hselectors
  refine ⟨document, hread, htext.trans ?_⟩
  rw [hrules]
  constructor
  · intro hclosed h hh
    refine (Header.leavesOpen_rule?_iff (herrors h hh)).1 fun r hr => ?_
    exact hclosed r (List.mem_filterMap.2 ⟨h, hh, hr⟩)
  · intro hclosed r hr
    obtain ⟨h, hh, hr⟩ := List.mem_filterMap.1 hr
    exact (Header.leavesOpen_rule?_iff (herrors h hh)).2 (hclosed h hh) r hr

/-- A comment that one value opens and another closes, a comment sign in a string and a string that
ends with its line. -/
def commentedPage : String :=
  "p#a(style: \"color: /*; width: */ 1px\", animate: \"fade 2s\")\n" ++
    "p.b(style: \"content: '/* \\\\' /*'; color: 'red\")\n"

def commentedPageCss : String :=
  "@keyframes fade \x7b\n  0% \x7b opacity: 0; \x7d\n  100% \x7b opacity: 1; \x7d\n\x7d\n\n" ++
  "#a \x7b\n  color: /*;\n  width: */ 1px;\n  animation: fade 2s;\n\x7d\n\n" ++
  ".hx-2-1 \x7b\n  content: '/* \\' /*';\n  color: 'red;\n\x7d\n"

theorem compile_braces_outside_iff_commentedPage :
    ∃ bundle, compile commentedPage "page" CompileOptions.standard = .ok bundle ∧
      bundle.css = commentedPageCss ∧ Css.BracesOutside .code commentedPageCss.toList ∧
      ∃ document, Document.read commentedPage "page" = .ok document ∧
        ∀ h ∈ document.headers, h.anchor.isSome = true →
          ∀ style, h.style = some style → style.leavesOpen = false := by
  have hcss : (compile commentedPage "page" CompileOptions.standard).toOption.map (·.css) =
      some commentedPageCss := by
    decide +kernel
  have hstyles : (Document.read commentedPage "page").toOption.map (fun document =>
      document.headers.all fun h => h.style.all fun style => !style.leavesOpen) = some true := by
    decide +kernel
  cases hcompile : compile commentedPage "page" CompileOptions.standard with
  | error e =>
      rw [hcompile] at hcss
      cases hcss
  | ok bundle =>
      rw [hcompile] at hcss
      have htext : bundle.css = commentedPageCss := Option.some.inj hcss
      obtain ⟨document, hread, hbraces⟩ := compile_braces_outside_iff hcompile
      rw [hread] at hstyles
      have hclosed : ∀ h ∈ document.headers, h.anchor.isSome = true →
          ∀ style, h.style = some style → style.leavesOpen = false := by
        intro h hh _ style hstyle
        have hstyleClosed := List.all_eq_true.1 (Option.some.inj hstyles) h hh
        rw [hstyle] at hstyleClosed
        exact Bool.eq_false_of_not_eq_true' hstyleClosed
      exact ⟨bundle, rfl, htext, htext ▸ hbraces.2 hclosed, document, hread, hclosed⟩

/-- A value that opens a comment, and a rule behind it. -/
def openComment : String := "p#a(style: \"color: red /* note\")\np#b(style: \"color: blue\")\n"

/-- The comment swallows the end of its rule and all of the next one. -/
theorem openComment_hides_braces :
    ∃ bundle, compile openComment "index.htmlx" CompileOptions.standard = .ok bundle ∧
      ¬Css.BracesOutside .code bundle.css.toList := by
  have hbraces : (compile openComment "index.htmlx" CompileOptions.standard).toOption.any
      (fun bundle => bundle.css.toList = "#a \x7b\n  color: red /* note;\n".toList ++
        '}' :: "\n\n#b \x7b\n  color: blue;\n\x7d\n".toList) = true := by decide +kernel
  cases hcompile : compile openComment "index.htmlx" CompileOptions.standard with
  | error e =>
      simp [hcompile, Except.toOption] at hbraces
  | ok bundle =>
      simp only [hcompile, Except.toOption, Option.any_some, decide_eq_true_eq] at hbraces
      refine ⟨bundle, rfl, fun houtside => ?_⟩
      exact absurd (houtside _ '}' _ hbraces (Or.inr rfl)) (by decide +kernel)

end BlockMarkup
