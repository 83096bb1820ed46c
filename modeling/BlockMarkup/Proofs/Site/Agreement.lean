import BlockMarkup.Site.Pipeline
import Mathlib.Tactic

/-!
# Pipelines and the compiler

A pipeline takes a whole batch of drafts through one stage before the next, and the drafts carry
half of the work from stage to stage. Compiling does all the work on one source. Here the two are
shown to agree: the stages that need no files never halt on fresh drafts, what they make of a draft
does not depend on the other drafts, and it is what compiling the source of that draft gives.
-/

namespace BlockMarkup

namespace Draft

/-- Whether nothing has been done with a draft. -/
structure IsFresh (d : Draft) : Prop where
  document : d.document = none
  warnings : d.warnings = []
  bundle : d.bundle = none
  failure : d.failure = none

/-- Whether a draft has a tree, if it has not failed. -/
def IsReady (d : Draft) : Prop := d.failure = none → ∃ document, d.document = some document

/-- Takes a draft through a step unless it has failed. -/
def through
    (step : Draft → Draft)
    (d : Draft) : Draft :=
  if d.hasFailed then d else step d

/-- Takes a draft that has a tree through a step. -/
def withTree
    (step : Draft → Document → Draft)
    (d : Draft) : Draft :=
  match d.document with
  | some document => step d document
  | none => d

variable {d : Draft}

theorem through_of_failed
    {e : Failure}
    (hd : d.failure = some e)
    (step : Draft → Draft) :
    d.through step = d := by
  simp [through, hasFailed, hd]

theorem through_of_ok
    (hd : d.failure = none)
    (step : Draft → Draft) :
    d.through step = step d := by
  simp [through, hasFailed, hd]

theorem withTree_of_some
    {document : Document}
    (hd : d.document = some document)
    (step : Draft → Document → Draft) :
    d.withTree step = step d document := by
  simp [withTree, hd]

/-- What checking makes of a draft. -/
def checked
    (options : CompileOptions)
    (d : Draft) : Draft :=
  ((d.through parse).through (withTree nest)).through
    (withTree fun d document => d.validate document options)

/-- What checking and emitting make of a draft. -/
def built
    (options : CompileOptions)
    (d : Draft) : Draft :=
  (d.checked options).through (withTree fun d document => d.emit document options)

/-- Whether a draft has been brought to what compiling its source gives. -/
def Agrees
    (options : CompileOptions)
    (d result : Draft) : Prop :=
  match compile d.source d.name options with
  | .ok bundle =>
    result.bundle = some bundle ∧ result.warnings = bundle.warnings ∧ result.failure = none
  | .error e =>
    result.failure = some e ∧ result.document = none ∧ result.bundle = none ∧ result.warnings = []

theorem parse_of_ok
    {document : Document}
    (hparse : Document.parse d.source d.name = .ok document) :
    d.parse = { d with document := some document } := by
  rw [parse, hparse]

theorem parse_of_error
    {e : Failure}
    (hparse : Document.parse d.source d.name = .error e) :
    d.parse = d.fail e := by
  rw [parse, hparse]

/-- Nesting replaces the tree that a draft has. -/
theorem nest_of_tree
    (d : Draft)
    (tree : Option Document)
    (document : Document) :
    ({ d with document := tree } : Draft).nest document =
      match document.nestFrom d.name with
      | .ok nested => { d with document := some nested }
      | .error e => d.fail e := by
  have hname : ({ d with document := tree } : Draft).name = d.name := rfl
  rw [nest, hname]
  cases document.nestFrom d.name <;> rfl

/-- Parsing and nesting a fresh draft reads its source. -/
theorem nested_eq
    (hd : d.failure = none) :
    (d.through parse).through (withTree nest) =
      match Document.read d.source d.name with
      | .ok document => { d with document := some document }
      | .error e => d.fail e := by
  rw [through_of_ok hd, Document.read]
  cases hparse : Document.parse d.source d.name with
  | error e =>
      rw [parse_of_error hparse, through_of_failed rfl]
  | ok parsed =>
      have hparsed : ({ d with document := some parsed } : Draft).failure = none := hd
      rw [parse_of_ok hparse, through_of_ok hparsed, withTree_of_some rfl, nest_of_tree]

/-- Checking a fresh draft reads its source and validates what was read. -/
theorem checked_eq
    (hd : d.failure = none)
    (options : CompileOptions) :
    d.checked options =
      match Document.read d.source d.name with
      | .ok document =>
        let validation := document.validate d.name options.animationThreshold
        if validation.isOk then
          { d with document := some document, warnings := validation.warnings }
        else d.fail (.invalid validation)
      | .error e => d.fail e := by
  rw [checked, nested_eq hd]
  cases hread : Document.read d.source d.name with
  | error e =>
      exact through_of_failed rfl _
  | ok document =>
      have hnested : ({ d with document := some document } : Draft).failure = none := hd
      simp only
      rw [through_of_ok hnested, withTree_of_some rfl]
      rfl

theorem isReady_fail
    (d : Draft)
    (e : Failure) :
    (d.fail e).IsReady := by
  intro hfailure
  cases hfailure

/-- After reading, every draft has a tree or has failed. -/
theorem isReady_parsed
    (hd : d.failure = none) :
    (d.through parse).IsReady := by
  rw [through_of_ok hd, parse]
  split
  · next document hparse => exact fun _ => ⟨document, rfl⟩
  · next e hparse => exact d.isReady_fail e

theorem isReady_nested
    (hd : d.failure = none) :
    ((d.through parse).through (withTree nest)).IsReady := by
  rw [nested_eq hd]
  split
  · next document hread => exact fun _ => ⟨document, rfl⟩
  · next e hread => exact d.isReady_fail e

theorem isReady_checked
    (hd : d.failure = none)
    (options : CompileOptions) :
    (d.checked options).IsReady := by
  rw [checked_eq hd]
  split
  · next document hread =>
      simp only
      split
      · exact fun _ => ⟨document, rfl⟩
      · exact d.isReady_fail _
  · next e hread => exact d.isReady_fail e

/-- A draft that is built has the bundle or the failure of its source. -/
theorem agrees_built
    (hd : d.IsFresh)
    (options : CompileOptions) :
    d.Agrees options (d.built options) := by
  unfold Agrees compile
  rw [built, checked_eq hd.failure]
  cases hread : Document.read d.source d.name with
  | error e =>
      simp only
      rw [through_of_failed rfl]
      exact ⟨rfl, rfl, rfl, hd.warnings⟩
  | ok document =>
      simp only
      by_cases hvalid : (document.validate d.name options.animationThreshold).isOk = true
      · rw [if_pos hvalid, if_pos hvalid]
        have hvalidated : ({ d with
            document := some document
            warnings := (document.validate d.name options.animationThreshold).warnings } :
              Draft).failure = none := hd.failure
        rw [through_of_ok hvalidated, withTree_of_some rfl]
        exact ⟨rfl, rfl, hd.failure⟩
      · rw [if_neg hvalid, if_neg hvalid, through_of_failed rfl]
        exact ⟨rfl, rfl, rfl, hd.warnings⟩

/-- Emitting changes neither the failure nor the warnings of a draft. -/
theorem built_keeps
    (options : CompileOptions)
    (d : Draft) :
    (d.built options).failure = (d.checked options).failure ∧
      (d.built options).warnings = (d.checked options).warnings := by
  rw [built, through]
  split
  · exact ⟨rfl, rfl⟩
  · rw [withTree]
    split <;> exact ⟨rfl, rfl⟩

end Draft

namespace Stage

variable {m : Type → Type} [Monad m] [LawfulMonad m] {drafts : List Draft}

/-- A step that halts on no draft changes every draft on its own. -/
theorem forEach_eq_map
    {step : Draft → m (Except Halt Draft)}
    {f : Draft → Draft}
    (hstep : ∀ d ∈ drafts, d.failure = none → step d = pure (.ok (f d))) :
    forEach step drafts = pure (drafts.map (Draft.through f), none) := by
  induction drafts with
  | nil =>
      rfl
  | cons d rest ih =>
      rw [List.forall_mem_cons] at hstep
      cases hfailure : d.failure with
      | none =>
          have hfailed : d.hasFailed = false := by simp [Draft.hasFailed, hfailure]
          simp [forEach, hfailed, hstep.1 hfailure, ih hstep.2, Draft.through]
      | some e =>
          have hfailed : d.hasFailed = true := by simp [Draft.hasFailed, hfailure]
          simp [forEach, hfailed, ih hstep.2, Draft.through]

/-- A stage that works on trees does not halt on drafts that have one. -/
theorem forEach_onTree
    (hready : ∀ d ∈ drafts, d.IsReady)
    (name : String)
    (step : Draft → Document → Draft) :
    forEach (fun d => (pure (onTree name d (step d)) : m (Except Halt Draft))) drafts =
      pure (drafts.map (Draft.through (Draft.withTree step)), none) := by
  refine forEach_eq_map fun d hd hfailure => ?_
  obtain ⟨document, hdocument⟩ := hready d hd hfailure
  rw [onTree, hdocument, Draft.withTree_of_some hdocument]

variable (target : Target)

theorem process_parse :
    (parse : Stage m).process target drafts = pure (drafts.map (Draft.through Draft.parse), none) :=
  forEach_eq_map fun _ _ _ => rfl

/-- The second stage nests every draft that has a tree, and halts for none that is ready. -/
theorem process_normalize
    (hready : ∀ d ∈ drafts, d.IsReady) :
    (normalize : Stage m).process target drafts =
      pure (drafts.map (Draft.through (Draft.withTree Draft.nest)), none) :=
  forEach_onTree hready "normalize" Draft.nest

theorem process_validate
    (hready : ∀ d ∈ drafts, d.IsReady) :
    (validate : Stage m).process target drafts =
      pure (drafts.map (Draft.through (Draft.withTree fun d document =>
        d.validate document target.options)), none) :=
  forEach_onTree hready "validate" fun d document => d.validate document target.options

theorem process_emit
    (hready : ∀ d ∈ drafts, d.IsReady) :
    (emit : Stage m).process target drafts =
      pure (drafts.map (Draft.through (Draft.withTree fun d document =>
        d.emit document target.options)), none) :=
  forEach_onTree hready "emit" fun d document => d.emit document target.options

end Stage

namespace Pipeline

variable {m : Type → Type} [Monad m] [LawfulMonad m] {target : Target} {drafts : List Draft}

/-- A stage that does not halt passes its drafts on to the next. -/
theorem run_cons
    {s : Stage m}
    {f : Draft → Draft}
    (hprocess : s.process target drafts = pure (drafts.map f, none))
    (rest : Pipeline m) :
    run target (s :: rest) drafts = run target rest (drafts.map f) := by
  rw [run, hprocess, pure_bind]

/-- Checking takes every draft of a batch, on its own, to where it is checked. -/
theorem run_checking_append
    (hdrafts : ∀ d ∈ drafts, d.failure = none)
    (rest : Pipeline m) :
    run target (checking ++ rest) drafts =
      run target rest (drafts.map (Draft.checked target.options)) := by
  have hparsed : ∀ d ∈ drafts.map (Draft.through Draft.parse), d.IsReady :=
    List.forall_mem_map.2 fun d hd => Draft.isReady_parsed (hdrafts d hd)
  have hnested : ∀ d ∈ (drafts.map (Draft.through Draft.parse)).map
      (Draft.through (Draft.withTree Draft.nest)), d.IsReady := by
    rw [List.map_map]
    exact List.forall_mem_map.2 fun d hd => Draft.isReady_nested (hdrafts d hd)
  have hchecking : (checking ++ rest : Pipeline m) =
      .parse :: .normalize :: .validate :: rest := rfl
  rw [hchecking, run_cons (Stage.process_parse target),
    run_cons (Stage.process_normalize target hparsed),
    run_cons (Stage.process_validate target hnested), List.map_map, List.map_map]
  rfl

/-- On a batch of fresh drafts, neither checking nor checking and emitting halts, and what becomes
of a draft does not depend on the others. The whole run leaves each draft with the bundle and the
warnings, or with the failure, that compiling its source gives; checking alone leaves it with the
same failure and the same warnings. -/
theorem run_agrees_with_compile
    (target : Target)
    (hfresh : ∀ d ∈ drafts, d.IsFresh) :
    run target (checking ++ [.emit]) drafts =
        (pure (drafts.map (Draft.built target.options), none) : m Progress) ∧
      run target checking drafts =
        (pure (drafts.map (Draft.checked target.options), none) : m Progress) ∧
      ∀ d ∈ drafts, d.Agrees target.options (d.built target.options) ∧
        (d.checked target.options).failure = (d.built target.options).failure ∧
        (d.checked target.options).warnings = (d.built target.options).warnings := by
  have hdrafts : ∀ d ∈ drafts, d.failure = none := fun d hd => (hfresh d hd).failure
  have hready : ∀ d ∈ drafts.map (Draft.checked target.options), d.IsReady :=
    List.forall_mem_map.2 fun d hd => Draft.isReady_checked (hdrafts d hd) target.options
  refine ⟨?_, ?_, fun d hd => ⟨Draft.agrees_built (hfresh d hd) target.options, ?_⟩⟩
  · rw [run_checking_append hdrafts, run_cons (Stage.process_emit target hready), List.map_map]
    rfl
  · rw [← List.append_nil checking, run_checking_append hdrafts]
    rfl
  · obtain ⟨hfailure, hwarnings⟩ := d.built_keeps target.options
    exact ⟨hfailure.symm, hwarnings.symm⟩

/-- A draft that compiles with a warning, one that cannot be cut into tokens, one whose lines do not
fit, and one that is not valid. -/
def mixedBatch : List Draft :=
  [.ofSource ⟨"a.htmlx"⟩ ⟨"a.htmlx"⟩ "div(animate: \"fade 2s\") \x7b hello \x7d",
    .ofSource ⟨"b.htmlx"⟩ ⟨"b.htmlx"⟩ "div(title: \"open",
    .ofSource ⟨"c.htmlx"⟩ ⟨"c.htmlx"⟩ "hello\n  div",
    .ofSource ⟨"d.htmlx"⟩ ⟨"sub/d.htmlx"⟩ "div#1"]

theorem run_agrees_with_compile_mixedBatch :
    run ⟨⟨"out"⟩, CompileOptions.standard, false⟩ (checking ++ [.emit]) mixedBatch =
        (pure (mixedBatch.map (Draft.built CompileOptions.standard), none) : Id Progress) ∧
      run ⟨⟨"out"⟩, CompileOptions.standard, false⟩ checking mixedBatch =
        (pure (mixedBatch.map (Draft.checked CompileOptions.standard), none) : Id Progress) ∧
      ∀ d ∈ mixedBatch, d.Agrees CompileOptions.standard (d.built CompileOptions.standard) ∧
        (d.checked CompileOptions.standard).failure = (d.built CompileOptions.standard).failure ∧
        (d.checked CompileOptions.standard).warnings =
          (d.built CompileOptions.standard).warnings := by
  refine run_agrees_with_compile ⟨⟨"out"⟩, CompileOptions.standard, false⟩ ?_
  simp only [mixedBatch, List.forall_mem_cons, List.not_mem_nil, false_imp_iff, implies_true,
    and_true]
  exact ⟨⟨rfl, rfl, rfl, rfl⟩, ⟨rfl, rfl, rfl, rfl⟩, ⟨rfl, rfl, rfl, rfl⟩, ⟨rfl, rfl, rfl, rfl⟩⟩

end Pipeline

end BlockMarkup
