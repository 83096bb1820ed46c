import BlockMarkup.Validation
import Mathlib.Tactic

/-!
# Visiting elements

Validation visits the elements of a document one after another. A visit reports errors and warnings
as it comes to them, and each of them is kept with those of its severity
(`Visitor.Sorted`). The errors that a visit adds are those of its element
(`Visitor.errors_visit`), whatever was visited before, so the errors of a document are those of its
elements one after another.
-/

namespace BlockMarkup

/-- What is in a list that has one item or none. -/
theorem eq_of_mem_ite
    {α : Type}
    {p : Prop}
    [Decidable p]
    {a b : α}
    (h : (a ∈ if p then [b] else []) ∨ a ∈ if p then [] else [b]) :
    a = b := by
  split at h <;> simpa using h

namespace Header

def attributeErrors (h : Header) : List Diagnostic :=
  h.attributes.entries.flatMap fun entry => entry.2.errors h.position entry.1

/-- The errors of an element. -/
def errors (h : Header) : List Diagnostic :=
  h.tagErrors ++ h.idErrors ++ h.classErrors ++ h.attributeErrors

end Header

/-! ## The severities of errors -/

theorem Attribute.severity_of_mem_errors
    {position : Position}
    {name : String}
    {value : Attribute}
    {d : Diagnostic}
    (hd : d ∈ value.errors position name) :
    d.severity = .error := by
  cases value with
  | text value =>
      simp only [errors] at hd
      split at hd
      · split at hd
        · cases hd
        · rw [List.mem_singleton.1 hd]
          rfl
      · cases hd
  | style declarations =>
      obtain ⟨⟨property, value⟩, -, hd⟩ := List.mem_flatMap.1 hd
      rcases List.mem_append.1 hd with hd | hd <;>
      · rw [eq_of_mem_ite (Or.inr hd)]
        rfl
  | directive directive =>
      rw [eq_of_mem_ite (Or.inl hd)]
      rfl

namespace Header

variable {h : Header} {d : Diagnostic}

theorem severity_of_mem_tagErrors
    (hd : d ∈ h.tagErrors) :
    d.severity = .error := by
  rw [eq_of_mem_ite (Or.inr hd)]
  rfl

theorem severity_of_mem_idErrors
    (hd : d ∈ h.idErrors) :
    d.severity = .error := by
  unfold idErrors at hd
  split at hd
  · cases hd
  · rw [eq_of_mem_ite (Or.inr hd)]
    rfl

theorem severity_of_mem_classErrors
    (hd : d ∈ h.classErrors) :
    d.severity = .error := by
  obtain ⟨name, -, hname⟩ := List.mem_flatMap.1 hd
  rw [eq_of_mem_ite (Or.inr hname)]
  rfl

end Header

theorem Element.severity_of_mem_voidWarnings
    {e : Element}
    {d : Diagnostic}
    (hd : d ∈ e.voidWarnings) :
    d.severity = .warning := by
  rw [eq_of_mem_ite (Or.inl hd)]
  rfl

namespace Visitor

variable {v : Visitor}

/-! ## Reports -/

/-- Keeps more errors. -/
@[simps] def addErrors (v : Visitor) (ds : List Diagnostic) : Visitor :=
  { v with validation.errors := v.validation.errors ++ ds }

/-- Keeps more warnings. -/
@[simps] def addWarnings (v : Visitor) (ds : List Diagnostic) : Visitor :=
  { v with validation.warnings := v.validation.warnings ++ ds }

section Report

variable {d : Diagnostic} {ds : List Diagnostic}

theorem report_of_error
    (hd : d.severity = .error) :
    v.report d = v.addErrors [d] := by
  simp [report, Validation.push, hd, addErrors]

theorem report_of_warning
    (hd : d.severity = .warning) :
    v.report d = v.addWarnings [d] := by
  simp [report, Validation.push, hd, addWarnings]

theorem reportAll_of_errors
    (hds : ∀ d ∈ ds, d.severity = .error) :
    v.reportAll ds = v.addErrors ds := by
  induction ds generalizing v with
  | nil =>
      simp [reportAll, addErrors]
  | cons d rest ih =>
      rw [List.forall_mem_cons] at hds
      have hrest := ih (v := v.report d) hds.2
      rw [reportAll, List.foldl_cons, ← reportAll, hrest, report_of_error hds.1]
      simp [addErrors]

theorem reportAll_of_warnings
    (hds : ∀ d ∈ ds, d.severity = .warning) :
    v.reportAll ds = v.addWarnings ds := by
  induction ds generalizing v with
  | nil =>
      simp [reportAll, addWarnings]
  | cons d rest ih =>
      rw [List.forall_mem_cons] at hds
      have hrest := ih (v := v.report d) hds.2
      rw [reportAll, List.foldl_cons, ← reportAll, hrest, report_of_warning hds.1]
      simp [addWarnings]

end Report

/-! ## Errors -/

/-- The errors of an attribute are kept, and what depends on earlier elements is no error. -/
theorem errors_visitAttribute
    (position : Position)
    (v : Visitor)
    (entry : String × Attribute) :
    (v.visitAttribute position entry).validation.errors =
      v.validation.errors ++ entry.2.errors position entry.1 := by
  have hcount : ∀ v : Visitor,
      (v.countAnimation position).validation.errors = v.validation.errors := by
    intro v
    simp only [countAnimation]
    split_ifs <;> rfl
  rw [visitAttribute, reportAll_of_errors fun d hd => Attribute.severity_of_mem_errors hd]
  split
  · split_ifs
    · rw [hcount, addErrors_validation_errors]
    · rw [report_of_warning rfl, addWarnings_validation_errors, addErrors_validation_errors]
    · rfl
  · rfl

/-- Going through the attributes adds the errors of each of them, in order. -/
theorem errors_foldl_visitAttribute
    (position : Position)
    (v : Visitor)
    (entries : List (String × Attribute)) :
    (entries.foldl (visitAttribute position) v).validation.errors =
      v.validation.errors ++ entries.flatMap fun entry => entry.2.errors position entry.1 := by
  induction entries generalizing v with
  | nil => simp
  | cons entry rest ih =>
      rw [List.foldl_cons, ih, errors_visitAttribute, List.flatMap_cons, List.append_assoc]

theorem errors_visitId
    (v : Visitor)
    (position : Position)
    (id : Option String) :
    (id.elim v (v.visitId position)).validation.errors = v.validation.errors := by
  cases id with
  | none => rfl
  | some id =>
      rw [Option.elim_some, visitId]
      split
      · rw [report_of_warning rfl, addWarnings_validation_errors]
      · rfl

/-- A visit adds the errors of its element. -/
theorem errors_visit
    (v : Visitor)
    (e : Element) :
    (v.visit e).validation.errors = v.validation.errors ++ e.header.errors := by
  rw [visit, reportAll_of_warnings fun d => Element.severity_of_mem_voidWarnings,
    reportAll_of_errors fun d => Header.severity_of_mem_classErrors,
    reportAll_of_errors fun d => Header.severity_of_mem_idErrors,
    reportAll_of_errors fun d => Header.severity_of_mem_tagErrors]
  simp only [addWarnings_validation_errors, errors_foldl_visitAttribute,
    addErrors_validation_errors, errors_visitId, Header.errors, Header.attributeErrors,
    List.append_assoc]

/-- A whole pass adds the errors of each element, in order. -/
theorem errors_foldl_visit
    (v : Visitor)
    (elements : List Element) :
    (elements.foldl visit v).validation.errors =
      v.validation.errors ++ elements.flatMap fun e => e.header.errors := by
  induction elements generalizing v with
  | nil => simp
  | cons e rest ih =>
      rw [List.foldl_cons, ih, errors_visit, List.flatMap_cons, List.append_assoc]

/-! ## The split by severity -/

/-- Whether what is kept is about `file`, each diagnostic with those of its severity. -/
structure Sorted
    (file : String)
    (v : Visitor) : Prop where
  file_eq : v.validation.file = file
  errors : ∀ d ∈ v.validation.errors, d.severity = .error
  warnings : ∀ d ∈ v.validation.warnings, d.severity = .warning

namespace Sorted

variable {file : String}

/-- One report keeps errors and warnings apart. -/
theorem report
    (h : v.Sorted file)
    (d : Diagnostic) :
    (v.report d).Sorted file := by
  cases hd : d.severity with
  | error =>
      rw [report_of_error hd]
      exact ⟨h.file_eq, List.forall_mem_append.2 ⟨h.errors, by simpa using hd⟩, h.warnings⟩
  | warning =>
      rw [report_of_warning hd]
      exact ⟨h.file_eq, h.errors, List.forall_mem_append.2 ⟨h.warnings, by simpa using hd⟩⟩

/-- What every step keeps is kept by all of them. -/
theorem foldl
    {α : Type}
    {step : Visitor → α → Visitor}
    (hstep : ∀ {v : Visitor}, v.Sorted file → ∀ a, (step v a).Sorted file)
    (h : v.Sorted file)
    (as : List α) :
    (as.foldl step v).Sorted file := by
  induction as generalizing v with
  | nil => exact h
  | cons a rest ih => exact ih (hstep h a)

theorem reportAll
    (h : v.Sorted file)
    (ds : List Diagnostic) :
    (v.reportAll ds).Sorted file :=
  foldl report h ds

theorem visitId
    (h : v.Sorted file)
    (position : Position)
    (id : String) :
    (v.visitId position id).Sorted file := by
  rw [Visitor.visitId]
  split
  · exact h.report _
  · exact ⟨h.file_eq, h.errors, h.warnings⟩

theorem countAnimation
    (h : v.Sorted file)
    (position : Position) :
    (v.countAnimation position).Sorted file := by
  have hcounted : { v with animated := v.animated + 1 }.Sorted file :=
    ⟨h.file_eq, h.errors, h.warnings⟩
  simp only [Visitor.countAnimation]
  split_ifs
  · exact (hcounted.report _).report _
  · exact hcounted.report _
  · exact hcounted.report _
  · exact hcounted

theorem visitAttribute
    (position : Position)
    (h : v.Sorted file)
    (entry : String × Attribute) :
    (v.visitAttribute position entry).Sorted file := by
  have herrors := h.reportAll (entry.2.errors position entry.1)
  rw [Visitor.visitAttribute]
  split
  · split_ifs
    · exact herrors.countAnimation position
    · exact herrors.report _
    · exact herrors
  · exact herrors

/-- One visit keeps errors and warnings apart. -/
theorem visit
    (h : v.Sorted file)
    (e : Element) :
    (v.visit e).Sorted file := by
  have hids : ∀ {v : Visitor}, v.Sorted file →
      (e.header.id.elim v (v.visitId e.header.position)).Sorted file := by
    intro v hv
    cases e.header.id with
    | none => exact hv
    | some id => exact hv.visitId e.header.position id
  refine reportAll (foldl (visitAttribute _) ?_ _) _
  exact (hids ((h.reportAll _).reportAll _)).reportAll _

end Sorted

end Visitor

namespace Document

variable (document : Document) (file : String) (threshold : Nat)

/-- Validation gives the errors of all elements, in the order of the source. -/
theorem errors_validate :
    (document.validate file threshold).errors =
      document.elements.flatMap fun e => e.header.errors :=
  Visitor.errors_foldl_visit _ _

/-- A whole pass keeps errors and warnings apart. -/
theorem sorted_foldl_visit :
    (document.elements.foldl Visitor.visit (.start file threshold)).Sorted file := by
  have hstart : (Visitor.start file threshold).Sorted file := ⟨rfl, nofun, nofun⟩
  exact Visitor.Sorted.foldl Visitor.Sorted.visit hstart document.elements

theorem file_validate : (document.validate file threshold).file = file :=
  (document.sorted_foldl_visit file threshold).file_eq

/-- Warnings never have a rule that is one for errors. -/
theorem severity_of_mem_warnings
    {d : Diagnostic}
    (hd : d ∈ (document.validate file threshold).warnings) :
    d.severity = .warning :=
  (document.sorted_foldl_visit file threshold).warnings d hd

end Document

end BlockMarkup
