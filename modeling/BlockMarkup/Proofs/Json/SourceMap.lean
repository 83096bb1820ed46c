import BlockMarkup.Proofs.Json.Pretty
import BlockMarkup.SourceMap.Json

/-!
# Source maps are read back

A source map whose numbers fit is the one that is read from its text. The text is read back as a
value whatever characters the strings have; what is left is that each record finds its fields in the
object that it was written as.
-/

namespace BlockMarkup

namespace Json

theorem mapM_map_eq_some
    {α β γ : Type}
    {f : α → β}
    {g : β → Option γ}
    {result : α → γ}
    {xs : List α}
    (hresult : ∀ x ∈ xs, g (f x) = some (result x)) :
    (xs.map f).mapM g = some (xs.map result) := by
  induction xs with
  | nil =>
      rfl
  | cons x xs ih =>
      rw [List.forall_mem_cons] at hresult
      simp [hresult.1, ih hresult.2]

/-- The members that an object has for fields of which some may be missing. -/
def present (given : List (String × Option Json)) : List (Option String × Json) :=
  given.filterMap fun field => field.2.map fun value => (some field.1, value)

/-- A field that is not given is not there. -/
theorem filter_present_eq_nil
    {given : List (String × Option Json)}
    {name : String}
    (hother : ∀ field ∈ given, field.1 ≠ name) :
    (present given).filter (·.1 = some name) = [] := by
  rw [List.filter_eq_nil_iff]
  intro m hm
  obtain ⟨field, hfield, hvalue⟩ := List.mem_filterMap.1 hm
  obtain ⟨value, -, rfl⟩ := Option.map_eq_some_iff.1 hvalue
  simpa using hother field hfield

/-- A name finds its own field only. -/
theorem filter_present
    {given : List (String × Option Json)}
    (hnodup : (given.map Prod.fst).Nodup)
    {field : String × Option Json}
    (hfield : field ∈ given) :
    (present given).filter (·.1 = some field.1) = present [field] := by
  obtain ⟨before, behind, rfl⟩ := List.append_of_mem hfield
  rw [List.map_append, List.map_cons, List.nodup_middle, List.nodup_cons] at hnodup
  have hother : ∀ other ∈ before ++ behind, other.1 ≠ field.1 := by
    intro other hmem heq
    rw [← List.map_append, ← heq] at hnodup
    exact hnodup.1 (List.mem_map_of_mem hmem)
  rw [List.forall_mem_append] at hother
  have hsplit : present (before ++ field :: behind) =
      present before ++ (present [field] ++ present behind) := by
    simp only [present, ← List.filterMap_append, List.singleton_append]
  rw [hsplit, List.filter_append, List.filter_append, filter_present_eq_nil hother.1,
    filter_present_eq_nil hother.2, List.nil_append, List.append_nil, List.filter_eq_self]
  intro m hm
  obtain ⟨found, hfound, hvalue⟩ := List.mem_filterMap.1 hm
  obtain ⟨value, -, rfl⟩ := Option.map_eq_some_iff.1 hvalue
  simpa using congrArg Prod.fst (List.mem_singleton.1 hfound)

/-- The fields of an object are those that it was written with. -/
theorem fields_present
    (given : List (String × Option Json))
    (hnodup : (given.map Prod.fst).Nodup) :
    fields (given.map Prod.fst) (.object (present given)) = some (given.map Prod.snd) := by
  have hnames : (present given).all (·.1.isSome) = true := by
    simp only [present, List.all_filterMap, List.all_eq_true]
    rintro ⟨name, value⟩ -
    cases value <;> rfl
  rw [fields, if_pos hnames]
  refine mapM_map_eq_some fun field hfield => ?_
  rw [filter_present hnodup hfield]
  obtain ⟨name, value⟩ := field
  cases value <;> rfl

end Json

namespace Position

/-- Whether the line and the column are not too large to be read. -/
def Fits (p : Position) : Prop := p.line ≤ maxPlace ∧ p.column ≤ maxPlace

theorem plain_toJson
    (p : Position) :
    p.toJson.Plain := by
  refine .object (by simp) ?_
  simp [Json.Plain.natural]

/-- A place is read back from its value. -/
theorem ofJson_toJson
    {p : Position}
    (hp : p.Fits) :
    ofJson p.toJson = some p := by
  have hfields : p.toJson.fields ["line", "column"] =
      some [some (.natural p.line), some (.natural p.column)] :=
    Json.fields_present [("line", some (.natural p.line)),
      ("column", some (.natural p.column))] (by simp)
  simp [ofJson, hfields, Json.natural?, hp.1, hp.2]

end Position

namespace MappingKind

theorem ofJson_name
    (kind : MappingKind) :
    ofJson (.text kind.name) = some kind := by
  cases kind <;> rfl

end MappingKind

namespace Mapping

def Fits (m : Mapping) : Prop := m.generated.Fits ∧ m.origin.Fits

theorem plain_toJson
    (m : Mapping) :
    m.toJson.Plain := by
  obtain ⟨generated, origin, kind, name⟩ := m
  cases name with
  | none =>
      refine .object (by simp) ?_
      simp [Position.plain_toJson, Json.Plain.text]
  | some name =>
      refine .object (by simp) ?_
      simp [Position.plain_toJson, Json.Plain.text]

/-- An entry is read back from its value. -/
theorem ofJson_toJson
    {m : Mapping}
    (hm : m.Fits) :
    ofJson m.toJson = some m := by
  have hfields : m.toJson.fields ["generated", "original", "kind", "name"] =
      some [some m.generated.toJson, some m.origin.toJson, some (.text m.kind.name),
        m.name.map Json.text] := by
    have hobject := Json.fields_present [("generated", some m.generated.toJson),
      ("original", some m.origin.toJson), ("kind", some (.text m.kind.name)),
      ("name", m.name.map Json.text)] (by simp)
    refine Eq.trans ?_ hobject
    rw [toJson]
    cases m.name <;> rfl
  have hname : nameOf (m.name.map Json.text) = some m.name := by
    cases m.name <;> rfl
  simp [ofJson, hfields, Position.ofJson_toJson hm.1, Position.ofJson_toJson hm.2,
    MappingKind.ofJson_name, hname]

end Mapping

namespace SourceMap

/-- Whether the numbers of a source map are not too large to be read. -/
def Fits (m : SourceMap) : Prop := m.version ≤ maxVersion ∧ ∀ mapping ∈ m.mappings, mapping.Fits

theorem plain_toValue
    (m : SourceMap) :
    m.toValue.Plain := by
  have hmappings : (Json.array (m.mappings.map Mapping.toJson)).Plain := by
    refine .array ?_
    simp [Mapping.plain_toJson]
  refine .object (by simp) ?_
  simp [Json.Plain.natural, Json.Plain.text, hmappings]

/-- A source map is read back from its value. -/
theorem ofValue_toValue
    {m : SourceMap}
    (hm : m.Fits) :
    ofValue m.toValue = some m := by
  have hfields : m.toValue.fields ["version", "file", "source", "mappings"] =
      some [some (.natural m.version), some (.text m.file), some (.text m.source),
        some (.array (m.mappings.map Mapping.toJson))] :=
    Json.fields_present [("version", some (.natural m.version)),
      ("file", some (.text m.file)), ("source", some (.text m.source)),
      ("mappings", some (.array (m.mappings.map Mapping.toJson)))] (by simp)
  have hmappings : (m.mappings.map Mapping.toJson).mapM Mapping.ofJson = some m.mappings := by
    have hread := Json.mapM_map_eq_some fun mapping hmapping =>
      Mapping.ofJson_toJson (hm.2 mapping hmapping)
    rwa [List.map_id'] at hread
  simp [ofValue, hfields, Json.natural?, hm.1, Json.text, Json.text?, hmappings]

/-- The text of a source map is that of an object with its fields, and the source map that is read
from it is the one that was written. -/
theorem ofJson_toJson_eq_some
    (m : SourceMap)
    (hm : m.Fits) :
    Json.read m.toJson = some m.toValue ∧ ofJson m.toJson = some m := by
  have hread : Json.read m.toJson = some m.toValue := Json.read_pretty (plain_toValue m) 0
  refine ⟨hread, ?_⟩
  rw [ofJson, hread, Option.bind_some, ofValue_toValue hm]

/-- A source map with the largest numbers and with all kinds of characters in its strings. -/
def crowded : SourceMap where
  version := maxVersion
  file := "\"\\/\x08\x0c\n\r\t\x00\x1f\x7f"
  source := "é\u2028😀,]\x7d:"
  mappings :=
    [⟨⟨maxPlace, 0⟩, ⟨1, maxPlace⟩, .element, some ""⟩,
      ⟨⟨0, 10⟩, ⟨100, 7⟩, .text, none⟩]

theorem ofJson_toJson_crowded :
    crowded.Fits ∧ Json.read crowded.toJson = some crowded.toValue ∧
      ofJson crowded.toJson = some crowded := by
  have hfits : crowded.Fits := by
    simp [Fits, Mapping.Fits, Position.Fits, crowded, maxPlace]
  exact ⟨hfits, ofJson_toJson_eq_some crowded hfits⟩

end SourceMap

end BlockMarkup
