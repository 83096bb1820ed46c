import BlockMarkup.Files.Tree
import BlockMarkup.Proofs.Dict
import BlockMarkup.Proofs.Path.Components
import Mathlib.Tactic

/-!
# Places of a file tree

A file tree is seen through what lies at its places: a file of some type, a directory, or nothing.
What putting and removing do is said for every place. In a tree whose directories have no name
twice, the list of all files holds the place of each file once.
-/

namespace BlockMarkup

namespace FileTree

/-- What can lie at a place. -/
inductive Entry where
  | file (file : File)
  | directory

def entry : FileTree → Entry
  | file f => .file f
  | directory _ => .directory

/-- What lies at a place, if anything. -/
def entryAt? (t : FileTree) (place : List String) : Option Entry := (t.find? place).map entry

/-- Induction over a tree, with the entries of a directory at hand. -/
theorem inductionOn
    {motive : FileTree → Prop}
    (file : ∀ f, motive (.file f))
    (directory : ∀ entries : List (String × FileTree),
      (∀ e ∈ entries, motive e.2) → motive (.directory entries))
    (t : FileTree) :
    motive t := by
  refine @FileTree.rec motive (fun entries => ∀ e ∈ entries, motive e.2) (fun e => motive e.2)
    file directory ?_ ?_ ?_ t
  · intro e he
    cases he
  · intro e rest he hrest
    exact List.forall_mem_cons.2 ⟨he, hrest⟩
  · intro name t ht
    exact ht

variable {t new : FileTree} {name : String} {place other : List String}
  {entries : List (String × FileTree)}

@[simp] theorem find?_nil
    (t : FileTree) :
    t.find? [] = some t := by
  rw [find?]

@[simp] theorem find?_file
    (f : File)
    (name : String)
    (place : List String) :
    (file f).find? (name :: place) = none := by
  rw [find?]

@[simp] theorem find?_directory
    (entries : List (String × FileTree))
    (name : String)
    (place : List String) :
    (directory entries).find? (name :: place) = (entries.lookup name).bind (·.find? place) := by
  rw [find?]
  cases entries.lookup name <;> rfl

theorem find?_append
    (t : FileTree)
    (place other : List String) :
    t.find? (place ++ other) = (t.find? place).bind (·.find? other) := by
  induction place generalizing t with
  | nil => simp
  | cons name place ih =>
      cases t with
      | file f => simp
      | directory entries => cases hname : entries.lookup name <;> simp [hname, ih]

@[simp] theorem entryAt?_nil
    (t : FileTree) :
    t.entryAt? [] = some t.entry := by
  simp [entryAt?]

@[simp] theorem entryAt?_file
    (f : File)
    (name : String)
    (place : List String) :
    (file f).entryAt? (name :: place) = none := by
  simp [entryAt?]

@[simp] theorem entryAt?_directory
    (entries : List (String × FileTree))
    (name : String)
    (place : List String) :
    (directory entries).entryAt? (name :: place) =
      (entries.lookup name).bind (·.entryAt? place) := by
  cases hname : entries.lookup name <;> simp [entryAt?, hname]

/-- Where a directory is seen, there is one, whatever it holds. -/
theorem entryAt?_eq_directory_iff :
    t.entryAt? place = some .directory ↔ ∃ entries, t.find? place = some (.directory entries) := by
  rw [entryAt?]
  rcases t.find? place with _ | ⟨f⟩ | ⟨entries⟩ <;> simp [entry]

theorem entryAt?_eq_file_iff
    {f : File} :
    t.entryAt? place = some (.file f) ↔ t.find? place = some (.file f) := by
  rw [entryAt?]
  rcases t.find? place with _ | ⟨f⟩ | ⟨entries⟩ <;> simp [entry]

/-- Putting a tree at a place whose directory is there changes what lies at and below that place. -/
theorem entryAt?_put
    (hplace : place = [] ∨ t.entryAt? place.dropLast = some .directory)
    (new : FileTree)
    (other : List String) :
    (t.put place new).entryAt? other =
      if place <+: other then new.entryAt? (other.drop place.length) else t.entryAt? other := by
  induction place generalizing t other with
  | nil =>
      rw [put, if_pos (List.nil_prefix)]
      rfl
  | cons name names ih =>
      cases t with
      | file f =>
          cases names <;> simp [entry] at hplace
      | directory entries =>
          cases other with
          | nil =>
              cases names with
              | nil => simp [put, entry]
              | cons next names =>
                  rw [put]
                  split <;> simp [entry]
          | cons first rest =>
              cases names with
              | nil =>
                  rw [put, entryAt?_directory, entryAt?_directory, Dict.lookup_put]
                  by_cases hfirst : first = name
                  · simp [hfirst]
                  · simp [hfirst, Ne.symm hfirst]
              | cons next names =>
                  obtain ⟨below, hlookup, hbelow⟩ : ∃ below, entries.lookup name = some below ∧
                      below.entryAt? (next :: names).dropLast = some .directory := by
                    simpa [Option.bind_eq_some_iff] using hplace
                  rw [put, hlookup, entryAt?_directory, entryAt?_directory, Dict.lookup_put]
                  by_cases hfirst : first = name
                  · simp [hfirst, hlookup, ih (.inr hbelow)]
                  · simp [hfirst, Ne.symm hfirst]

/-- Removing changes what lies at and below a place, and leaves nothing there. -/
theorem entryAt?_remove
    (hplace : place ≠ [])
    (t : FileTree)
    (other : List String) :
    (t.remove place).entryAt? other =
      if place <+: other then none else t.entryAt? other := by
  induction place generalizing t other with
  | nil => exact absurd rfl hplace
  | cons name names ih =>
      cases other with
      | nil =>
          cases t with
          | file f => cases names <;> simp [remove, entry]
          | directory entries =>
              cases names with
              | nil => simp [remove, entry]
              | cons next names =>
                  rw [remove]
                  split <;> simp [entry]
      | cons first rest =>
          cases t with
          | file f => cases names <;> simp [remove]
          | directory entries =>
              cases names with
              | nil =>
                  rw [remove, entryAt?_directory, entryAt?_directory, Dict.lookup_filter_ne]
                  by_cases hfirst : first = name
                  · simp [hfirst]
                  · simp [hfirst, Ne.symm hfirst]
              | cons next names =>
                  rw [remove]
                  split
                  · next hlookup =>
                      by_cases hfirst : first = name
                      · simp [hfirst, hlookup]
                      · simp [Ne.symm hfirst]
                  · next below hlookup =>
                      rw [entryAt?_directory, entryAt?_directory, Dict.lookup_put]
                      by_cases hfirst : first = name
                      · simp [hfirst, hlookup, ih (List.cons_ne_nil next names)]
                      · simp [hfirst, Ne.symm hfirst]

/-- Whether a tree can be that of a disk: the entries of a directory have names, each another. -/
structure WellFormed (t : FileTree) : Prop where
  isName : ∀ place entries, t.find? place = some (.directory entries) →
    ∀ e ∈ entries, Path.IsName e.1
  nodup : ∀ place entries, t.find? place = some (.directory entries) →
    (entries.map Prod.fst).Nodup

/-- Every part of a well-formed tree is well-formed. -/
theorem WellFormed.find?
    {below : FileTree}
    (ht : t.WellFormed)
    (hbelow : t.find? place = some below) :
    below.WellFormed := by
  have hfind (other : List String) : t.find? (place ++ other) = below.find? other := by
    rw [find?_append, hbelow, Option.bind_some]
  exact ⟨fun other entries hentries => ht.isName _ entries ((hfind other).trans hentries),
    fun other entries hentries => ht.nodup _ entries ((hfind other).trans hentries)⟩

@[simp] theorem wellFormed_file
    (f : File) :
    (file f).WellFormed := by
  constructor <;> intro place entries hfind <;> cases place <;> simp at hfind

/-- In a well-formed directory each entry is the one that is found by its name. -/
theorem WellFormed.lookup_iff
    (ht : (directory entries).WellFormed)
    {below : FileTree} :
    entries.lookup name = some below ↔ (name, below) ∈ entries :=
  Dict.lookup_eq_some_iff (ht.nodup [] entries (find?_nil _))

theorem WellFormed.of_mem
    {e : String × FileTree}
    (ht : (directory entries).WellFormed)
    (he : e ∈ entries) :
    e.2.WellFormed := by
  have hdown : (directory entries).find? [e.1] = some e.2 := by
    rw [find?_directory, ht.lookup_iff.2 he, Option.bind_some, find?_nil]
  exact ht.find? hdown

@[simp] theorem wellFormed_directory_iff :
    (directory entries).WellFormed ↔
      (entries.map Prod.fst).Nodup ∧ ∀ e ∈ entries, Path.IsName e.1 ∧ e.2.WellFormed := by
  constructor
  · intro ht
    exact ⟨ht.nodup [] entries (find?_nil _),
      fun e he => ⟨ht.isName [] entries (find?_nil _) e he, ht.of_mem he⟩⟩
  · rintro ⟨hnodup, hentries⟩
    -- A directory below this one lies in the tree of one of the entries, or is this one.
    have hdown {place : List String} {others : List (String × FileTree)}
        (hfind : (directory entries).find? place = some (directory others)) :
        others = entries ∨ ∃ e ∈ entries, ∃ rest, e.2.find? rest = some (directory others) := by
      cases place with
      | nil => exact .inl (by simpa using hfind.symm)
      | cons name rest =>
          rw [find?_directory, Option.bind_eq_some_iff] at hfind
          obtain ⟨below, hbelow, hrest⟩ := hfind
          exact .inr ⟨(name, below), (Dict.lookup_eq_some_iff hnodup).1 hbelow, rest, hrest⟩
    constructor
    · intro place others hfind
      rcases hdown hfind with rfl | ⟨e, he, rest, hrest⟩
      · exact fun e he => (hentries e he).1
      · exact (hentries e he).2.isName rest others hrest
    · intro place others hfind
      rcases hdown hfind with rfl | ⟨e, he, rest, hrest⟩
      · exact hnodup
      · exact (hentries e he).2.nodup rest others hrest

/-- In a well-formed tree, every place at which something lies is made of names. -/
theorem WellFormed.isName_of_find?
    {below : FileTree}
    (ht : t.WellFormed)
    (hbelow : t.find? place = some below) :
    ∀ name ∈ place, Path.IsName name := by
  induction place generalizing t with
  | nil => exact List.forall_mem_nil _
  | cons name place ih =>
      cases t with
      | file f => simp at hbelow
      | directory entries =>
          rw [find?_directory, Option.bind_eq_some_iff] at hbelow
          obtain ⟨next, hlookup, hnext⟩ := hbelow
          rw [ht.lookup_iff] at hlookup
          exact List.forall_mem_cons.2
            ⟨ht.isName [] entries (find?_nil _) _ hlookup, ih (ht.of_mem hlookup) hnext⟩

/-- A file in a directory has a name there. -/
theorem WellFormed.names_of_file
    {entries : List (String × FileTree)}
    {f : File}
    (ht : (directory entries).WellFormed)
    (hfile : (directory entries).find? place = some (.file f)) :
    place ≠ [] ∧ ∀ name ∈ place, Path.IsName name := by
  refine ⟨?_, ht.isName_of_find? hfile⟩
  rintro rfl
  simp at hfile

mutual

/-- The places of the files of a tree. -/
def files : FileTree → List (List String)
  | file _ => [[]]
  | directory entries => entryFiles entries

def entryFiles : List (String × FileTree) → List (List String)
  | [] => []
  | (name, tree) :: rest => tree.files.map (name :: ·) ++ entryFiles rest

end

theorem entryFiles_eq_flatMap
    (entries : List (String × FileTree)) :
    entryFiles entries = entries.flatMap fun e => e.2.files.map (e.1 :: ·) := by
  induction entries with
  | nil => rw [entryFiles]; rfl
  | cons e rest ih => rw [entryFiles, ih, List.flatMap_cons]

/-- The files of a directory are those of its entries, by their names. -/
theorem mem_files_directory :
    place ∈ (directory entries).files ↔
      ∃ e ∈ entries, ∃ rest ∈ e.2.files, e.1 :: rest = place := by
  rw [files, entryFiles_eq_flatMap, List.mem_flatMap]
  simp only [List.mem_map]

/-- The list of all files holds the places at which a file lies. -/
theorem WellFormed.mem_files_iff
    (ht : t.WellFormed) :
    place ∈ t.files ↔ ∃ f, t.find? place = some (.file f) := by
  induction t using inductionOn generalizing place with
  | file f => cases place <;> simp [files]
  | directory entries ih =>
      rw [mem_files_directory]
      cases place with
      | nil => simp
      | cons name rest =>
          simp only [find?_directory, Option.bind_eq_some_iff, ht.lookup_iff, List.cons.injEq]
          constructor
          · rintro ⟨e, he, rest, hrest, rfl, rfl⟩
            obtain ⟨f, hfile⟩ := (ih e he (ht.of_mem he)).1 hrest
            exact ⟨f, e.2, he, hfile⟩
          · rintro ⟨f, below, he, hfile⟩
            exact ⟨(name, below), he, rest, (ih _ he (ht.of_mem he)).2 ⟨f, hfile⟩, rfl, rfl⟩

end FileTree

end BlockMarkup
