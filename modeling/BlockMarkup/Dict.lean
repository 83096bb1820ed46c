/-!
# Dictionaries in insertion order

A dictionary lists its keys in the order in which they were first inserted, each of them once.
Inserting a key again replaces its value and keeps its place.
-/

namespace BlockMarkup

structure Dict (α : Type) where
  entries : List (String × α)
  nodup : (entries.map Prod.fst).Nodup
  deriving DecidableEq, Repr

namespace Dict

variable {α : Type}

def empty : Dict α := ⟨[], List.Pairwise.nil⟩

instance : Inhabited (Dict α) := ⟨empty⟩

def isEmpty (d : Dict α) : Bool := d.entries.isEmpty

def keys (d : Dict α) : List String := d.entries.map Prod.fst

def contains (d : Dict α) (key : String) : Bool := d.keys.contains key

def get? (d : Dict α) (key : String) : Option α := d.entries.lookup key

/-- Puts `value` in the place of the first entry for `key`, or at the end if there is none. -/
def put (key : String) (value : α) : List (String × α) → List (String × α)
  | [] => [(key, value)]
  | entry :: rest =>
    if entry.1 = key then (key, value) :: rest else entry :: put key value rest

theorem mem_keys_put {key other : String} {value : α} {entries : List (String × α)}
    (h : other ∈ (put key value entries).map Prod.fst) :
    other = key ∨ other ∈ entries.map Prod.fst := by
  induction entries with
  | nil => exact .inl (by simpa [put] using h)
  | cons entry rest ih =>
    rw [put] at h
    split at h
    · exact (List.mem_cons.1 h).imp_right (List.mem_cons_of_mem _)
    · rcases List.mem_cons.1 h with h | h
      · exact .inr (h ▸ List.mem_cons_self)
      · exact (ih h).imp_right (List.mem_cons_of_mem _)

/-- Putting a value keeps the keys apart. -/
theorem nodup_put {entries : List (String × α)} (h : (entries.map Prod.fst).Nodup) (key : String)
    (value : α) : ((put key value entries).map Prod.fst).Nodup := by
  induction entries with
  | nil => exact List.pairwise_singleton _ _
  | cons entry rest ih =>
    rw [List.map_cons, List.nodup_cons] at h
    rw [put]
    split
    · next heq => exact List.nodup_cons.2 ⟨heq ▸ h.1, h.2⟩
    · next hne =>
      exact List.nodup_cons.2
        ⟨fun hmem => (mem_keys_put hmem).elim hne h.1, ih h.2⟩

def insert (d : Dict α) (key : String) (value : α) : Dict α :=
  ⟨put key value d.entries, nodup_put d.nodup key value⟩

def ofList (pairs : List (String × α)) : Dict α :=
  pairs.foldl (fun d pair => d.insert pair.1 pair.2) empty

end Dict

end BlockMarkup
