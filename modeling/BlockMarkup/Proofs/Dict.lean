import BlockMarkup.Dict
import Mathlib.Tactic

/-!
# Dictionaries

What a dictionary holds after an insertion, by key and by place: the keys keep the order in which
they were first inserted, and under each key lies the value that was inserted last. Both are also
said for the dictionary that a list of pairs is inserted into one after another.
-/

namespace BlockMarkup

/-- Whether `names` are the members of `uses` in the order of first use. No name comes twice, since
its first use does not come before itself. -/
structure FirstUses
    (uses names : List String) : Prop where
  mem_iff : ∀ name, name ∈ names ↔ name ∈ uses
  ordered : names.Pairwise fun a b => uses.idxOf a < uses.idxOf b

/-- Dropping repetitions leaves the first uses. -/
theorem firstUses_eraseDups
    (uses : List String) :
    FirstUses uses uses.eraseDups := by
  refine ⟨fun name => List.mem_eraseDups, ?_⟩
  induction uses using List.reverseRecOn with
  | nil =>
      simp
  | append_singleton uses last ih =>
      have hearlier : ∀ {a}, a ∈ uses.eraseDups → (uses ++ [last]).idxOf a = uses.idxOf a :=
        fun ha => List.idxOf_append_of_mem (List.mem_eraseDups.1 ha)
      have hbefore : uses.eraseDups.Pairwise fun a b =>
          (uses ++ [last]).idxOf a < (uses ++ [last]).idxOf b :=
        ih.imp_of_mem fun {a b} ha hb hab => by rwa [hearlier ha, hearlier hb]
      rw [List.eraseDups_append]
      by_cases hlast : last ∈ uses
      · simpa [List.removeAll, hlast] using hbefore
      · have hnew : ([last].removeAll uses).eraseDups = [last] := by
          simp [List.removeAll, hlast, List.eraseDups_cons]
        rw [hnew, List.pairwise_append]
        refine ⟨hbefore, List.pairwise_singleton _ _, fun a ha b hb => ?_⟩
        rw [List.mem_singleton.1 hb, hearlier ha, List.idxOf_append_of_notMem hlast]
        have hindex : uses.idxOf a < uses.length :=
          List.idxOf_lt_length_of_mem (List.mem_eraseDups.1 ha)
        omega

theorem FirstUses.nodup
    {uses names : List String}
    (h : FirstUses uses names) :
    names.Nodup :=
  h.ordered.imp fun {a b} hlt => by
    rintro rfl
    exact Nat.lt_irrefl _ hlt

/-- The members of a list come in the order of first use in one way only. -/
theorem FirstUses.unique
    {uses names others : List String}
    (h : FirstUses uses names)
    (hothers : FirstUses uses others) :
    names = others := by
  have hperm : names.Perm others := by
    refine (List.perm_ext_iff_of_nodup h.nodup hothers.nodup).2 fun name => ?_
    rw [h.mem_iff, hothers.mem_iff]
  exact hperm.eq_of_pairwise (fun a b _ _ hab hba => absurd hab hba.asymm) h.ordered hothers.ordered

namespace Dict

variable {α : Type} {d : Dict α} {key : String} {value : α}

/-- A dictionary is its entries. -/
@[ext] theorem ext
    {d e : Dict α}
    (h : d.entries = e.entries) :
    d = e := by
  obtain ⟨entries, hnodup⟩ := d
  subst h
  rfl

section Lookup

theorem lookup_cons
    (key other : String)
    (value : α)
    (rest : List (String × α)) :
    ((key, value) :: rest).lookup other =
      if other = key then some value else rest.lookup other := by
  rw [List.lookup_cons]
  by_cases hkey : other = key
  · simp [hkey]
  · rw [beq_false_of_ne hkey, if_neg hkey]

/-- What is put under a key is found there, and all else is as before. -/
theorem lookup_put
    (key other : String)
    (value : α)
    (entries : List (String × α)) :
    (put key value entries).lookup other =
      if other = key then some value else entries.lookup other := by
  induction entries with
  | nil => rw [put, lookup_cons]
  | cons entry rest ih =>
      obtain ⟨name, old⟩ := entry
      by_cases hname : name = key
      · subst hname
        rw [put, if_pos rfl, lookup_cons, lookup_cons]
        split_ifs <;> rfl
      · rw [put, if_neg hname, lookup_cons, lookup_cons, ih]
        split_ifs with hother hkey
        · exact absurd (hother.symm.trans hkey) hname
        · rfl
        · rfl
        · rfl

theorem lookup_filter_ne
    (key other : String)
    (entries : List (String × α)) :
    (entries.filter (·.1 ≠ key)).lookup other =
      if other = key then none else entries.lookup other := by
  induction entries with
  | nil => simp
  | cons entry rest ih =>
      obtain ⟨name, value⟩ := entry
      by_cases hname : name = key
      · subst hname
        rw [List.filter_cons_of_neg (by simp), ih, lookup_cons]
        split_ifs <;> rfl
      · rw [List.filter_cons_of_pos (by simpa using hname), lookup_cons, lookup_cons, ih]
        split_ifs with hother hkey
        · exact absurd (hother.symm.trans hkey) hname
        · rfl
        · rfl
        · rfl

/-- Where no key occurs twice, looking up finds each entry. -/
theorem lookup_eq_some_iff
    {entries : List (String × α)}
    (hnodup : (entries.map Prod.fst).Nodup)
    {key : String}
    {value : α} :
    entries.lookup key = some value ↔ (key, value) ∈ entries := by
  induction entries with
  | nil => simp
  | cons entry rest ih =>
      obtain ⟨name, old⟩ := entry
      rw [List.map_cons, List.nodup_cons] at hnodup
      rw [lookup_cons, List.mem_cons, Prod.mk.injEq]
      by_cases hkey : key = name
      · subst hkey
        have habsent : (key, value) ∉ rest := fun hmem => hnodup.1 (List.mem_map.2 ⟨_, hmem, rfl⟩)
        simp [habsent, eq_comm]
      · simp [hkey, ih hnodup.2]

end Lookup

section Insert

theorem mem_entries_insert
    {entry : String × α}
    (hentry : entry ∈ (d.insert key value).entries) :
    entry = (key, value) ∨ entry ∈ d.entries := by
  simp only [insert] at hentry
  generalize d.entries = entries at hentry ⊢
  induction entries with
  | nil =>
      exact Or.inl (by simpa [put] using hentry)
  | cons first rest ih =>
      rw [put] at hentry
      split at hentry
      · rw [List.mem_cons] at hentry ⊢
        exact hentry.imp_right Or.inr
      · rw [List.mem_cons] at hentry ⊢
        rcases hentry with hentry | hentry
        · exact Or.inr (Or.inl hentry)
        · exact (ih hentry).imp_right Or.inr

/-- A new key is put at the end. -/
theorem entries_insert_of_not_mem
    (hkey : key ∉ d.keys)
    (value : α) :
    (d.insert key value).entries = d.entries ++ [(key, value)] := by
  simp only [keys, insert] at hkey ⊢
  generalize d.entries = entries at hkey ⊢
  induction entries with
  | nil =>
      rfl
  | cons entry rest ih =>
      simp only [List.map_cons, List.mem_cons, not_or] at hkey
      rw [put, if_neg (Ne.symm hkey.1), ih hkey.2]
      rfl

theorem keys_insert_of_mem
    (hkey : key ∈ d.keys)
    (value : α) :
    (d.insert key value).keys = d.keys := by
  simp only [keys, insert] at hkey ⊢
  generalize d.entries = entries at hkey ⊢
  induction entries with
  | nil =>
      cases hkey
  | cons entry rest ih =>
      by_cases heq : entry.1 = key
      · simp [put, heq]
      · have hrest : key ∈ rest.map Prod.fst := by
          simpa [Ne.symm heq] using hkey
        simp [put, heq, ih hrest]

theorem keys_insert_of_not_mem
    (hkey : key ∉ d.keys)
    (value : α) :
    (d.insert key value).keys = d.keys ++ [key] := by
  rw [keys, entries_insert_of_not_mem hkey]
  simp [keys]

end Insert

section OfList

theorem ofList_concat
    (pairs : List (String × α))
    (pair : String × α) :
    ofList (pairs ++ [pair]) = (ofList pairs).insert pair.1 pair.2 := by
  rw [ofList, List.foldl_append]
  rfl

/-- The keys of pairs are the first components, without repetition. -/
theorem keys_ofList
    (pairs : List (String × α)) :
    (ofList pairs).keys = (pairs.map Prod.fst).eraseDups := by
  induction pairs using List.reverseRecOn with
  | nil =>
      rfl
  | append_singleton pairs pair ih =>
      rw [ofList_concat, List.map_append, List.eraseDups_append, ← ih]
      have hmem : pair.1 ∈ (ofList pairs).keys ↔ pair.1 ∈ pairs.map Prod.fst := by
        rw [ih, List.mem_eraseDups]
      by_cases hkey : pair.1 ∈ pairs.map Prod.fst
      · rw [keys_insert_of_mem (hmem.2 hkey)]
        simp [List.removeAll, hkey]
      · rw [keys_insert_of_not_mem fun h => hkey (hmem.1 h)]
        simp [List.removeAll, hkey, List.eraseDups_cons]

/-- The keys of pairs come in the order of first use. -/
theorem firstUses_keys_ofList
    (pairs : List (String × α)) :
    FirstUses (pairs.map Prod.fst) (ofList pairs).keys := by
  rw [keys_ofList]
  exact firstUses_eraseDups _

/-- Of the pairs with one key, the last counts. -/
theorem get?_ofList
    (pairs : List (String × α))
    (key : String) :
    (ofList pairs).get? key = pairs.reverse.lookup key := by
  induction pairs using List.reverseRecOn with
  | nil =>
      rfl
  | append_singleton pairs pair ih =>
      obtain ⟨last, value⟩ := pair
      rw [get?] at ih ⊢
      rw [ofList_concat, insert, lookup_put, ih, List.reverse_append, List.reverse_singleton,
        List.singleton_append, lookup_cons]

end OfList

end Dict

end BlockMarkup
