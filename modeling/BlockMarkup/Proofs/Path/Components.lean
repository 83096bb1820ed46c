import BlockMarkup.Files.Disk
import BlockMarkup.Proofs.Attribute.Inline
import BlockMarkup.Proofs.Text.Place
import Mathlib.Tactic

/-!
# Paths that are put together

A path is a text, and everything that is asked about it is asked of the pieces between its slashes.
Here these pieces are found for paths that are put together: from a path and one that is seen from
it, and from the names of a place. A name adds itself to the components of a path and to the names
that are followed on a disk, whatever the path is and whether or not it ends in a slash.
-/

namespace BlockMarkup

namespace Path

/-- Whether a text can be the name of an entry of a directory. -/
structure IsName (name : String) : Prop where
  nonempty : name.toList ≠ []
  slash : '/' ∉ name.toList
  ne_current : name ≠ "."
  ne_parent : name ≠ ".."

instance (name : String) : Decidable (IsName name) :=
  decidable_of_iff (name.toList ≠ [] ∧ '/' ∉ name.toList ∧ name ≠ "." ∧ name ≠ "..")
    ⟨fun ⟨hnonempty, hslash, hcurrent, hparent⟩ => ⟨hnonempty, hslash, hcurrent, hparent⟩,
      fun h => ⟨h.nonempty, h.slash, h.ne_current, h.ne_parent⟩⟩

variable {p q : Path} {name : String} {names : List String}

/-- A slash separates pieces, and nothing else does. -/
theorem pieces_append_slash
    (a b : String) :
    (mk (a ++ "/" ++ b)).pieces = (mk a).pieces ++ (mk b).pieces := by
  have hlist : (a ++ "/" ++ b).toList = a.toList ++ '/' :: b.toList := by
    simp [String.toList_append]
  rw [pieces, hlist, Text.splitAt_append_cons]
  rfl

theorem pieces_of_not_mem
    {text : String}
    (htext : '/' ∉ text.toList) :
    (mk text).pieces = [text.toList] :=
  Text.splitAt_eq_singleton htext

/-- A path that is seen from another adds its pieces. An empty piece at the end of the other, which
stands behind a slash, is lost. -/
theorem pieces_join
    (hq : q.isAbsolute = false) :
    ∃ before, (p.join q).pieces = before ++ q.pieces ∧
      (before = p.pieces ∧ p.text ≠ "" ∨ p.pieces = before ++ [[]]) := by
  obtain ⟨text⟩ := p
  simp only [join, hq, Bool.false_eq_true, if_false]
  by_cases hempty : text = ""
  · subst hempty
    exact ⟨[], by simp, .inr rfl⟩
  · by_cases hslash : text.toList.getLast? = some '/'
    · obtain ⟨start, hstart⟩ := List.getLast?_eq_some_iff.1 hslash
      have htext : text = String.ofList start ++ "/" ++ "" := by
        rw [← String.toList_inj, hstart]
        simp
      rw [if_pos (by simp [hslash])]
      refine ⟨(mk (String.ofList start)).pieces, ?_, .inr ?_⟩
      · rw [htext, String.append_empty, pieces_append_slash]
      · rw [htext, pieces_append_slash]
        rfl
    · rw [if_neg (by simp [hempty, hslash]), pieces_append_slash]
      exact ⟨_, rfl, .inl ⟨rfl, hempty⟩⟩

theorem isAbsolute_append
    {text : String}
    (htext : text ≠ "")
    (more : String) :
    (mk (text ++ more)).isAbsolute = (mk text).isAbsolute := by
  have hlist : text.toList ≠ [] := by simpa using htext
  rw [isAbsolute, isAbsolute, String.toList_append, List.head?_append_of_ne_nil _ hlist]

theorem isAbsolute_join
    (hq : q.isAbsolute = false) :
    (p.join q).isAbsolute = p.isAbsolute := by
  obtain ⟨text⟩ := p
  simp only [join, hq, Bool.false_eq_true, if_false]
  by_cases hempty : text = ""
  · subst hempty
    rw [if_pos (by simp), String.empty_append, hq]
    rfl
  · split
    · exact isAbsolute_append hempty _
    · rw [String.append_assoc]
      exact isAbsolute_append hempty _

theorem isAbsolute_of_not_mem
    {text : String}
    (htext : '/' ∉ text.toList) :
    (mk text).isAbsolute = false := by
  refine decide_eq_false fun hhead => htext ?_
  exact List.mem_of_mem_head? hhead

theorem component?_of_isName
    (hname : IsName name) :
    component? name.toList = some (.name name) := by
  have hcurrent : name.toList ≠ ['.'] := fun h => hname.ne_current (String.toList_inj.1 h)
  have hparent : name.toList ≠ ['.', '.'] := fun h => hname.ne_parent (String.toList_inj.1 h)
  simp [component?, isIdle, hname.nonempty, hcurrent, hparent]

/-- The components of a path by its pieces. Only the first piece can be the root or the current
directory. -/
theorem components_of_pieces
    {first : List Char}
    {rest : List (List Char)}
    (hpieces : p.pieces = first :: rest) :
    p.components =
      (if first.isEmpty then (if rest.isEmpty then [] else [.root])
        else if first = ['.'] then [.current]
        else (component? first).toList) ++ rest.filterMap component? := by
  rw [components, hpieces]

theorem text_of_pieces
    (hpieces : p.pieces = [[]]) :
    p.text = "" := by
  have hflat := Text.flatMap_splitAt '/' p.text.toList
  rw [show Text.splitAt (· = '/') p.text.toList = [[]] from hpieces] at hflat
  simpa using hflat

/-- The names of a place, put together with slashes, are found again. -/
theorem pieces_names
    (hne : names ≠ [])
    (hnames : ∀ name ∈ names, '/' ∉ name.toList) :
    (mk (Text.join "/" names)).pieces = names.map String.toList := by
  fun_induction Text.join "/" names with
  | case1 =>
      exact absurd rfl hne
  | case2 name =>
      exact pieces_of_not_mem (hnames name List.mem_cons_self)
  | case3 name names hmore ih =>
      rw [List.forall_mem_cons] at hnames
      have hne' : names ≠ [] := by
        rintro rfl
        exact hmore rfl
      rw [pieces_append_slash, pieces_of_not_mem hnames.1, ih hne' hnames.2]
      rfl

theorem filterMap_component?
    (hnames : ∀ name ∈ names, IsName name) :
    (names.map String.toList).filterMap component? = names.map .name := by
  rw [List.filterMap_map, ← List.filterMap_eq_map']
  exact List.filterMap_congr fun name hname => component?_of_isName (hnames name hname)

/-- Names with slashes between them are the components of their path. -/
theorem components_names
    (hnames : ∀ name ∈ names, IsName name) :
    (mk (Text.join "/" names)).components = names.map .name := by
  cases names with
  | nil => rfl
  | cons name names =>
      have hpieces := pieces_names (List.cons_ne_nil name names)
        fun other hother => (hnames other hother).slash
      rw [List.forall_mem_cons] at hnames
      have hcurrent : name.toList ≠ ['.'] := fun h => hnames.1.ne_current (String.toList_inj.1 h)
      rw [components_of_pieces hpieces]
      simp [hnames.1.nonempty, hcurrent, component?_of_isName hnames.1,
        filterMap_component? hnames.2]

/-- The last component is the file name, if it is a name. -/
theorem fileName_of_components
    {before : List Component}
    (hp : p.components = before ++ [.name name]) :
    p.fileName = some name := by
  rw [fileName, hp, List.getLast?_concat]

theorem fileName_names
    {front : List String}
    (hnames : ∀ n ∈ front ++ [name], IsName n) :
    (mk (Text.join "/" (front ++ [name]))).fileName = some name := by
  have hcomponents := components_names hnames
  rw [List.map_append, List.map_singleton] at hcomponents
  exact fileName_of_components hcomponents

theorem isAbsolute_of_pieces
    {first : List Char}
    {rest : List (List Char)}
    (hp : p.pieces = first :: rest) :
    p.isAbsolute = (first.isEmpty && !rest.isEmpty) := by
  have hfirst := Text.head?_splitAt (· = '/') p.text.toList
  rw [← pieces, hp, List.head?_cons, Option.some_inj] at hfirst
  cases htext : p.text.toList with
  | nil =>
      have hpieces : p.pieces = [[]] := by rw [pieces, htext]; rfl
      rw [hp, List.cons.injEq] at hpieces
      simp [isAbsolute, htext, hpieces]
  | cons c cs =>
      by_cases hc : c = '/'
      · have hpieces : p.pieces = [] :: Text.splitAt (· = '/') cs := by
          rw [pieces, htext, hc]
          exact Text.splitAt_append_cons '/' [] cs
        rw [hp, List.cons.injEq] at hpieces
        simp [isAbsolute, htext, hc, hpieces, Text.splitAt_ne_nil]
      · simp [isAbsolute, htext, hc, hfirst]

theorem isAbsolute_names
    (hnonempty : ∀ name ∈ names, name.toList ≠ [])
    (hslash : ∀ name ∈ names, '/' ∉ name.toList) :
    (mk (Text.join "/" names)).isAbsolute = false := by
  cases names with
  | nil => rfl
  | cons name rest =>
      have hname := hnonempty name List.mem_cons_self
      rw [isAbsolute_of_pieces (pieces_names (List.cons_ne_nil name rest) hslash)]
      simp [hname]

/-- Names stand behind the components of the path they are seen from. -/
theorem components_join_names
    (hne : names ≠ [])
    (hnames : ∀ name ∈ names, IsName name) :
    (p.join ⟨Text.join "/" names⟩).components = p.components ++ names.map .name := by
  have hslash : ∀ name ∈ names, '/' ∉ name.toList := fun name hname => (hnames name hname).slash
  have habsolute := isAbsolute_names (fun name hname => (hnames name hname).nonempty) hslash
  have hfilter := filterMap_component? hnames
  obtain ⟨before, hjoin, hbefore⟩ := pieces_join (p := p) habsolute
  cases before with
  | nil =>
      have hp : p.pieces = [[]] := by
        rcases hbefore with ⟨hnil, -⟩ | hp
        · exact absurd hnil.symm (Text.splitAt_ne_nil _ _)
        · exact hp
      have hsame : (p.join ⟨Text.join "/" names⟩).components =
          (mk (Text.join "/" names)).components := by
        rw [components, hjoin, List.nil_append, components]
      rw [hsame, components_names hnames, components_of_pieces hp]
      rfl
  | cons first rest =>
      rw [pieces_names hne hslash, List.cons_append] at hjoin
      rw [components_of_pieces hjoin, List.filterMap_append, hfilter]
      rcases hbefore with ⟨hp, htext⟩ | hp
      · rw [components_of_pieces hp.symm]
        by_cases hfirst : first = []
        · have hrest : rest ≠ [] := by
            rintro rfl
            exact htext (text_of_pieces (by rw [← hp, hfirst]))
          simp [hfirst, hrest]
        · simp [hfirst]
      · have hidle : component? [] = none := rfl
        rw [List.cons_append] at hp
        rw [components_of_pieces hp]
        by_cases hfirst : first = [] <;> simp [hfirst, hidle, hne]

/-- A name put behind a path is one more component. -/
theorem components_join
    (hname : IsName name) :
    (p.join ⟨name⟩).components = p.components ++ [.name name] := by
  have hjoin := components_join_names (p := p) (List.cons_ne_nil name [])
    (List.forall_mem_singleton.2 hname)
  rwa [Text.join, List.map_singleton] at hjoin

theorem slash_not_mem
    {piece : List Char}
    (hpiece : piece ∈ p.pieces) :
    '/' ∉ piece :=
  Text.not_mem_of_mem_splitAt hpiece

/-- Every name among the components is a piece of the path, and proper. -/
theorem mem_pieces_of_mem_components
    (hname : .name name ∈ p.components) :
    name.toList ∈ p.pieces ∧ IsName name := by
  obtain ⟨first, rest, hpieces⟩ := List.exists_cons_of_ne_nil
    (Text.splitAt_ne_nil (· = '/') p.text.toList)
  have hpiece : ∃ piece ∈ p.pieces, component? piece = some (.name name) := by
    rw [components_of_pieces hpieces, List.mem_append, List.mem_filterMap] at hname
    rw [show p.pieces = first :: rest from hpieces]
    rcases hname with hfirst | ⟨piece, hmem, hpiece⟩
    · split_ifs at hfirst
      · simp at hfirst
      · simp at hfirst
      · simp at hfirst
      · exact ⟨first, List.mem_cons_self, by simpa using hfirst⟩
    · exact ⟨piece, List.mem_cons_of_mem _ hmem, hpiece⟩
  obtain ⟨piece, hmem, hpiece⟩ := hpiece
  rw [component?] at hpiece
  split_ifs at hpiece with hidle hparent
  · cases hpiece
  · have hlist : name.toList = piece := by
      rw [← Component.name.inj (Option.some.inj hpiece), String.toList_ofList]
    simp only [isIdle, Bool.or_eq_true, List.isEmpty_iff, decide_eq_true_eq, not_or] at hidle
    refine ⟨hlist ▸ hmem, hlist ▸ hidle.1, hlist ▸ slash_not_mem hmem, ?_, ?_⟩
    · rintro rfl
      exact hidle.2 hlist.symm
    · rintro rfl
      exact hparent hlist.symm

theorem mem_pieces_of_fileName
    (hp : p.fileName = some name) :
    name.toList ∈ p.pieces ∧ IsName name := by
  rw [fileName] at hp
  split at hp
  · next last hlast =>
      cases hp
      exact mem_pieces_of_mem_components (List.mem_of_getLast? hlast)
  · cases hp

/-- A path that ends in a name has it as its file name. -/
theorem fileName_of_pieces
    {before : List (List Char)}
    (hname : IsName name)
    (hp : p.pieces = before ++ [name.toList]) :
    p.fileName = some name := by
  have hcomponent := component?_of_isName hname
  cases before with
  | nil =>
      have hcurrent : name.toList ≠ ['.'] := fun h => hname.ne_current (String.toList_inj.1 h)
      have hcomponents := components_of_pieces hp
      simp only [hname.nonempty, hcurrent, hcomponent, List.isEmpty_iff, if_false,
        List.filterMap_nil, List.append_nil, Option.toList_some] at hcomponents
      rw [fileName, hcomponents, List.getLast?_singleton]
  | cons first rest =>
      rw [List.cons_append] at hp
      have hcomponents := components_of_pieces hp
      rw [List.filterMap_append, ← List.append_assoc, List.filterMap_cons_some hcomponent,
        List.filterMap_nil] at hcomponents
      exact fileName_of_components hcomponents

theorem pieces_ofPieces
    {l : List (List Char)}
    (hne : l ≠ [])
    (hl : ∀ piece ∈ l, '/' ∉ piece) :
    (ofPieces l).pieces = l := by
  rw [ofPieces, pieces_names (by simpa using hne), List.map_map]
  · exact List.map_id'' (fun _ => String.toList_ofList) l
  · simpa using hl

theorem trimIdle_suffix
    (l : List (List Char)) :
    trimIdle l <:+ l := by
  fun_induction trimIdle l with
  | case1 => exact List.suffix_rfl
  | case2 first => exact List.suffix_rfl
  | case3 last before hmore hidle ih => exact ih.trans (List.suffix_cons last before)
  | case4 last before hmore hidle => exact List.suffix_rfl

theorem trimIdle_ne_nil
    {l : List (List Char)}
    (hl : l ≠ []) :
    trimIdle l ≠ [] := by
  fun_induction trimIdle l with
  | case1 => exact hl
  | case2 first => exact List.cons_ne_nil _ _
  | case3 last before hmore hidle ih => exact ih fun h => hmore (h ▸ rfl)
  | case4 last before hmore hidle => exact List.cons_ne_nil _ _

/-- What is left after trimming ends in a piece that means something. -/
theorem isIdle_of_trimIdle
    {l before : List (List Char)}
    {last : List Char}
    (hl : trimIdle l = last :: before)
    (hbefore : before ≠ []) :
    isIdle last = false := by
  fun_induction trimIdle l with
  | case1 => cases hl
  | case2 first =>
      cases hl
      exact absurd rfl hbefore
  | case3 last' before' hmore hidle ih => exact ih hl
  | case4 last' before' hmore hidle =>
      cases hl
      exact eq_false_of_ne_true hidle

/-- The path that is left of one whose last pieces are dropped. -/
theorem names_of_trimmed
    {first : List Char}
    {others : List (List Char)}
    (hslash : ∀ piece ∈ first :: others, '/' ∉ piece) :
    (if first.isEmpty && others.isEmpty then mk "/" else ofPieces (first :: others)).isAbsolute =
        first.isEmpty ∧
      Disk.names (if first.isEmpty && others.isEmpty then mk "/" else ofPieces (first :: others)) =
        ((first :: others).filter (!·.isEmpty)).map String.ofList := by
  split
  · next hroot =>
      rw [Bool.and_eq_true, List.isEmpty_iff, List.isEmpty_iff] at hroot
      obtain ⟨rfl, rfl⟩ := hroot
      exact ⟨rfl, rfl⟩
  · next hroot =>
      have hpieces := pieces_ofPieces (List.cons_ne_nil first others) hslash
      refine ⟨?_, by rw [Disk.names, hpieces]⟩
      rw [isAbsolute_of_pieces hpieces]
      cases first <;> cases others <;> simp_all

theorem names_of_pieces
    {front rest : List (List Char)}
    {last : List Char}
    (hp : p.pieces = front ++ last :: rest)
    (hlast : last.isEmpty = false) :
    ∃ more, Disk.names p =
      (front.filter (!·.isEmpty)).map String.ofList ++ String.ofList last :: more := by
  refine ⟨(rest.filter (!·.isEmpty)).map String.ofList, ?_⟩
  rw [Disk.names, hp, List.filter_append, List.filter_cons_of_pos (by simpa using hlast)]
  simp

/-- The parent of a path by what is left of its pieces after trimming. -/
theorem parent_of_trimmed
    {first last : List Char}
    {before others : List (List Char)}
    (htrim : trimIdle p.pieces.reverse = last :: before)
    (hfirst : (trimIdle before).reverse = first :: others) :
    p.parent =
      some (if first.isEmpty && others.isEmpty then mk "/" else ofPieces (first :: others)) := by
  rw [parent, htrim]
  cases before with
  | nil => simp [trimIdle] at hfirst
  | cons next before =>
      simp only
      split
      · next only honly =>
          rw [honly, List.reverse_singleton, List.cons.injEq] at hfirst
          obtain ⟨rfl, rfl⟩ := hfirst
          rw [List.isEmpty_nil, Bool.and_true]
      · next hmore =>
          have hothers : others.isEmpty = false := by
            rw [List.isEmpty_eq_false_iff]
            rintro rfl
            exact hmore first (by rw [← List.reverse_inj, hfirst]; rfl)
          rw [hothers, Bool.and_false, if_neg Bool.false_ne_true, ← hfirst]

/-- The names of a path go on from those of the directory that it lies in. -/
theorem names_of_parent
    (hq : p.parent = some q) :
    q.isAbsolute = p.isAbsolute ∧
      ∃ name rest, Disk.names p = Disk.names q ++ name :: rest := by
  obtain ⟨skipped, hskipped⟩ := trimIdle_suffix p.pieces.reverse
  rw [← List.reverse_inj, List.reverse_append, List.reverse_reverse] at hskipped
  cases htrim : trimIdle p.pieces.reverse with
  | nil => simp [parent, htrim] at hq
  | cons last before =>
      rw [htrim, List.reverse_cons] at hskipped
      cases hbefore : (trimIdle before).reverse with
      | nil =>
          -- The path is a single name, with nothing behind it that names anything.
          have hnil : before = [] := by
            by_contra hne
            exact trimIdle_ne_nil hne (List.reverse_eq_nil_iff.1 hbefore)
          subst hnil
          obtain ⟨hne, rfl⟩ : last ≠ [] ∧ mk "" = q := by simpa [parent, htrim] using hq
          have hempty : last.isEmpty = false := by simpa using hne
          refine ⟨?_, _, @names_of_pieces p [] _ last hskipped.symm hempty⟩
          rw [isAbsolute_of_pieces hskipped.symm, hempty]
          rfl
      | cons first others =>
          have hbefore' : before ≠ [] := by
            rintro rfl
            simp [trimIdle] at hbefore
          have hlast : last.isEmpty = false := by
            have hidle := isIdle_of_trimIdle htrim hbefore'
            rw [isIdle, Bool.or_eq_false_iff] at hidle
            exact hidle.1
          obtain ⟨idle, hidle⟩ := trimIdle_suffix before
          rw [← List.reverse_inj, List.reverse_append, hbefore] at hidle
          rw [← hidle, List.append_assoc _ [last], List.singleton_append] at hskipped
          have hslash : ∀ piece ∈ first :: others, '/' ∉ piece := by
            intro piece hpiece
            refine slash_not_mem (p := p) ?_
            rw [← hskipped, List.mem_append, List.mem_append]
            exact .inl (.inl hpiece)
          obtain ⟨habsolute, hnames⟩ := names_of_trimmed hslash
          obtain ⟨more, hmore⟩ := names_of_pieces hskipped.symm hlast
          rw [parent_of_trimmed htrim hbefore, Option.some_inj] at hq
          rw [← hq, habsolute, hnames, hmore, List.filter_append, List.map_append]
          refine ⟨?_, ?_⟩
          · rw [isAbsolute_of_pieces (hskipped.symm.trans (List.append_assoc _ _ _))]
            simp
          · obtain ⟨name, rest, hrest⟩ := List.exists_cons_of_ne_nil
              (List.append_ne_nil_of_right_ne_nil
                ((idle.reverse.filter (!·.isEmpty)).map String.ofList)
                (List.cons_ne_nil (String.ofList last) more))
            exact ⟨name, rest, by rw [List.append_assoc, hrest]⟩

end Path

end BlockMarkup
