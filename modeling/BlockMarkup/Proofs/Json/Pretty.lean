import BlockMarkup.Proofs.Json.Literal
import BlockMarkup.Proofs.Token.Written

/-!
# Values are read back

The text of a value, with one member or element on a line, is read back as the value. This holds for
all values whose strings and names have a text and whose numbers are written with digits only. What
stands behind the text does not matter, as long as it does not go on with a number; so the statement
about a value carries the characters behind it along, and the induction is on the value.
-/

namespace BlockMarkup.Json

/-- Whether a value is written in one way: its strings and the names of its members have a text, and
its numbers have digits only. -/
inductive Plain : Json → Prop
  | null : Plain .null
  | bool (value : Bool) : Plain (.bool value)
  | natural (value : Nat) : Plain (.natural value)
  | text (s : String) : Plain (text s)
  | array
      {elements : List Json}
      (helements : ∀ e ∈ elements, Plain e) :
      Plain (.array elements)
  | object
      {members : List (Option String × Json)}
      (hnames : ∀ m ∈ members, m.1.isSome = true)
      (hvalues : ∀ m ∈ members, Plain m.2) :
      Plain (.object members)

/-- Whether a number ends before `rest`. -/
def EndsNumber (rest : List Char) : Prop :=
  ∀ c ∈ rest.head?, isAsciiDigit c = false ∧ c ≠ '.' ∧ c ≠ 'e' ∧ c ≠ 'E'

theorem endsNumber_nil : EndsNumber [] := by
  simp [EndsNumber]

theorem endsNumber_cons
    {c : Char}
    (hc : isAsciiDigit c = false ∧ c ≠ '.' ∧ c ≠ 'e' ∧ c ≠ 'E')
    (rest : List Char) :
    EndsNumber (c :: rest) := by
  simpa [EndsNumber] using hc

section Numbers

theorem isAsciiDigit_of_mem_toDigits
    {n : Nat}
    {c : Char}
    (hc : c ∈ Nat.toDigits 10 n) :
    isAsciiDigit c = true :=
  Nat.isDigit_of_mem_toDigits (by decide) (by decide) hc

theorem digitsValue_toDigits
    (n : Nat) :
    digitsValue (Nat.toDigits 10 n) = n := by
  have hfold : digitsValue = fun cs => Nat.ofDigitChars 10 cs 0 := by
    funext cs
    simp only [digitsValue, Nat.ofDigitChars, Nat.mul_comm]
  rw [hfold]
  exact Nat.ofDigitChars_ten_toDigits

theorem ne_of_isAsciiDigit
    {c d : Char}
    (hc : isAsciiDigit c = true)
    (hd : isAsciiDigit d = false) :
    c ≠ d := by
  rintro rfl
  exact absurd hc (by simp [hd])

theorem isSpace_of_isAsciiDigit
    {c : Char}
    (hc : isAsciiDigit c = true) :
    isSpace c = false := by
  have hne : ∀ d, isAsciiDigit d = false → c ≠ d := fun d => ne_of_isAsciiDigit hc
  simp [isSpace, hne ' ' rfl, hne '\n' rfl, hne '\t' rfl, hne '\r' rfl]

theorem exists_toString_eq_cons
    (n : Nat) :
    ∃ first digits, (toString n).toList = first :: digits ∧ isAsciiDigit first = true := by
  obtain ⟨first, digits, hcons⟩ :=
    List.exists_cons_of_ne_nil (Nat.toDigits_ne_nil (b := 10) (n := n))
  refine ⟨first, digits, ?_, isAsciiDigit_of_mem_toDigits (n := n) (hcons ▸ List.mem_cons_self)⟩
  rw [Nat.toString_eq_repr, Nat.toList_repr, hcons]

/-- A number does not begin with a zero, unless it is zero. -/
theorem head?_toDigits_ne
    {n : Nat}
    (hn : n ≠ 0) :
    (Nat.toDigits 10 n).head? ≠ some '0' := by
  induction n using Nat.strongRecOn with
  | ind n ih =>
      by_cases hlt : n < 10
      · rw [Nat.toDigits_of_lt_base hlt]
        interval_cases n <;> simp_all [Nat.digitChar]
      · have hfirst := ih (n / 10) (by omega) (by omega)
        rw [Nat.toDigits_of_base_le (by decide) (by omega)]
        rw [List.head?_append_of_ne_nil _ Nat.toDigits_ne_nil]
        exact hfirst

/-- A whole number is read up to where its digits end. -/
theorem readWhole_toDigits
    (n : Nat)
    {rest : List Char}
    (hrest : EndsNumber rest) :
    readWhole (Nat.toDigits 10 n ++ rest) = some (Nat.toDigits 10 n, rest) := by
  have hdigits : ∀ c ∈ Nat.toDigits 10 n, isAsciiDigit c = true := fun c =>
    isAsciiDigit_of_mem_toDigits
  have hstop : ∀ c ∈ rest.head?, isAsciiDigit c = false := fun c hc => (hrest c hc).1
  have hread : readDigits (Nat.toDigits 10 n ++ rest) = some (Nat.toDigits 10 n, rest) := by
    rw [readDigits, takeWhile_append_eq_left hdigits hstop, dropWhile_append_eq_right hdigits hstop]
    split
    · next hnil => exact absurd hnil Nat.toDigits_ne_nil
    · rfl
  have hzero : (Nat.toDigits 10 n).head? = some '0' → (Nat.toDigits 10 n).length = 1 := by
    by_cases hn : n = 0
    · subst hn
      exact fun _ => rfl
    · exact fun hhead => absurd hhead (head?_toDigits_ne hn)
  simpa [readWhole, hread] using hzero

/-- A number is read up to where it ends. -/
theorem readNumber_toString
    (n : Nat)
    {rest : List Char}
    (hrest : EndsNumber rest) :
    readNumber ((toString n).toList ++ rest) = some (.natural n, rest) := by
  have hfraction : readFraction rest = some ([], rest) := by
    unfold readFraction
    split
    · exact absurd rfl (hrest '.' rfl).2.1
    · rfl
  have hexponent : readExponent rest = some ([], rest) := by
    cases rest with
    | nil => rfl
    | cons c rest => simp [readExponent, (hrest c rfl).2.2]
  rw [Nat.toString_eq_repr, Nat.toList_repr, readNumber]
  · simp [readWhole_toDigits n hrest, hfraction, hexponent, digitsValue_toDigits]
  · -- no sign stands in front
    intro more heq
    obtain ⟨first, digits, hcons, hfirst⟩ := exists_toString_eq_cons n
    rw [Nat.toString_eq_repr, Nat.toList_repr] at hcons
    rw [hcons, List.cons_append, List.cons.injEq] at heq
    exact ne_of_isAsciiDigit hfirst (by decide) heq.1

end Numbers

section Spaces

theorem isSpace_of_mem_newline
    {depth : Nat}
    {c : Char}
    (hc : c ∈ (newline depth).toList) :
    isSpace c = true := by
  have hlist : (newline depth).toList = '\n' :: List.replicate (2 * depth) ' ' := by
    simp [newline]
  rw [hlist, List.mem_cons] at hc
  rcases hc with rfl | hc
  · rfl
  · rw [List.eq_of_mem_replicate hc]
    rfl

/-- A line break before something that is no space is passed over. -/
theorem dropWhile_newline
    (depth : Nat)
    {c : Char}
    (hc : isSpace c = false)
    (rest : List Char) :
    ((newline depth).toList ++ c :: rest).dropWhile isSpace = c :: rest :=
  dropWhile_append_eq_right (fun _ => isSpace_of_mem_newline) (by simpa using hc)

variable {spaces : List Char}

theorem readValue_spaces
    (hspaces : ∀ c ∈ spaces, isSpace c = true)
    (fuel : Nat)
    (cs : List Char) :
    readValue fuel (spaces ++ cs) = readValue fuel cs := by
  cases fuel with
  | zero =>
      rw [readValue, readValue]
  | succ fuel =>
      rw [readValue, readValue, List.dropWhile_append_of_pos hspaces]

theorem readElements_spaces
    (hspaces : ∀ c ∈ spaces, isSpace c = true)
    (fuel : Nat)
    (cs : List Char) :
    readElements fuel (spaces ++ cs) = readElements fuel cs := by
  cases fuel with
  | zero =>
      rw [readElements, readElements]
  | succ fuel =>
      rw [readElements, readElements, readValue_spaces hspaces]

theorem readMembers_spaces
    (hspaces : ∀ c ∈ spaces, isSpace c = true)
    (fuel : Nat)
    (cs : List Char) :
    readMembers fuel (spaces ++ cs) = readMembers fuel cs := by
  cases fuel with
  | zero =>
      rw [readMembers, readMembers]
  | succ fuel =>
      rw [readMembers, readMembers, List.dropWhile_append_of_pos hspaces]

end Spaces

/-- Whether a value is read from its text at a depth, whatever follows, with as many steps as the
text has characters. -/
def ReadsBack
    (depth : Nat)
    (j : Json) : Prop :=
  ∀ fuel rest, (pretty depth j).toList.length ≤ fuel → EndsNumber rest →
    readValue fuel ((pretty depth j).toList ++ rest) = some (j, rest)

section Lists

theorem endsNumber_newline
    (depth : Nat)
    (rest : List Char) :
    EndsNumber ((newline depth).toList ++ rest) := by
  simp [newline, endsNumber_cons, isAsciiDigit]

theorem toList_prettyElements_cons
    (depth : Nat)
    (e : Json)
    (elements : List Json) :
    (prettyElements depth (e :: elements)).toList = ',' :: ((newline depth).toList ++
      ((pretty depth e).toList ++ (prettyElements depth elements).toList)) := by
  simp [prettyElements]

/-- Elements are read back one after another, up to the closing bracket. -/
theorem readElements_pretty
    {depth : Nat}
    (outer : Nat)
    {first : Json}
    {elements : List Json}
    (hfirst : ReadsBack depth first)
    (helements : ∀ e ∈ elements, ReadsBack depth e)
    {fuel : Nat}
    (hfuel : (pretty depth first).toList.length + (prettyElements depth elements).toList.length
      < fuel)
    (rest : List Char) :
    readElements fuel ((pretty depth first).toList ++ ((prettyElements depth elements).toList ++
      ((newline outer).toList ++ ']' :: rest))) = some (first :: elements, rest) := by
  obtain ⟨fuel, rfl⟩ := Nat.exists_eq_add_one_of_ne_zero (Nat.ne_zero_of_lt hfuel)
  induction elements generalizing first fuel with
  | nil =>
      have hread := hfirst fuel ((newline outer).toList ++ ']' :: rest) (by omega)
        (endsNumber_newline outer _)
      simp [readElements, prettyElements, hread, dropWhile_newline outer (c := ']') rfl]
  | cons next elements ih =>
      rw [List.forall_mem_cons] at helements
      rw [toList_prettyElements_cons, List.length_cons, List.length_append,
        List.length_append] at hfuel
      obtain ⟨fuel, rfl⟩ := Nat.exists_eq_add_one_of_ne_zero (by omega : fuel ≠ 0)
      have hread := hfirst (fuel + 1) _ (by omega) (endsNumber_cons (c := ',') (by decide)
        ((newline depth).toList ++ ((pretty depth next).toList ++
          ((prettyElements depth elements).toList ++ ((newline outer).toList ++ ']' :: rest)))))
      have hmore := ih helements.1 helements.2 fuel (by omega)
      rw [toList_prettyElements_cons, readElements]
      simp only [List.cons_append, List.append_assoc, hread, Option.bind_eq_bind, Option.bind_some]
      rw [List.dropWhile_cons_of_neg (by decide)]
      simp only [readElements_spaces fun _ => isSpace_of_mem_newline, hmore, Option.bind_some]

/-- A member as it stands on its line. -/
def prettyMember
    (depth : Nat)
    (m : Option String × Json) : List Char :=
  (literal (m.1.getD "")).toList ++ ':' :: ' ' :: (pretty depth m.2).toList

theorem toList_prettyMembers_cons
    (depth : Nat)
    (m : Option String × Json)
    (members : List (Option String × Json)) :
    (prettyMembers depth (m :: members)).toList = ',' :: ((newline depth).toList ++
      (prettyMember depth m ++ (prettyMembers depth members).toList)) := by
  simp [prettyMembers, prettyMember]

/-- One member is read up to what stands behind its value. -/
theorem readMembers_member
    {depth : Nat}
    {m : Option String × Json}
    (hname : m.1.isSome = true)
    (hvalue : ReadsBack depth m.2)
    {fuel : Nat}
    (hfuel : (prettyMember depth m).length ≤ fuel)
    {rest : List Char}
    (hrest : EndsNumber rest) :
    readMembers (fuel + 1) (prettyMember depth m ++ rest) =
      match rest.dropWhile isSpace with
      | '}' :: rest => some ([m], rest)
      | ',' :: rest => (readMembers fuel rest).map fun read => (m :: read.1, read.2)
      | _ => none := by
  obtain ⟨name, value⟩ := m
  obtain ⟨name, rfl⟩ := Option.isSome_iff_exists.1 hname
  have hlist : prettyMember depth (some name, value) ++ rest =
      '"' :: (name.toList.flatMap escapeChar ++ '"' :: ':' :: ([' '] ++
        ((pretty depth value).toList ++ rest))) := by
    simp [prettyMember, literal]
  have hread : readValue fuel ([' '] ++ ((pretty depth value).toList ++ rest)) =
      some (value, rest) := by
    rw [readValue_spaces (by simp [isSpace])]
    refine hvalue fuel rest (le_trans ?_ hfuel) hrest
    simp only [prettyMember, List.length_append, List.length_cons]
    omega
  rw [hlist, readMembers, List.dropWhile_cons_of_neg (by decide)]
  simp only [readString_flatMap_escapeChar, Option.bind_eq_bind, Option.bind_some,
    String.ofList_toList]
  rw [List.dropWhile_cons_of_neg (by decide)]
  simp only [hread, Option.bind_some, Option.map_eq_bind]
  rfl

/-- Members are read back one after another, up to the closing brace. -/
theorem readMembers_pretty
    {depth : Nat}
    (outer : Nat)
    {first : Option String × Json}
    {members : List (Option String × Json)}
    (hfirst : first.1.isSome = true ∧ ReadsBack depth first.2)
    (hmembers : ∀ m ∈ members, m.1.isSome = true ∧ ReadsBack depth m.2)
    {fuel : Nat}
    (hfuel : (prettyMember depth first).length + (prettyMembers depth members).toList.length < fuel)
    (rest : List Char) :
    readMembers fuel (prettyMember depth first ++ ((prettyMembers depth members).toList ++
      ((newline outer).toList ++ '}' :: rest))) = some (first :: members, rest) := by
  obtain ⟨fuel, rfl⟩ := Nat.exists_eq_add_one_of_ne_zero (Nat.ne_zero_of_lt hfuel)
  induction members generalizing first fuel with
  | nil =>
      rw [prettyMembers, String.toList_empty, List.nil_append,
        readMembers_member hfirst.1 hfirst.2 (by omega) (endsNumber_newline outer _),
        dropWhile_newline outer (c := '}') rfl]
      rfl
  | cons next members ih =>
      rw [List.forall_mem_cons] at hmembers
      rw [toList_prettyMembers_cons, List.length_cons, List.length_append, List.length_append]
        at hfuel
      obtain ⟨fuel, rfl⟩ := Nat.exists_eq_add_one_of_ne_zero (by omega : fuel ≠ 0)
      have hmore := ih hmembers.1 hmembers.2 fuel (by omega)
      rw [toList_prettyMembers_cons, List.cons_append,
        readMembers_member hfirst.1 hfirst.2 (by omega) (endsNumber_cons (by decide) _),
        List.dropWhile_cons_of_neg (by decide)]
      simp only [List.append_assoc, readMembers_spaces fun _ => isSpace_of_mem_newline, hmore,
        Option.map_some]

end Lists

/-- The text of an array begins with its opening bracket and the first element on a line. -/
theorem toList_pretty_array
    (depth : Nat)
    (first : Json)
    (elements : List Json) :
    (pretty depth (.array (first :: elements))).toList =
      '[' :: ((newline (depth + 1)).toList ++ ((pretty (depth + 1) first).toList ++
        ((prettyElements (depth + 1) elements).toList ++ ((newline depth).toList ++ [']'])))) := by
  simp [pretty]

theorem toList_pretty_object
    (depth : Nat)
    (first : Option String × Json)
    (members : List (Option String × Json)) :
    (pretty depth (.object (first :: members))).toList =
      '{' :: ((newline (depth + 1)).toList ++ (prettyMember (depth + 1) first ++
        ((prettyMembers (depth + 1) members).toList ++ ((newline depth).toList ++ ['}'])))) := by
  simp [pretty, prettyMember]

/-- The text of a value begins with a character that is no space and closes no list. -/
theorem exists_head_pretty
    {j : Json}
    (hj : Plain j)
    (depth : Nat) :
    ∃ c rest, (pretty depth j).toList = c :: rest ∧ isSpace c = false ∧ c ≠ ']' := by
  cases hj with
  | null =>
      exact ⟨'n', "ull".toList, by rw [pretty]; rfl, rfl, by decide⟩
  | bool value =>
      cases value with
      | false => exact ⟨'f', "alse".toList, by rw [pretty]; rfl, rfl, by decide⟩
      | true => exact ⟨'t', "rue".toList, by rw [pretty]; rfl, rfl, by decide⟩
  | natural value =>
      obtain ⟨first, digits, hcons, hfirst⟩ := exists_toString_eq_cons value
      exact ⟨first, digits, by rw [pretty, hcons], isSpace_of_isAsciiDigit hfirst,
        ne_of_isAsciiDigit hfirst (by decide)⟩
  | text s =>
      exact ⟨'"', _, by rw [text, pretty, literal, String.toList_ofList]; rfl, rfl, by decide⟩
  | @array elements helements =>
      cases elements with
      | nil => exact ⟨'[', [']'], by rw [pretty]; rfl, rfl, by decide⟩
      | cons first elements =>
          exact ⟨'[', _, toList_pretty_array depth first elements, rfl, by decide⟩
  | @object members hnames hvalues =>
      cases members with
      | nil => exact ⟨'{', ['}'], by rw [pretty]; rfl, rfl, by decide⟩
      | cons first members =>
          exact ⟨'{', _, toList_pretty_object depth first members, rfl, by decide⟩

/-- A value is read back if it is with one step at least, as its text is not empty. -/
theorem readsBack_of_succ
    {depth : Nat}
    {j : Json}
    (hj : Plain j)
    (hsucc : ∀ fuel rest, (pretty depth j).toList.length ≤ fuel + 1 → EndsNumber rest →
      readValue (fuel + 1) ((pretty depth j).toList ++ rest) = some (j, rest)) :
    ReadsBack depth j := by
  intro fuel rest hfuel hrest
  obtain ⟨c, more, hcons, -⟩ := exists_head_pretty hj depth
  have hsteps : fuel ≠ 0 := by
    rw [hcons, List.length_cons] at hfuel
    omega
  obtain ⟨fuel, rfl⟩ := Nat.exists_eq_add_one_of_ne_zero hsteps
  exact hsucc fuel rest hfuel hrest

/-- An array is read back if its elements are. -/
theorem readsBack_array
    {depth : Nat}
    {elements : List Json}
    (hplain : ∀ e ∈ elements, Plain e)
    (helements : ∀ e ∈ elements, ReadsBack (depth + 1) e) :
    ReadsBack depth (.array elements) := by
  refine readsBack_of_succ (.array hplain) fun fuel rest hfuel hrest => ?_
  cases elements with
  | nil =>
      simp [pretty, readValue, isSpace]
  | cons first elements =>
      rw [List.forall_mem_cons] at hplain helements
      have hread : readElements fuel _ = _ := readElements_pretty depth helements.1 helements.2
        (by simp [toList_pretty_array] at hfuel; omega) rest
      -- The first element does not close the array.
      obtain ⟨c, more, hcons, hspace, hclose⟩ := exists_head_pretty hplain.1 (depth + 1)
      rw [hcons, List.cons_append] at hread
      rw [toList_pretty_array, hcons, readValue, List.cons_append,
        List.dropWhile_cons_of_neg (by decide)]
      simp [dropWhile_newline (depth + 1) hspace, hclose, hread]

/-- An object is read back if its members are. -/
theorem readsBack_object
    {depth : Nat}
    {members : List (Option String × Json)}
    (hnames : ∀ m ∈ members, m.1.isSome = true)
    (hplain : ∀ m ∈ members, Plain m.2)
    (hmembers : ∀ m ∈ members, ReadsBack (depth + 1) m.2) :
    ReadsBack depth (.object members) := by
  refine readsBack_of_succ (.object hnames hplain) fun fuel rest hfuel hrest => ?_
  cases members with
  | nil =>
      simp [pretty, readValue, isSpace]
  | cons first members =>
      rw [List.forall_mem_cons] at hnames hmembers
      have hread : readMembers fuel _ = _ := readMembers_pretty depth ⟨hnames.1, hmembers.1⟩
        (fun m hm => ⟨hnames.2 m hm, hmembers.2 m hm⟩)
        (by simp [toList_pretty_object] at hfuel; omega) rest
      -- The quote before the first name does not close the object.
      obtain ⟨more, hcons⟩ : ∃ more, prettyMember (depth + 1) first = '"' :: more :=
        ⟨_, by rw [prettyMember, literal, String.toList_ofList]; rfl⟩
      rw [hcons, List.cons_append] at hread
      rw [toList_pretty_object, hcons, readValue, List.cons_append,
        List.dropWhile_cons_of_neg (by decide)]
      simp [dropWhile_newline (depth + 1) (c := '"') rfl, hread]

/-- Every value that is written in one way is read back. -/
theorem readsBack_of_plain
    {j : Json}
    (hj : Plain j)
    (depth : Nat) :
    ReadsBack depth j := by
  -- Along the constructors; what stands inside a value is one deeper.
  induction hj generalizing depth with
  | null =>
      refine readsBack_of_succ .null fun fuel rest hfuel hrest => ?_
      simp [pretty, readValue, isSpace, dropWord]
  | bool value =>
      refine readsBack_of_succ (.bool value) fun fuel rest hfuel hrest => ?_
      cases value <;> simp [pretty, readValue, isSpace, dropWord]
  | natural value =>
      refine readsBack_of_succ (.natural value) fun fuel rest hfuel hrest => ?_
      obtain ⟨first, digits, hcons, hfirst⟩ := exists_toString_eq_cons value
      have hread := readNumber_toString value hrest
      have hne : ∀ d, isAsciiDigit d = false → first ≠ d := fun d => ne_of_isAsciiDigit hfirst
      rw [hcons, List.cons_append] at hread
      rw [pretty, hcons, readValue, List.cons_append,
        List.dropWhile_cons_of_neg (by simp [isSpace_of_isAsciiDigit hfirst])]
      simp [hne '"' rfl, hne '[' rfl, hne '{' rfl, hne 't' rfl, hne 'f' rfl, hne 'n' rfl, hread]
  | text s =>
      refine readsBack_of_succ (.text s) fun fuel rest hfuel hrest => ?_
      simp [text, pretty, literal, readValue, isSpace, readString_flatMap_escapeChar]
  | array helements ih =>
      exact readsBack_array helements fun e he => ih e he (depth + 1)
  | object hnames hvalues ih =>
      exact readsBack_object hnames hvalues fun m hm => ih m hm (depth + 1)

/-- Reading is a left inverse of writing. -/
theorem read_pretty
    {j : Json}
    (hj : Plain j)
    (depth : Nat) :
    read (pretty depth j) = some j := by
  have hread := readsBack_of_plain hj depth ((pretty depth j).toList.length + 1) [] (by omega)
    endsNumber_nil
  rw [List.append_nil] at hread
  rw [read, hread]
  rfl

end BlockMarkup.Json
