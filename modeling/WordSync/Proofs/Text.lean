import WordSync.Text

/-!
# Texts that can be read back

Where texts stand one behind the other, each of them can be read back if one can see where it
ends. A numeral goes on as long as there are digits, so it ends where something else than a digit
follows; a list or a record ends with its bracket. `Separable` says of two texts that whoever
sees what they stand in also sees whether they are the same, and it passes from the parts of a
list or a record to the whole.
-/

namespace WordSync.Text

/-- What follows a text does not begin with a digit. -/
def Ends (rest : List Char) : Prop := rest.head?.all (fun c => !c.isDigit) = true

/-- Two texts are separable if they and what follows them can be told from the two together, as
long as no digit follows. -/
def Separable (x y : String) : Prop :=
  ∀ r s : List Char, Ends r → Ends s → x.toList ++ r = y.toList ++ s → x = y ∧ r = s

/-- A row of digits is what comes before the first other character. -/
theorem takeWhile_isDigit {digits rest : List Char} (hdigits : ∀ c ∈ digits, c.isDigit = true)
    (hends : Ends rest) : (digits ++ rest).takeWhile Char.isDigit = digits := by
  have hrest : rest.takeWhile Char.isDigit = [] := by
    cases rest with
    | nil => rfl
    | cons c rest =>
      have hc : c.isDigit = false := (Bool.not_eq_true' _).mp hends
      exact List.takeWhile_cons_of_neg (ne_true_of_eq_false hc)
  rw [List.takeWhile_append_of_pos hdigits, hrest, List.append_nil]

/-- A numeral is a row of digits. -/
theorem isDigit_of_mem_numeral (n : Nat) : ∀ c ∈ (toString n).toList, c.isDigit = true := by
  intro c hc
  rw [Nat.toString_eq_ofList_toDigits, String.toList_ofList] at hc
  exact Nat.isDigit_of_mem_toDigits (by decide) (by decide) hc

/-- The value of its digits is the number of a numeral. -/
theorem numeral_injective {m n : Nat} (h : toString m = toString n) : m = n := by
  have hdigits : Nat.toDigits 10 m = Nat.toDigits 10 n := by
    rw [Nat.toString_eq_ofList_toDigits, Nat.toString_eq_ofList_toDigits] at h
    exact String.ofList_injective h
  calc
    m = Nat.ofDigitChars 10 (Nat.toDigits 10 m) 0 := Nat.ofDigitChars_ten_toDigits.symm
    _ = Nat.ofDigitChars 10 (Nat.toDigits 10 n) 0 := by rw [hdigits]
    _ = n := Nat.ofDigitChars_ten_toDigits

/-- Numerals are separable: each of them is all the digits there are. -/
theorem separable_numeral (m n : Nat) : Separable (toString m) (toString n) := by
  intro r s hr hs h
  have hm := takeWhile_isDigit (isDigit_of_mem_numeral m) hr
  have hn := takeWhile_isDigit (isDigit_of_mem_numeral n) hs
  have hsame : (toString m).toList = (toString n).toList := by rw [← hm, h, hn]
  rw [hsame] at h
  exact ⟨String.toList_inj.mp hsame, List.append_cancel_left h⟩

/-- The same text in front of both leaves them separable. -/
theorem Separable.behind {x y : String} (h : Separable x y) (front : String) :
    Separable (front ++ x) (front ++ y) := by
  intro r s hr hs heq
  simp only [String.toList_append, List.append_assoc, List.append_cancel_left_eq] at heq
  obtain ⟨rfl, hrest⟩ := h r s hr hs heq
  exact ⟨rfl, hrest⟩

section

variable {α : Type} {items : List α} {f g : α → String}

/-- The parts of two lists of texts can be told from the two lists, if each part of the one is
separable from that of the other in its place. -/
theorem eq_of_commaSeparated (hparts : ∀ item ∈ items, Separable (f item) (g item))
    {r s : List Char} (hr : Ends r) (hs : Ends s)
    (h : (commaSeparated (items.map f)).toList ++ r = (commaSeparated (items.map g)).toList ++ s) :
    (∀ item ∈ items, f item = g item) ∧ r = s := by
  induction items with
  | nil => exact ⟨fun item hitem => absurd hitem List.not_mem_nil, h⟩
  | cons item rest ih =>
    obtain ⟨hfirst, hothers⟩ := List.forall_mem_cons.mp hparts
    cases rest with
    | nil =>
      obtain ⟨hitem, hrest⟩ := hfirst r s hr hs h
      exact ⟨List.forall_mem_cons.mpr ⟨hitem, fun _ hmem => absurd hmem List.not_mem_nil⟩, hrest⟩
    | cons next rest =>
      simp only [List.map_cons, commaSeparated, String.toList_append, List.append_assoc] at h
      -- A comma ends the first part.
      obtain ⟨hitem, htail⟩ := hfirst _ _ (by rfl) (by rfl) h
      obtain ⟨hitems, hrest⟩ := ih hothers (List.append_cancel_left htail)
      exact ⟨List.forall_mem_cons.mpr ⟨hitem, hitems⟩, hrest⟩

/-- The same holds of the lists in brackets, whatever follows them. -/
theorem eq_of_list (hparts : ∀ item ∈ items, Separable (f item) (g item)) {r s : List Char}
    (h : (list (items.map f)).toList ++ r = (list (items.map g)).toList ++ s) :
    (∀ item ∈ items, f item = g item) ∧ r = s := by
  simp only [list, String.toList_append, List.append_assoc, List.append_cancel_left_eq] at h
  -- A bracket ends the last part.
  obtain ⟨hitems, hrest⟩ := eq_of_commaSeparated hparts (by rfl) (by rfl) h
  exact ⟨hitems, List.append_cancel_left hrest⟩

/-- Lists of separable parts are separable. -/
theorem separable_list (hparts : ∀ item ∈ items, Separable (f item) (g item)) :
    Separable (list (items.map f)) (list (items.map g)) := by
  intro r s _ _ h
  obtain ⟨hitems, hrest⟩ := eq_of_list hparts h
  exact ⟨congrArg list (List.map_congr_left hitems), hrest⟩

/-- The parts of a list are told by its text. -/
theorem eq_of_list_eq (hparts : ∀ item ∈ items, Separable (f item) (g item))
    (h : list (items.map f) = list (items.map g)) : ∀ item ∈ items, f item = g item := by
  have htexts : (list (items.map f)).toList ++ [] = (list (items.map g)).toList ++ [] := by
    rw [h]
  exact (eq_of_list hparts htexts).1

end

/-- The parts of a record are told by its text. -/
theorem eq_of_record_eq {α : Type} {name : String} {fields : List (String × α)}
    (f g : α → String) (hparts : ∀ field ∈ fields, Separable (f field.2) (g field.2))
    (h : record name (fields.map fun field => (field.1, f field.2)) =
      record name (fields.map fun field => (field.1, g field.2))) :
    ∀ field ∈ fields, f field.2 = g field.2 := by
  cases fields with
  | nil => exact fun field hfield => absurd hfield List.not_mem_nil
  | cons first rest =>
    have hrecord (value : α → String) :
        record name ((first :: rest).map fun field => (field.1, value field.2)) =
          name ++ " \x7b " ++
            commaSeparated ((first :: rest).map fun field => part (field.1, value field.2)) ++
            " \x7d" := by
      simp only [record, List.map_cons, List.map_map, Function.comp_def]
    rw [hrecord, hrecord] at h
    have htexts := congrArg String.toList h
    simp only [String.toList_append, List.append_assoc, List.append_cancel_left_eq] at htexts
    have hsep : ∀ field ∈ first :: rest,
        Separable (part (field.1, f field.2)) (part (field.1, g field.2)) :=
      fun field hfield => (hparts field hfield).behind _
    -- The brace at the end is set off by a blank, which ends the last part.
    obtain ⟨htold, -⟩ := eq_of_commaSeparated hsep (by rfl) (by rfl) htexts
    exact fun field hfield => (String.append_right_inj _).mp (htold field hfield)

end WordSync.Text
