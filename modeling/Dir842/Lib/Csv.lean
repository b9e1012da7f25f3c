import Mathlib.Data.List.Basic

/-!
# Rows of fields

The reader of comma-separated values, with `"` around a field that is quoted. Fields without the
delimiter, quotes and ends of lines are read back as they were written, and other fields once the
writer has quoted them.
-/

namespace Csv

variable (d : Char)

inductive Place | fieldStart | inField | quoted | quoteInQuoted
deriving DecidableEq

/-- The rows of the text, after the part `field` of a field and the fields `row` before it. -/
def rows : Place → List Char → List (List Char) → List Char → List (List (List Char))
  | pl, field, row, [] => if pl = .fieldStart ∧ row = [] then [] else [row ++ [field]]
  | .quoted, field, row, c :: s =>
    if c = '"' then rows .quoteInQuoted field row s else rows .quoted (field ++ [c]) row s
  | pl, field, row, c :: s =>
    if c = '\n' then
      -- A blank line is a row without fields.
      (if pl = .fieldStart ∧ row = [] then [] else row ++ [field]) :: rows .fieldStart [] [] s
    else if c = d then
      rows .fieldStart [] (row ++ [field]) s
    else if c = '"' ∧ pl = .fieldStart then
      rows .quoted field row s
    else if c = '"' ∧ pl = .quoteInQuoted then
      rows .quoted (field ++ [c]) row s
    else
      rows .inField (field ++ [c]) row s

def reader (s : List Char) : List (List (List Char)) := rows d .fieldStart [] [] s

def Plain (t : List Char) : Prop := ∀ c ∈ t, c ≠ '\n' ∧ c ≠ d ∧ c ≠ '"'

variable {d} {t field s : List Char} {row : List (List Char)}

theorem rows_inField (ht : Plain d t) :
    rows d .inField field row (t ++ s) = rows d .inField (field ++ t) row s := by
  induction t generalizing field with
  | nil => rw [List.nil_append, List.append_nil]
  | cons c t ih =>
    obtain ⟨⟨hline, hdelim, hquote⟩, ht⟩ := List.forall_mem_cons.mp ht
    rw [List.cons_append, rows, if_neg hline, if_neg hdelim, if_neg (fun h => hquote h.1),
      if_neg (fun h => hquote h.1), ih ht, List.append_assoc, List.singleton_append]
    exact nofun

/-- A field is read up to its end, where the place is one of two that end it alike. -/
theorem rows_fieldStart (ht : Plain d t) : ∃ pl, (pl = .fieldStart ∧ t = [] ∨ pl = .inField) ∧
    rows d .fieldStart [] row (t ++ s) = rows d pl t row s := by
  cases t with
  | nil => exact ⟨.fieldStart, .inl ⟨rfl, rfl⟩, rfl⟩
  | cons c t =>
    obtain ⟨⟨hline, hdelim, hquote⟩, ht⟩ := List.forall_mem_cons.mp ht
    refine ⟨.inField, .inr rfl, ?_⟩
    rw [List.cons_append, rows, if_neg hline, if_neg hdelim, if_neg (fun h => hquote h.1),
      if_neg (fun h => hquote h.1), rows_inField ht, List.nil_append, List.singleton_append]
    exact nofun

theorem rows_delimiter (hd : d ≠ '\n') (ht : Plain d t) :
    rows d .fieldStart [] row (t ++ d :: s) = rows d .fieldStart [] (row ++ [t]) s := by
  obtain ⟨pl, hpl, hrows⟩ := @rows_fieldStart d t (d :: s) row ht
  rw [hrows]
  obtain ⟨rfl, -⟩ | rfl := hpl
  all_goals
    rw [rows, if_neg hd, if_pos rfl]
    exact nofun

theorem rows_newline (ht : Plain d t) (hrow : row ≠ []) :
    rows d .fieldStart [] row (t ++ '\n' :: s) = (row ++ [t]) :: reader d s := by
  obtain ⟨pl, hpl, hrows⟩ := @rows_fieldStart d t ('\n' :: s) row ht
  rw [hrows]
  obtain ⟨rfl, -⟩ | rfl := hpl
  all_goals
    rw [rows, if_pos rfl, if_neg (fun h => hrow h.2)]
    · rfl
    · exact nofun

/-- A line of the fields, the last of which is `t`. -/
def line (d : Char) (fields : List (List Char)) (t : List Char) : List Char :=
  fields.flatMap (· ++ [d]) ++ t ++ ['\n']

theorem rows_line (hd : d ≠ '\n') {fields : List (List Char)} (hfields : ∀ f ∈ fields, Plain d f)
    (ht : Plain d t) (hne : row ++ fields ≠ []) :
    rows d .fieldStart [] row (line d fields t ++ s) = (row ++ fields ++ [t]) :: reader d s := by
  induction fields generalizing row with
  | nil =>
    rw [List.append_nil] at hne ⊢
    rw [line, List.flatMap_nil, List.nil_append, List.append_assoc]
    exact rows_newline ht hne
  | cons f fields ih =>
    obtain ⟨hf, hfields⟩ := List.forall_mem_cons.mp hfields
    have hline : line d (f :: fields) t ++ s = f ++ d :: (line d fields t ++ s) := by
      simp [line]
    rw [hline, rows_delimiter hd hf, ih hfields (by simp), List.append_assoc row [f],
      List.singleton_append]

/-- The rows that were written are read back. -/
theorem reader_flatMap_line (hd : d ≠ '\n') {ρ : Type} {fields : ρ → List (List Char)}
    {last : ρ → List Char} (hfields : ∀ r, ∀ f ∈ fields r, Plain d f) (hne : ∀ r, fields r ≠ [])
    (hlast : ∀ r, Plain d (last r)) (rs : List ρ) :
    reader d (rs.flatMap fun r => line d (fields r) (last r)) =
      rs.map fun r => fields r ++ [last r] := by
  induction rs with
  | nil => rfl
  | cons r rs ih =>
    rw [List.flatMap_cons, reader, rows_line hd (hfields r) (hlast r) (hne r), ih]
    rfl

/-! ### Fields with quotes -/

/-- The writer quotes a field only where it has to. -/
def writeField (d : Char) (t : List Char) : List Char :=
  if t.any fun c => c = d ∨ c = '"' ∨ c = '\n' ∨ c = '\r' then
    '"' :: t.flatMap (fun c => if c = '"' then ['"', '"'] else [c]) ++ ['"']
  else t

/-- A row up to the end of its line; its last field is `t`. -/
def rowText (d : Char) (fields : List (List Char)) (t : List Char) : List Char :=
  fields.flatMap (fun f => writeField d f ++ [d]) ++ writeField d t

def writeRow (d : Char) (fields : List (List Char)) (t : List Char) : List Char :=
  rowText d fields t ++ ['\r', '\n']

/-- What a file that is opened as text gives for the ends of lines. -/
def universalNewlines : List Char → List Char
  | '\r' :: '\n' :: s => '\n' :: universalNewlines s
  | '\r' :: s => '\n' :: universalNewlines s
  | c :: s => c :: universalNewlines s
  | [] => []

theorem rows_quoteInQuoted (hd : d ≠ '"') :
    rows d .quoteInQuoted field row ('"' :: s) = rows d .quoted (field ++ ['"']) row s := by
  rw [rows, if_neg (by decide), if_neg hd.symm, if_neg (fun h => nomatch h.2), if_pos ⟨rfl, rfl⟩]
  exact nofun

theorem rows_quoted (hd : d ≠ '"') (t : List Char) :
    rows d .quoted field row (t.flatMap (fun c => if c = '"' then ['"', '"'] else [c]) ++ '"' :: s) =
      rows d .quoteInQuoted (field ++ t) row s := by
  induction t generalizing field with
  | nil => rw [List.flatMap_nil, List.nil_append, List.append_nil, rows, if_pos rfl]
  | cons c t ih =>
    rw [List.flatMap_cons, ← List.singleton_append (l := t), ← List.append_assoc field]
    by_cases hc : c = '"'
    · rw [if_pos hc, hc, List.append_assoc, List.cons_append, List.singleton_append, rows, if_pos rfl,
        rows_quoteInQuoted hd, ih]
    · rw [if_neg hc, List.singleton_append, List.cons_append, rows, if_neg hc, ih]

/-- A field is read up to its end, where the place is one of three that end it alike. -/
theorem rows_writeField (hd : d ≠ '"') (t : List Char) :
    ∃ pl, (pl = .fieldStart ∧ t = [] ∨ pl = .inField ∨ pl = .quoteInQuoted) ∧
      rows d .fieldStart [] row (writeField d t ++ s) = rows d pl t row s := by
  rw [writeField]
  split
  · refine ⟨.quoteInQuoted, .inr (.inr rfl), ?_⟩
    rw [List.cons_append, List.cons_append, List.append_assoc, rows, if_neg (by decide),
      if_neg hd.symm, if_pos ⟨rfl, rfl⟩, List.singleton_append, rows_quoted hd, List.nil_append]
    exact nofun
  · rename_i hspecial
    have ht : Plain d t := by
      intro c hc
      have hnot := mt (fun h => List.any_eq_true.mpr ⟨c, hc, h⟩) hspecial
      simp only [decide_eq_true_eq, not_or] at hnot
      exact ⟨hnot.2.2.1, hnot.1, hnot.2.1⟩
    obtain ⟨pl, hpl, hrows⟩ := @rows_fieldStart d t s row ht
    exact ⟨pl, hpl.imp_right .inl, hrows⟩

theorem rows_writeField_delimiter (hq : d ≠ '"') (hd : d ≠ '\n') (t : List Char) :
    rows d .fieldStart [] row (writeField d t ++ d :: s) = rows d .fieldStart [] (row ++ [t]) s := by
  obtain ⟨pl, hpl, hrows⟩ := @rows_writeField d (d :: s) row hq t
  rw [hrows]
  obtain ⟨rfl, -⟩ | rfl | rfl := hpl
  all_goals
    rw [rows, if_neg hd, if_pos rfl]
    exact nofun

theorem rows_writeField_newline (hq : d ≠ '"') (t : List Char) (hrow : row ≠ []) :
    rows d .fieldStart [] row (writeField d t ++ '\n' :: s) = (row ++ [t]) :: reader d s := by
  obtain ⟨pl, hpl, hrows⟩ := @rows_writeField d ('\n' :: s) row hq t
  rw [hrows]
  obtain ⟨rfl, -⟩ | rfl | rfl := hpl
  all_goals
    rw [rows, if_pos rfl, if_neg (fun h => hrow h.2)]
    · rfl
    · exact nofun

theorem rows_rowText (hq : d ≠ '"') (hd : d ≠ '\n') {fields : List (List Char)}
    (hne : row ++ fields ≠ []) :
    rows d .fieldStart [] row (rowText d fields t ++ '\n' :: s) =
      (row ++ fields ++ [t]) :: reader d s := by
  induction fields generalizing row with
  | nil =>
    rw [List.append_nil] at hne ⊢
    exact rows_writeField_newline hq t hne
  | cons f fields ih =>
    have htext : rowText d (f :: fields) t ++ '\n' :: s =
        writeField d f ++ d :: (rowText d fields t ++ '\n' :: s) := by
      simp [rowText]
    rw [htext, rows_writeField_delimiter hq hd, ih (by simp), List.append_assoc row [f],
      List.singleton_append]

theorem universalNewlines_append {a : List Char} (ha : '\r' ∉ a) (b : List Char) :
    universalNewlines (a ++ b) = a ++ universalNewlines b := by
  induction a with
  | nil => rfl
  | cons c a ih =>
    obtain ⟨hc, ha⟩ := not_or.mp (mt List.mem_cons.mpr ha)
    rw [List.cons_append, universalNewlines, ih ha, List.cons_append]
    · exact fun _ h => absurd h.symm hc
    · exact fun h => absurd h.symm hc

theorem not_mem_writeField {c : Char} (hc : c ≠ '"') (ht : c ∉ t) : c ∉ writeField d t := by
  rw [writeField]
  split
  · simp only [List.mem_append, List.mem_cons, List.mem_flatMap, List.not_mem_nil, or_false, hc,
      false_or]
    rintro ⟨a, ha, hmem⟩
    split at hmem
    · simp [hc] at hmem
    · exact ht (List.mem_singleton.mp hmem ▸ ha)
  · exact ht

theorem universalNewlines_writeRow (hd : d ≠ '\r') {fields : List (List Char)}
    (hfields : ∀ f ∈ fields, '\r' ∉ f) (ht : '\r' ∉ t) :
    universalNewlines (writeRow d fields t ++ s) =
      rowText d fields t ++ '\n' :: universalNewlines s := by
  have htext : '\r' ∉ rowText d fields t := by
    rw [rowText, List.mem_append, List.mem_flatMap]
    rintro (⟨f, hf, hmem⟩ | hmem)
    · rcases List.mem_append.mp hmem with hmem | hmem
      · exact not_mem_writeField (by decide) (hfields f hf) hmem
      · exact hd (List.mem_singleton.mp hmem).symm
    · exact not_mem_writeField (by decide) ht hmem
  have hrow : writeRow d fields t ++ s = rowText d fields t ++ ('\r' :: '\n' :: s) :=
    List.append_assoc ..
  rw [hrow, universalNewlines_append htext, universalNewlines]

/-- The rows that were written are read back, whatever is in the fields but `'\r'`. -/
theorem reader_flatMap_writeRow (hq : d ≠ '"') (hd : d ≠ '\n') (hr : d ≠ '\r') {ρ : Type}
    {fields : ρ → List (List Char)} {last : ρ → List Char} (hne : ∀ r, fields r ≠ [])
    (rs : List ρ) (hfields : ∀ r ∈ rs, ∀ f ∈ fields r, '\r' ∉ f) (hlast : ∀ r ∈ rs, '\r' ∉ last r) :
    reader d (universalNewlines (rs.flatMap fun r => writeRow d (fields r) (last r))) =
      rs.map fun r => fields r ++ [last r] := by
  induction rs with
  | nil => rfl
  | cons r rs ih =>
    rw [List.forall_mem_cons] at hfields hlast
    rw [List.flatMap_cons, universalNewlines_writeRow hr hfields.1 hlast.1, reader,
      rows_rowText hq hd (by simpa using hne r), ih hfields.2 hlast.2]
    rfl

end Csv
