import Dir842.Kconfig.Symbol
import Dir842.Lib.LastWins

/-!
# The configuration file (`conf_write`, `conf_read_simple`)

`conf_read_simple` goes over the lines of a file and keeps in `sym->def` what it makes of the last
line of each symbol that it accepts. Choices are left out: they do not change the values of the
symbols in them.
-/

namespace Dir842.Kconfig

/-! ### Writing -/

inductive Line
  | blank
  /-- A line of a comment, which is the heading or the title of a menu. -/
  | comment (text : Text)
  | option (name : Name) (v : SymValue)

/-- `kconfig_print_symbol` with unset symbols. -/
def optionText (name : Name) (v : SymValue) : Text :=
  if (v.type = .boolean ∨ v.type = .tristate) ∧ (symGetStringValue v).head? = some 'n' then
    "# ".toList ++ name.text ++ " is not set".toList
  else name.text ++ '=' :: printedValue v

def Line.text : Line → Text
  | blank => []
  | comment [] => "#".toList
  | comment t => "# ".toList ++ t
  | option name v => optionText name v

def unlines (ls : List Text) : Text := ls.flatMap (· ++ ['\n'])

def confText (lines : List Line) : Text := unlines (lines.map Line.text)

/-! ### Reading -/

/-- What a file says about a symbol, `sym->def`. -/
inductive Def
  | tri (t : Tristate)
  | val (s : Text)
deriving DecidableEq

abbrev Defs := Text → Option Def

/-- The text before the first `c` and the text behind it. -/
def splitFirst (c : Char) : Text → Option (Text × Text)
  | [] => none
  | d :: s => if d = c then some ([], s) else (splitFirst c s).map fun r => (d :: r.1, r.2)

/-- The lines with their line ends, as `compat_getline` returns them. -/
def compatGetline : Text → List Text
  | [] => []
  | c :: s =>
    if c = '\n' then ['\n'] :: compatGetline s
    else
      match compatGetline s with
      | [] => [[c]]
      | l :: ls => (c :: l) :: ls

/-- The loop over a string behind its quote. -/
def unquote : Text → Option Text
  | [] => none
  | c :: s =>
    if c = '"' then some []
    else if c = '\\' then
      match s with
      | [] => none
      | d :: s => (unquote s).map (d :: ·)
    else (unquote s).map (c :: ·)

def confSetSymVal (type : SymType) (p : Text) : Option Def :=
  match type with
  | .boolean =>
    match p.head? with
    | some 'y' => some (.tri .yes)
    | some 'n' => some (.tri .no)
    | _ => none
  | .tristate =>
    match p.head? with
    | some 'm' => some (.tri .mod)
    | some 'y' => some (.tri .yes)
    | some 'n' => some (.tri .no)
    | _ => none
  | .string =>
    match p with
    | '"' :: p => (unquote p).map .val
    | _ => none
  | .int | .hex => if symStringValid type p then some (.val p) else none

/-- The name in a line that says that a symbol is not set, without the two first characters. -/
def unsetName (s : Text) : Option Text :=
  (splitFirst ' ' s).bind fun (name, p) =>
    if "is not set".toList.isPrefixOf p then some name else none

/-- The value behind the equals sign without the line end. -/
def chomp (p : Text) : Text :=
  match splitFirst '\n' p with
  | none => p
  | some (p, _) => if p.getLast? = some '\r' then p.dropLast else p

/-- What a line assigns to which symbol. -/
def confReadLine (types : Text → Option SymType) (line : Text) : Option (Text × Def) :=
  if line.head? = some '#' then
    (unsetName (line.drop 2)).bind fun name =>
      match types name with
      | some .boolean | some .tristate => some (name, .tri .no)
      | _ => none
  else
    (splitFirst '=' line).bind fun (name, p) =>
      (types name).bind fun type =>
        (confSetSymVal type (chomp p)).map fun d => (name, d)

/-- All values are cleared before the loop. -/
def confReadSimple (types : Text → Option SymType) (file : Text) : Defs :=
  ((compatGetline file).map fun line =>
    (confReadLine types line).map fun r => (r.1, some r.2)).foldl LastWins.write fun _ => none

/-! ### Lines -/

theorem compatGetline_append {l : Text} (hl : '\n' ∉ l) (s : Text) :
    compatGetline (l ++ '\n' :: s) = (l ++ ['\n']) :: compatGetline s := by
  induction l with
  | nil => simp [compatGetline]
  | cons c l ih =>
    rw [List.mem_cons, not_or] at hl
    simp [compatGetline, Ne.symm hl.1, ih hl.2]

theorem compatGetline_of_not_mem {l : Text} (hl : '\n' ∉ l) (hne : l ≠ []) :
    compatGetline l = [l] := by
  induction l with
  | nil => exact absurd rfl hne
  | cons c l ih =>
    rw [List.mem_cons, not_or] at hl
    rcases List.eq_nil_or_concat l with rfl | ⟨_, _, hconcat⟩
    · simp [compatGetline, Ne.symm hl.1]
    · simp [compatGetline, Ne.symm hl.1, ih hl.2 (by simp [hconcat])]

theorem splitFirst_append {c : Char} {s : Text} (hs : c ∉ s) (t : Text) :
    splitFirst c (s ++ c :: t) = some (s, t) := by
  induction s with
  | nil => simp [splitFirst]
  | cons d s ih =>
    rw [List.mem_cons, not_or] at hs
    simp [splitFirst, Ne.symm hs.1, ih hs.2]

/-! ### Strings -/

theorem unquote_quote (s : Text) : unquote ('"' :: s) = some [] := by
  rw [unquote.eq_def]
  rfl

theorem unquote_escaped (c : Char) (s : Text) :
    unquote ('\\' :: c :: s) = (unquote s).map (c :: ·) := by
  rw [unquote.eq_def]
  rfl

theorem unquote_plain {c : Char} (hquote : c ≠ '"') (hslash : c ≠ '\\') (s : Text) :
    unquote (c :: s) = (unquote s).map (c :: ·) := by
  simp only [unquote.eq_def (c :: s), if_neg hquote, if_neg hslash]

/-- What `sym_escape_string_value` escapes is read as it was. -/
theorem unquote_escapeBody (s t : Text) : unquote (escapeBody s ++ '"' :: t) = some s := by
  induction s with
  | nil => exact unquote_quote t
  | cons c s ih =>
    unfold escapeBody at ih ⊢
    rw [List.flatMap_cons, List.append_assoc]
    by_cases hc : c = '"' ∨ c = '\\'
    · rw [if_pos hc]
      exact (unquote_escaped c _).trans (congrArg (Option.map (c :: ·)) ih)
    · obtain ⟨hquote, hslash⟩ := not_or.mp hc
      rw [if_neg hc]
      exact (unquote_plain hquote hslash _).trans (congrArg (Option.map (c :: ·)) ih)

theorem length_of_unquote {s t u : Text} (hs : '"' ∉ s) (h : unquote (s ++ '"' :: u) = some t) :
    '"' ∈ t ∨ t.length ≤ s.length ∧ ('\\' ∈ s → t.length < s.length) := by
  match s with
  | [] =>
    obtain rfl : [] = t := by simpa [unquote_quote] using h
    simp
  | c :: s =>
    rw [List.mem_cons, not_or] at hs
    by_cases hslash : c = '\\'
    · subst hslash
      match s with
      | [] =>
        rw [List.cons_append, List.nil_append, unquote_escaped] at h
        obtain ⟨t, -, rfl⟩ := Option.map_eq_some_iff.mp h
        exact .inl (List.mem_cons_self ..)
      | d :: s =>
        rw [List.mem_cons, not_or] at hs
        rw [List.cons_append, List.cons_append, unquote_escaped] at h
        obtain ⟨t, ht, rfl⟩ := Option.map_eq_some_iff.mp h
        refine (length_of_unquote hs.2.2 ht).imp (List.mem_cons_of_mem d) fun hlength => ?_
        simp only [List.length_cons]
        omega
    · rw [List.cons_append, unquote_plain (Ne.symm hs.1) hslash] at h
      obtain ⟨t, ht, rfl⟩ := Option.map_eq_some_iff.mp h
      refine (length_of_unquote hs.2 ht).imp (List.mem_cons_of_mem c) fun hlength => ?_
      refine ⟨by simpa using hlength.1, fun hmem => ?_⟩
      rcases List.mem_cons.mp hmem with hc | hmem
      · exact absurd hc.symm hslash
      · simpa using hlength.2 hmem

/-- A backslash takes a character away, or reads on behind the quote. -/
theorem unquote_ne_self {s : Text} (hquote : '"' ∉ s) (hslash : '\\' ∈ s) (u : Text) :
    unquote (s ++ '"' :: u) ≠ some s := by
  intro h
  rcases length_of_unquote hquote h with hmem | ⟨-, hlt⟩
  · exact hquote hmem
  · exact lt_irrefl _ (hlt hslash)

theorem unquote_of_not_mem {s : Text} (hquote : '"' ∉ s) (hslash : '\\' ∉ s) (u : Text) :
    unquote (s ++ '"' :: u) = some s := by
  have hread := unquote_escapeBody s u
  rwa [escapeBody_of_not_mem hquote hslash] at hread

/-! ### The line of an option -/

theorem Name.not_mem (n : Name) {c : Char} (hc : nameChar c = false) : c ∉ n.text := by
  intro hmem
  simp [n.nameChar_of_mem c hmem] at hc

theorem chomp_newline {p : Text} (hp : '\n' ∉ p) (hr : p.getLast? ≠ some '\r') :
    chomp (p ++ ['\n']) = p := by
  rw [chomp, splitFirst_append hp]
  exact if_neg hr

/-- What is read from the text of a value. -/
def readValue (v : SymValue) : Option Def :=
  match v with
  | .boolean b => some (.tri (if b then .yes else .no))
  | .tristate t => some (.tri t)
  | .int l => l.map fun l => .val l.text
  | .hex l => l.map fun l => .val l.text
  | .string s => some (.val s)

/-- Values that the symbol code admits: without digits, or valid. -/
def Admitted : SymValue → Prop
  | .int (some l) => symStringValid .int l.text = true
  | _ => True

theorem head?_nameText (n : Name) : n.text.head? ≠ some '#' := by
  intro h
  exact n.not_mem (c := '#') rfl (List.mem_of_mem_head? h)

theorem symGetStringValue_head?_unset {v : SymValue}
    (hv : (v.type = .boolean ∨ v.type = .tristate) ∧ (symGetStringValue v).head? = some 'n') :
    readValue v = some (.tri .no) ∧ (v.type = .boolean ∨ v.type = .tristate) := by
  rcases v with b | t | l | l | s
  · cases b
    · exact ⟨rfl, hv.1⟩
    · exact absurd hv.2 (by decide)
  · cases t
    · exact ⟨rfl, hv.1⟩
    · exact absurd hv.2 (by decide)
    · exact absurd hv.2 (by decide)
  all_goals exact absurd hv.1 (by simp [SymValue.type])

/-- The text of a value holds no line end and ends with no carriage return. -/
def OneLine (v : SymValue) : Prop := '\n' ∉ printedValue v

theorem confSetSymVal_printedValue {v : SymValue} (hv : Admitted v)
    (hset : ¬ ((v.type = .boolean ∨ v.type = .tristate) ∧
      (symGetStringValue v).head? = some 'n')) :
    confSetSymVal v.type (printedValue v) = readValue v := by
  rcases v with b | t | l | l | s
  · cases b
    · exact absurd ⟨.inl rfl, rfl⟩ hset
    · rfl
  · cases t
    · exact absurd ⟨.inr rfl, rfl⟩ hset
    · rfl
    · rfl
  · cases l with
    | none => rfl
    | some l => exact if_pos hv
  · cases l with
    | none => rfl
    | some l => exact if_pos (symStringValid_hex l)
  · exact congrArg (Option.map Def.val) (unquote_escapeBody s [])

theorem getLast?_printedValue (v : SymValue) : (printedValue v).getLast? ≠ some '\r' := by
  rcases v with b | t | (_ | l) | (_ | l) | s
  · cases b
    · decide
    · decide
  · cases t
    · decide
    · decide
    · decide
  · decide
  · exact fun h => l.not_mem_text (by decide) (by decide) (List.mem_of_getLast? h)
  · decide
  · exact fun h => l.not_mem_text (by decide) (by decide) (List.mem_of_getLast? h)
  · unfold printedValue symEscapeStringValue
    rw [List.getLast?_append]
    simp

theorem unsetName_append {name : Text} (hname : ' ' ∉ name) (t : Text) :
    unsetName (name ++ " is not set".toList ++ t) = some name := by
  have happend : name ++ " is not set".toList ++ t = name ++ ' ' :: ("is not set".toList ++ t) := by
    simp
  have hprefix : "is not set".toList.isPrefixOf ("is not set".toList ++ t) = true :=
    List.isPrefixOf_iff_prefix.mpr (List.prefix_append ..)
  rw [unsetName, happend, splitFirst_append hname]
  simp only [Option.bind_some, hprefix, if_true]

theorem confReadLine_unset {types : Text → Option SymType} {n : Name} {type : SymType}
    (htype : types n.text = some type) (t : Text) :
    confReadLine types ("# ".toList ++ n.text ++ " is not set".toList ++ t) =
      if type = .boolean ∨ type = .tristate then some (n.text, .tri .no) else none := by
  have hname := unsetName_append (n.not_mem (c := ' ') rfl) t
  have hdrop : ("# ".toList ++ n.text ++ " is not set".toList ++ t).drop 2 =
      n.text ++ " is not set".toList ++ t := by simp
  rw [confReadLine, if_pos (by simp), hdrop, hname, Option.bind_some, htype]
  cases type <;> rfl

theorem confReadLine_assign {types : Text → Option SymType} {n : Name} {type : SymType}
    (htype : types n.text = some type) {value : Text} (hvalue : '\n' ∉ value)
    (hlast : value.getLast? ≠ some '\r') :
    confReadLine types (n.text ++ '=' :: value ++ ['\n']) =
      (confSetSymVal type value).map fun d => (n.text, d) := by
  have hhead : ((n.text ++ '=' :: value) ++ ['\n']).head? ≠ some '#' := by
    rw [List.append_assoc, List.head?_append_of_ne_nil _ n.ne_nil]
    exact head?_nameText n
  rw [confReadLine, if_neg hhead, List.append_assoc, List.cons_append,
    splitFirst_append (n.not_mem (c := '=') rfl), Option.bind_some]
  simp [htype, chomp_newline hvalue hlast]

/-- The line of an option assigns what is read from its value. -/
theorem confReadLine_option {types : Text → Option SymType} {n : Name} {v : SymValue}
    (htype : types n.text = some v.type) (hv : Admitted v) (hline : OneLine v) :
    confReadLine types (optionText n v ++ ['\n']) = (readValue v).map fun d => (n.text, d) := by
  unfold optionText
  split
  · rename_i hunset
    obtain ⟨hread, htri⟩ := symGetStringValue_head?_unset hunset
    rw [confReadLine_unset htype, if_pos htri, hread]
    rfl
  · rename_i hset
    rw [confReadLine_assign htype hline (getLast?_printedValue v),
      confSetSymVal_printedValue hv hset]

/-! ### The whole file -/

theorem compatGetline_unlines {ls : List Text} (hls : ∀ l ∈ ls, '\n' ∉ l) (s : Text) :
    compatGetline (unlines ls ++ s) = ls.map (· ++ ['\n']) ++ compatGetline s := by
  induction ls with
  | nil => rfl
  | cons l ls ih =>
    obtain ⟨hl, hls⟩ := List.forall_mem_cons.mp hls
    have happend : unlines (l :: ls) ++ s = l ++ '\n' :: (unlines ls ++ s) := by simp [unlines]
    rw [happend, compatGetline_append hl, ih hls]
    rfl

theorem compatGetline_unlines_self {ls : List Text} (hls : ∀ l ∈ ls, '\n' ∉ l) :
    compatGetline (unlines ls) = ls.map (· ++ ['\n']) := by
  have hget := compatGetline_unlines hls []
  have hnil : compatGetline [] = [] := rfl
  rwa [List.append_nil, hnil, List.append_nil] at hget

/-- Lines as `conf_write` makes them, for the symbols of a table. A title does not look like the line
of a symbol that is not set. -/
def Line.Ok (types : Text → Option SymType) : Line → Prop
  | blank => True
  | comment t => '\n' ∉ t ∧ unsetName (t ++ ['\n']) = none
  | option n v => types n.text = some v.type ∧ Admitted v ∧ OneLine v

def Line.assigns : Line → Option (Text × SymValue)
  | option n v => some (n.text, v)
  | _ => none

/-- The values that the lines give to a name, in their order. -/
def assignments (lines : List Line) (k : Text) : List SymValue :=
  lines.filterMap fun l => l.assigns.bind fun a => if a.1 = k then some a.2 else none

theorem not_mem_optionText {n : Name} {v : SymValue} (hline : OneLine v) :
    '\n' ∉ optionText n v := by
  have hname := n.not_mem (c := '\n') rfl
  unfold optionText
  split
  · simp [hname]
  · simpa using ⟨hname, hline⟩

theorem Line.not_mem_text {types : Text → Option SymType} {l : Line} (hl : l.Ok types) :
    '\n' ∉ l.text := by
  rcases l with _ | t | ⟨n, v⟩
  · exact List.not_mem_nil
  · cases t with
    | nil => decide
    | cons c t => simpa [Line.text] using hl.1
  · exact not_mem_optionText hl.2.2

theorem not_mem_of_mem_texts {types : Text → Option SymType} {lines : List Line}
    (hlines : ∀ l ∈ lines, l.Ok types) : ∀ t ∈ lines.map Line.text, '\n' ∉ t := by
  rintro t ht
  obtain ⟨l, hl, rfl⟩ := List.mem_map.mp ht
  exact Line.not_mem_text (hlines l hl)

theorem optionText_ne_nil (n : Name) (v : SymValue) : optionText n v ≠ [] := by
  unfold optionText
  split
  · simp
  · simp

theorem confReadLine_text {types : Text → Option SymType} {l : Line} (hl : l.Ok types) :
    confReadLine types (l.text ++ ['\n']) =
      l.assigns.bind fun a => (readValue a.2).map fun d => (a.1, d) := by
  rcases l with _ | t | ⟨n, v⟩
  · rfl
  · cases t with
    | nil => rfl
    | cons c t =>
      have hdrop : ("# ".toList ++ (c :: t) ++ ['\n']).drop 2 = (c :: t) ++ ['\n'] := rfl
      have hhead : ("# ".toList ++ (c :: t) ++ ['\n']).head? = some '#' := rfl
      simp only [Line.text, confReadLine, hhead, hdrop, hl.2, if_true]
      rfl
  · exact confReadLine_option hl.1 hl.2.1 hl.2.2

/-- The effects of lines that `conf_write` makes. -/
theorem writes_confReadLine {types : Text → Option SymType} {lines : List Line}
    (hlines : ∀ l ∈ lines, l.Ok types) (k : Text) :
    LastWins.writes (((lines.map Line.text).map (· ++ ['\n'])).map fun line =>
      (confReadLine types line).map fun r => (r.1, some r.2)) k =
      ((assignments lines k).filterMap readValue).map some := by
  induction lines with
  | nil => rfl
  | cons l ls ih =>
    obtain ⟨hl, hls⟩ := List.forall_mem_cons.mp hlines
    have ih := ih hls
    simp only [assignments] at ih ⊢
    simp only [List.map_cons, confReadLine_text hl, List.filterMap_cons]
    rcases hassigns : l.assigns with _ | ⟨n, v⟩
    · exact ih
    · cases hread : readValue v with
      | none => by_cases hk : n = k <;> simpa [hread, hk] using ih
      | some d =>
        by_cases hk : n = k
        · simpa [hread, hk] using ih
        · simpa [hread, hk, LastWins.writes_cons_of_ne _ hk] using ih

/-- The last value that was accepted. -/
theorem confReadSimple_confText {types : Text → Option SymType} {lines : List Line}
    (hlines : ∀ l ∈ lines, l.Ok types) (k : Text) :
    confReadSimple types (confText lines) k =
      ((assignments lines k).filterMap readValue).getLast? := by
  rw [confReadSimple, confText, compatGetline_unlines_self (not_mem_of_mem_texts hlines),
    LastWins.foldl_write, writes_confReadLine hlines, List.getLast?_map]
  cases ((assignments lines k).filterMap readValue).getLast? with
  | none => rfl
  | some d => rfl

/-- A configuration file for the symbols of a table, with later assignments. -/
structure ConfigFile (types : Text → Option SymType) where
  lines : List Line
  ok : ∀ l ∈ lines, l.Ok types

def ConfigFile.text {types : Text → Option SymType} (p : ConfigFile types) : Text :=
  confText p.lines

/-! ### What a file can say -/

variable {types : Text → Option SymType}

/-- What a file can say about a symbol of a type. -/
def OfType (type : SymType) : Def → Prop
  | .tri _ => type = .boolean ∨ type = .tristate
  | .val _ => type = .int ∨ type = .hex ∨ type = .string

theorem ofType_of_confSetSymVal {type : SymType} {p : Text} {d : Def}
    (h : confSetSymVal type p = some d) : OfType type d := by
  cases type with
  | boolean =>
    simp only [confSetSymVal] at h
    split at h <;> cases h <;> exact .inl rfl
  | tristate =>
    simp only [confSetSymVal] at h
    split at h <;> cases h <;> exact .inr rfl
  | string =>
    simp only [confSetSymVal] at h
    split at h
    · obtain ⟨s, -, rfl⟩ := Option.map_eq_some_iff.mp h
      exact .inr (.inr rfl)
    · cases h
  | int =>
    simp only [confSetSymVal] at h
    split at h
    · cases h
      exact .inl rfl
    · cases h
  | hex =>
    simp only [confSetSymVal] at h
    split at h
    · cases h
      exact .inr (.inl rfl)
    · cases h

theorem ofType_of_confReadLine {line k : Text} {d : Def}
    (h : confReadLine types line = some (k, d)) : ∃ type, types k = some type ∧ OfType type d := by
  unfold confReadLine at h
  split at h
  · obtain ⟨name, -, h⟩ := Option.bind_eq_some_iff.mp h
    split at h
    · rename_i htype
      cases h
      exact ⟨_, htype, .inl rfl⟩
    · rename_i htype
      cases h
      exact ⟨_, htype, .inr rfl⟩
    · cases h
  · obtain ⟨⟨name, p⟩, -, h⟩ := Option.bind_eq_some_iff.mp h
    obtain ⟨type, htype, h⟩ := Option.bind_eq_some_iff.mp h
    obtain ⟨e, he, hd⟩ := Option.map_eq_some_iff.mp h
    cases hd
    exact ⟨type, htype, ofType_of_confSetSymVal he⟩

theorem ofType_of_confReadSimple {file k : Text} {d : Def} {type : SymType}
    (htype : types k = some type) (h : confReadSimple types file k = some d) : OfType type d := by
  obtain ⟨l, -, hl⟩ := List.mem_map.mp (LastWins.mem_of_foldl_write h)
  obtain ⟨⟨k', d'⟩, hread, hr⟩ := Option.map_eq_some_iff.mp hl
  cases hr
  obtain ⟨type', htype', hd⟩ := ofType_of_confReadLine hread
  rw [htype] at htype'
  cases htype'
  exact hd

end Dir842.Kconfig
