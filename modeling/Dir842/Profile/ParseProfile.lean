import Dir842.Kconfig.Config
import Dir842.Lib.Scan
import Dir842.Lua.ToNumber

/-!
# Profiles as the fixup tool reads them (`parse_profile` in `fixup-profiles.lua`)

A profile is a configuration file of Kconfig. The fixup tool takes it apart with Lua patterns.
-/

namespace Dir842.Profile

open Kconfig

/-- A value of the table that `parse_profile` returns. -/
inductive Value
  | bool (b : Bool)
  | int (i : Int)
  | str (s : Text)
deriving DecidableEq

/-! ### The patterns -/

/-- `[^\n]+` -/
def gmatchLines (profile : Text) : List Text := (profile.splitOn '\n').filter (· ≠ [])

/-- `[%w_]` -/
def keyChar (c : Char) : Bool := c.isAlphanum || c = '_'

/-- `^([%w_]+)=(.*)$` -/
def matchAssign (line : Text) : Option (Text × Text) :=
  let (key, rest) := line.span keyChar
  match rest with
  | '=' :: value => if key = [] then none else some (key, value)
  | _ => none

/-- `^# ([%w_]+) is not set$` -/
def matchUnset (line : Text) : Option Text :=
  match line with
  | '#' :: ' ' :: line =>
    let (key, rest) := line.span keyChar
    if key ≠ [] ∧ rest = " is not set".toList then some key else none
  | _ => none

/-- `^"([^"]+)` -/
def matchQuoted (value : Text) : Option Text :=
  match value with
  | '"' :: s =>
    let s := s.takeWhile (· ≠ '"')
    if s = [] then none else some s
  | _ => none

/-! ### The table -/

/-- What is stored under the key of an assignment; `none` takes the key out of the table. -/
def parseValue (value : Text) : Option Value :=
  if value = "y".toList then some (.bool true)
  else
    match Lua.toNumber value with
    | some n => (Lua.toInteger n).map .int
    | none => (matchQuoted value).map .str

def parseLine (line : Text) : Option (Text × Option Value) :=
  match matchAssign line with
  | some (key, value) => some (key, parseValue value)
  | none => (matchUnset line).map fun key => (key, some (.bool false))

def parseProfile (profile : Text) : Text → Option Value :=
  ((gmatchLines profile).map parseLine).foldl LastWins.write fun _ => none

/-! ### Lines -/

theorem gmatchLines_unlines {ls : List Text} (hls : ∀ l ∈ ls, '\n' ∉ l) (s : Text) :
    gmatchLines (unlines ls ++ s) = ls.filter (· ≠ []) ++ gmatchLines s := by
  induction ls with
  | nil => rfl
  | cons l ls ih =>
    obtain ⟨hl, hls⟩ := List.forall_mem_cons.mp hls
    have happend : unlines (l :: ls) ++ s = l ++ '\n' :: (unlines ls ++ s) := by simp [unlines]
    have ih := ih hls
    unfold gmatchLines at ih ⊢
    rw [happend, List.splitOn_append_cons_self, List.splitOn_eq_singleton hl, List.filter_append, ih]
    simp [List.filter_cons]
    split <;> simp

theorem gmatchLines_unlines_self {ls : List Text} (hls : ∀ l ∈ ls, '\n' ∉ l) :
    gmatchLines (unlines ls) = ls.filter (· ≠ []) := by
  have hget := gmatchLines_unlines hls []
  have hnil : gmatchLines [] = [] := rfl
  rwa [List.append_nil, hnil, List.append_nil] at hget

/-- The names that the patterns know. -/
def KeyName (k : Text) : Prop := ∀ c ∈ k, keyChar c = true

instance (k : Text) : Decidable (KeyName k) := decidable_of_iff (k.all keyChar = true) List.all_eq_true

theorem matchAssign_key {k : Text} (hk : KeyName k) (hne : k ≠ []) (value : Text) :
    matchAssign (k ++ '=' :: value) = some (k, value) := by
  have hstop : ∀ c ∈ ('=' :: value).head?, keyChar c = false := by
    rintro c hc
    cases hc
    rfl
  simp only [matchAssign, Scan.span_append hk hstop, if_neg hne]

theorem matchUnset_key {k : Text} (hk : KeyName k) (hne : k ≠ []) :
    matchUnset ("# ".toList ++ k ++ " is not set".toList) = some k := by
  have hstop : ∀ c ∈ " is not set".toList.head?, keyChar c = false := by
    rintro c hc
    cases hc
    rfl
  have hspan := Scan.span_append hk hstop
  have hline : "# ".toList ++ k ++ " is not set".toList =
      '#' :: ' ' :: (k ++ " is not set".toList) := rfl
  simp only [hline, matchUnset, hspan, hne, ne_eq, not_false_eq_true, true_and, if_true]

/-- A name that the patterns do not know stops them before its end. -/
theorem exists_stop {n : Name} (hn : ¬ KeyName n.text) :
    ∃ k c t, n.text = k ++ c :: t ∧ KeyName k ∧ keyChar c = false ∧ c ≠ '=' ∧ c ≠ ' ' := by
  obtain ⟨k, c, t, htext, hk, hc⟩ := Scan.exists_first hn
  have hmem : c ∈ n.text := by simp [htext]
  refine ⟨k, c, t, htext, hk, hc, ?_, ?_⟩
  · rintro rfl
    exact n.not_mem rfl hmem
  · rintro rfl
    exact n.not_mem rfl hmem

theorem matchAssign_not_key {n : Name} (hn : ¬ KeyName n.text) (value : Text) :
    matchAssign (n.text ++ '=' :: value) = none := by
  obtain ⟨k, c, t, htext, hk, hc, heq, -⟩ := exists_stop hn
  have hstop : ∀ d ∈ (c :: (t ++ '=' :: value)).head?, keyChar d = false := by
    rintro d hd
    cases hd
    exact hc
  have happend : n.text ++ '=' :: value = k ++ c :: (t ++ '=' :: value) := by simp [htext]
  rw [matchAssign, happend, Scan.span_append hk hstop]
  simp [heq]

theorem matchUnset_not_key {n : Name} (hn : ¬ KeyName n.text) :
    matchUnset ("# ".toList ++ n.text ++ " is not set".toList) = none := by
  obtain ⟨k, c, t, htext, hk, hc, -, hspace⟩ := exists_stop hn
  have hstop : ∀ d ∈ (c :: (t ++ " is not set".toList)).head?, keyChar d = false := by
    rintro d hd
    cases hd
    exact hc
  have hline : "# ".toList ++ n.text ++ " is not set".toList =
      '#' :: ' ' :: (k ++ c :: (t ++ " is not set".toList)) := by simp [htext]
  simp only [hline, matchUnset, Scan.span_append hk hstop]
  rw [if_neg]
  rintro ⟨-, h⟩
  exact hspace (List.cons.inj h).1

theorem matchAssign_hash (s : Text) : matchAssign ('#' :: s) = none := by
  have hstop : ∀ d ∈ ('#' :: s).head?, keyChar d = false := by
    rintro d hd
    cases hd
    rfl
  have hspan := Scan.span_append (k := []) (by simp) hstop
  rw [List.nil_append] at hspan
  rw [matchAssign, hspan]
  rfl

theorem matchUnset_of_head {s : Text} (hs : s.head? ≠ some '#') : matchUnset s = none := by
  unfold matchUnset
  split
  · exact absurd rfl hs
  · rfl

/-! ### The line of an option -/

/-- What `parse_profile` stores for the line of an option. -/
def readBack (v : SymValue) : Option Value :=
  if (v.type = .boolean ∨ v.type = .tristate) ∧ (symGetStringValue v).head? = some 'n' then
    some (.bool false)
  else parseValue (printedValue v)

theorem parseLine_assign (n : Name) (value : Text) :
    parseLine (n.text ++ '=' :: value) =
      if KeyName n.text then some (n.text, parseValue value) else none := by
  have hhead : (n.text ++ '=' :: value).head? ≠ some '#' := by
    rw [List.head?_append_of_ne_nil _ n.ne_nil]
    exact head?_nameText n
  unfold parseLine
  by_cases hn : KeyName n.text
  · rw [matchAssign_key hn n.ne_nil, if_pos hn]
  · rw [matchAssign_not_key hn, if_neg hn, matchUnset_of_head hhead]
    rfl

theorem parseLine_unset (n : Name) :
    parseLine ("# ".toList ++ n.text ++ " is not set".toList) =
      if KeyName n.text then some (n.text, some (.bool false)) else none := by
  have hassign : matchAssign ("# ".toList ++ n.text ++ " is not set".toList) = none :=
    matchAssign_hash (' ' :: n.text ++ " is not set".toList)
  unfold parseLine
  rw [hassign]
  by_cases hn : KeyName n.text
  · rw [matchUnset_key hn n.ne_nil, if_pos hn]
    rfl
  · rw [matchUnset_not_key hn, if_neg hn]
    rfl

theorem parseLine_option (n : Name) (v : SymValue) :
    parseLine (optionText n v) =
      if KeyName n.text then some (n.text, readBack v) else none := by
  unfold optionText readBack
  split
  · exact parseLine_unset n
  · exact parseLine_assign n (printedValue v)

theorem unsetName_of_matchUnset {t k : Text} (h : matchUnset ("# ".toList ++ t) = some k) :
    unsetName (t ++ ['\n']) = some k := by
  have hline : "# ".toList ++ t = '#' :: ' ' :: t := rfl
  simp only [hline, matchUnset, List.span_eq_takeWhile_dropWhile] at h
  split at h
  · rename_i hkey
    obtain rfl : t.takeWhile keyChar = k := by simpa using h
    have ht : t = t.takeWhile keyChar ++ " is not set".toList := by
      conv_lhs => rw [← List.takeWhile_append_dropWhile (p := keyChar) (l := t), hkey.2]
    have hspace : ' ' ∉ t.takeWhile keyChar := fun hmem =>
      absurd (List.mem_takeWhile_imp hmem) (by decide)
    conv_lhs => rw [ht]
    exact unsetName_append hspace ['\n']
  · cases h

/-- What the fixup tool makes of a line of a configuration file. -/
theorem parseLine_text {types : Text → Option SymType} {l : Line} (hl : l.Ok types)
    (hne : l.text ≠ []) :
    parseLine l.text = l.assigns.bind fun a =>
      if KeyName a.1 then some (a.1, readBack a.2) else none := by
  rcases l with _ | t | ⟨n, v⟩
  · exact absurd rfl hne
  · cases t with
    | nil => rfl
    | cons c t =>
      have hunset : matchUnset ("# ".toList ++ c :: t) = none := by
        rcases hmatch : matchUnset ("# ".toList ++ c :: t) with _ | k
        · rfl
        · exact absurd ((unsetName_of_matchUnset hmatch).symm.trans hl.2) (by simp)
      have hassign : matchAssign ("# ".toList ++ c :: t) = none := matchAssign_hash (' ' :: c :: t)
      simp only [Line.text, parseLine, hassign, hunset]
      rfl
  · exact parseLine_option n v

/-- The effects of lines that `conf_write` makes. -/
theorem writes_parseLine {types : Text → Option SymType} {lines : List Line}
    (hlines : ∀ l ∈ lines, l.Ok types) (k : Text) :
    LastWins.writes (((lines.map Line.text).filter (· ≠ [])).map parseLine) k =
      if KeyName k then (assignments lines k).map readBack else [] := by
  induction lines with
  | nil => simp [assignments]
  | cons l ls ih =>
    obtain ⟨hl, hls⟩ := List.forall_mem_cons.mp hlines
    have ih := ih hls
    by_cases hne : l.text = []
    · have hassigns : l.assigns = none := by
        rcases l with _ | t | ⟨n, v⟩
        · rfl
        · rfl
        · exact absurd hne (optionText_ne_nil n v)
      simpa [hne, assignments, hassigns] using ih
    · simp only [assignments] at ih ⊢
      simp only [List.map_cons, List.filter_cons, ne_eq, hne, not_false_eq_true, decide_true,
        if_true, parseLine_text hl hne, List.filterMap_cons]
      rcases hassigns : l.assigns with _ | ⟨n, v⟩
      · exact ih
      · by_cases hkey : KeyName n
        · by_cases hk : n = k
          · subst hk
            simpa [hkey] using ih
          · simpa [hkey, hk, LastWins.writes_cons_of_ne _ hk] using ih
        · by_cases hk : n = k
          · subst hk
            simpa [hkey] using ih
          · simpa [hkey, hk] using ih

/-- The last value of a name that the patterns know. -/
theorem parseProfile_confText {types : Text → Option SymType} {lines : List Line}
    (hlines : ∀ l ∈ lines, l.Ok types) (k : Text) :
    parseProfile (confText lines) k =
      if KeyName k then (assignments lines k).getLast?.bind readBack else none := by
  rw [parseProfile, confText, gmatchLines_unlines_self (not_mem_of_mem_texts hlines),
    LastWins.foldl_write, writes_parseLine hlines]
  split
  · rw [List.getLast?_map]
    cases (assignments lines k).getLast? with
    | none => rfl
    | some v => rfl
  · rfl

/-! ### Values -/

/-- The fixup tool has the value that Kconfig has. -/
def Same (type : SymType) : Option Def → Option Value → Prop
  | none, none => True
  | some (.tri t), some (.bool b) => t = if b then .yes else .no
  | some (.val t), some (.int i) => (type = .int ∨ type = .hex) ∧ symNumber type t = i
  | some (.val t), some (.str s) => type = .string ∧ t = s
  | _, _ => False

/-- Values that the patterns and `tonumber` read as Kconfig does. -/
def Readable : SymValue → Prop
  | .boolean _ => True
  | .tristate t => t ≠ .mod
  | .int l => ∀ l' ∈ l, Lua.inInt64 l'.val
  | .hex l => ∀ l' ∈ l, l'.val < if l'.pre = .none then 10 else 2 ^ 63
  | .string s => s ≠ [] ∧ '"' ∉ s ∧ '\\' ∉ s

theorem parseValue_number {value : Text} {n : Lua.Number} (hy : value ≠ "y".toList)
    (hn : Lua.toNumber value = some n) : parseValue value = (Lua.toInteger n).map .int := by
  rw [parseValue, if_neg hy, hn]

theorem same_int_iff {type : SymType} (htype : type = .int ∨ type = .hex) (t : Text) (r : Option Int) :
    Same type (some (.val t)) (r.map .int) ↔ r = some (symNumber type t) := by
  cases r with
  | none => simp [Same]
  | some i => simp [Same, htype, eq_comm]

theorem same_int (l : IntLit) :
    Same .int (some (.val l.text)) (parseValue l.text) ↔ Lua.inInt64 l.val := by
  have hy : l.text ≠ "y".toList := fun h =>
    l.not_mem_text (c := 'y') (by decide) (by decide) (by simp [h])
  obtain ⟨n, hn, hread, hrange⟩ := Lua.toNumber_decimal l.neg l.isDigit_of_mem l.ne_nil
  rw [parseValue_number hy hn, same_int_iff (.inl rfl), symNumber_int]
  exact ⟨fun h => hrange _ h, fun h => hread h⟩

theorem matchQuoted_of_head {s : Text} (hs : s.head? ≠ some '"') : matchQuoted s = none := by
  unfold matchQuoted
  split
  · exact absurd rfl hs
  · rfl

theorem parseValue_unquoted {value : Text} (hy : value ≠ "y".toList)
    (hquote : value.head? ≠ some '"') :
    parseValue value = ((Lua.toNumber value).bind Lua.toInteger).map .int := by
  cases hn : Lua.toNumber value with
  | none => rw [parseValue, if_neg hy, hn, matchQuoted_of_head hquote]; rfl
  | some n => exact parseValue_number hy hn

theorem same_hex (l : HexLit) :
    Same .hex (some (.val l.text)) (parseValue l.text) ↔
      l.val < if l.pre = .none then 10 else 2 ^ 63 := by
  have hy : l.text ≠ "y".toList := fun h =>
    l.not_mem_text (c := 'y') (by decide) (by decide) (by simp [h])
  have hquote : l.text.head? ≠ some '"' := fun h =>
    l.not_mem_text (c := '"') (by decide) (by decide) (List.mem_of_mem_head? h)
  rw [parseValue_unquoted hy hquote, same_int_iff (.inr rfl), symNumber_hex]
  obtain ⟨pre, ds, hne, hds⟩ := l
  have hprefix : ∀ x, x = 'x' ∨ x = 'X' → ((Lua.toNumber ('0' :: x :: ds)).bind Lua.toInteger =
      some ((ofXDigits ds : Nat) : Int) ↔ ofXDigits ds < 2 ^ 63) := by
    intro x hx
    rw [Lua.toNumber_hex hx hds hne, ← Lua.bmod_eq_self_iff]
    exact Option.some_inj
  cases pre with
  | none => exact Lua.toInteger_unprefixed_iff hds hne
  | lower => exact hprefix 'x' (.inl rfl)
  | upper => exact hprefix 'X' (.inr rfl)

theorem toNumber_quoted (s : Text) : Lua.toNumber ('"' :: s ++ ['"']) = none := by
  have hquote : ∀ c : Char, c = '"' → Words.isSpace c = false := by
    rintro c rfl
    rfl
  have htrim : Lua.trim ('"' :: s ++ ['"']) = '"' :: s ++ ['"'] :=
    Lua.trim_eq_self (fun c hc => hquote c (by simpa using hc.symm))
      fun c hc => hquote c (by rw [List.getLast?_concat] at hc; simpa using hc.symm)
  have hsign : Words.splitSign ('"' :: s ++ ['"']) = (false, '"' :: s ++ ['"']) := rfl
  rw [Lua.toNumber_of_sign htrim hsign fun u => ⟨by simp, by simp⟩, if_neg (by simp)]
  refine Lua.numeral_none false fun c hc => ?_
  obtain rfl : '"' = c := by simpa using hc
  exact ⟨rfl, by decide⟩

theorem parseValue_quoted (s : Text) :
    parseValue ('"' :: s ++ ['"']) = (matchQuoted ('"' :: s ++ ['"'])).map .str := by
  rw [parseValue, if_neg (by simp), toNumber_quoted]

/-- The pattern stops at the first quote. -/
theorem takeWhile_quote {s : Text} (hs : '"' ∉ s) (t : Text) :
    (s ++ '"' :: t).takeWhile (· ≠ '"') = s := by
  have hall : ∀ c ∈ s, decide (c ≠ '"') = true := fun c hc =>
    decide_eq_true fun h => hs (h ▸ hc)
  rw [List.takeWhile_append_of_pos hall]
  simp

theorem matchQuoted_eq_some {s t : Text} :
    matchQuoted ('"' :: s) = some t ↔ s.takeWhile (· ≠ '"') = t ∧ t ≠ [] := by
  simp only [matchQuoted]
  split
  · rename_i h
    exact iff_of_false (by simp) fun ht => ht.2 (ht.1.symm.trans h)
  · rename_i h
    rw [Option.some_inj]
    exact ⟨fun ht => ⟨ht, ht ▸ h⟩, fun ht => ht.1⟩

theorem same_string_iff (t : Text) (r : Option Text) :
    Same .string (some (.val t)) (r.map .str) ↔ r = some t := by
  cases r with
  | none => simp [Same]
  | some s => simp [Same, eq_comm]

theorem same_string (s : Text) :
    Same .string (some (.val s)) (parseValue (symEscapeStringValue s)) ↔
      s ≠ [] ∧ '"' ∉ s ∧ '\\' ∉ s := by
  rw [symEscapeStringValue, parseValue_quoted, same_string_iff, List.cons_append,
    matchQuoted_eq_some]
  constructor
  · rintro ⟨htake, hne⟩
    have hquote : '"' ∉ s := by
      intro hmem
      rw [← htake] at hmem
      simpa using List.mem_takeWhile_imp hmem
    have hself : escapeBody s = s := by
      rw [takeWhile_quote (not_mem_escapeBody hquote)] at htake
      exact htake
    refine ⟨hne, hquote, fun hmem => ?_⟩
    exact absurd (escapeBody_eq_self_iff.mp hself _ hmem) (by decide)
  · rintro ⟨hne, hquote, hslash⟩
    rw [escapeBody_of_not_mem hquote hslash]
    exact ⟨takeWhile_quote hquote [], hne⟩

theorem same_iff_readable (v : SymValue) :
    Same v.type (readValue v) (readBack v) ↔ Readable v := by
  rcases v with b | t | (_ | l) | (_ | l) | s
  · cases b
    · exact iff_of_true rfl trivial
    · exact iff_of_true rfl trivial
  · cases t
    · exact iff_of_true rfl (by simp [Readable])
    · exact iff_of_false id fun h => h rfl
    · exact iff_of_true rfl (by simp [Readable])
  · exact iff_of_true trivial (by simp [Readable])
  · exact (same_int l).trans (by simp [Readable])
  · exact iff_of_true trivial (by simp [Readable])
  · exact (same_hex l).trans (by simp [Readable])
  · exact same_string s

/-! ### What the table can hold -/

theorem matchAssign_eq_some {l k value : Text} (h : matchAssign l = some (k, value)) :
    l = k ++ '=' :: value ∧ KeyName k ∧ k ≠ [] := by
  simp only [matchAssign, List.span_eq_takeWhile_dropWhile] at h
  split at h
  · rename_i rest hrest
    split at h
    · cases h
    · rename_i hne
      cases h
      have hkey : KeyName (l.takeWhile keyChar) := fun c hc => List.mem_takeWhile_imp hc
      refine ⟨?_, hkey, hne⟩
      conv_lhs => rw [← List.takeWhile_append_dropWhile (p := keyChar) (l := l), hrest]
  · cases h

theorem matchUnset_eq_some {l k : Text} (h : matchUnset l = some k) :
    l = "# ".toList ++ k ++ " is not set".toList ∧ KeyName k := by
  unfold matchUnset at h
  split at h
  · rename_i s
    simp only [List.span_eq_takeWhile_dropWhile] at h
    split at h
    · rename_i hkey
      cases h
      have htake : KeyName (s.takeWhile keyChar) := fun c hc => List.mem_takeWhile_imp hc
      refine ⟨?_, htake⟩
      conv_lhs => rw [← List.takeWhile_append_dropWhile (p := keyChar) (l := s), hkey.2]
      simp
    · cases h
  · cases h

theorem exists_parseLine {profile k : Text} {v : Value} (h : parseProfile profile k = some v) :
    ∃ l, '\n' ∉ l ∧ parseLine l = some (k, some v) := by
  obtain ⟨l, hl, hparse⟩ := List.mem_map.mp (LastWins.mem_of_foldl_write h)
  exact ⟨l, Scan.not_mem_of_mem_splitOn (List.mem_of_mem_filter hl), hparse⟩

theorem parseLine_eq_some {l k : Text} {r : Option Value} (h : parseLine l = some (k, r)) :
    (∃ value, matchAssign l = some (k, value) ∧ r = parseValue value) ∨
      (matchUnset l = some k ∧ r = some (.bool false)) := by
  unfold parseLine at h
  split at h
  · rename_i hassign
    cases h
    exact .inl ⟨_, hassign, rfl⟩
  · obtain ⟨k', hunset, hk⟩ := Option.map_eq_some_iff.mp h
    cases hk
    exact .inr ⟨hunset, rfl⟩

theorem keyName_of_parseProfile {profile k : Text} {v : Value}
    (h : parseProfile profile k = some v) : KeyName k := by
  obtain ⟨l, -, hparse⟩ := exists_parseLine h
  rcases parseLine_eq_some hparse with ⟨value, hassign, -⟩ | ⟨hunset, -⟩
  · exact (matchAssign_eq_some hassign).2.1
  · exact (matchUnset_eq_some hunset).2

theorem parseValue_eq_str {value s : Text} (h : parseValue value = some (.str s)) :
    matchQuoted value = some s := by
  unfold parseValue at h
  split at h
  · cases h
  · split at h
    · obtain ⟨i, -, hi⟩ := Option.map_eq_some_iff.mp h
      cases hi
    · obtain ⟨t, ht, hs⟩ := Option.map_eq_some_iff.mp h
      cases hs
      exact ht

theorem mem_of_matchQuoted {value s : Text} (h : matchQuoted value = some s) :
    ∀ c ∈ s, c ∈ value := by
  unfold matchQuoted at h
  split at h
  · simp only at h
    split at h
    · cases h
    · cases h
      exact fun c hc => List.mem_cons_of_mem _ ((List.takeWhile_sublist _).mem hc)
  · cases h

/-- The text of a value is on one line. -/
def Value.OneLine : Value → Prop
  | .str s => '\n' ∉ s
  | _ => True

theorem oneLine_of_parseProfile {profile k : Text} {v : Value}
    (h : parseProfile profile k = some v) : v.OneLine := by
  obtain ⟨l, hl, hparse⟩ := exists_parseLine h
  cases v with
  | bool b => trivial
  | int i => trivial
  | str s =>
    rcases parseLine_eq_some hparse with ⟨value, hassign, hvalue⟩ | ⟨-, hfalse⟩
    · obtain ⟨rfl, -⟩ := matchAssign_eq_some hassign
      exact fun hs => hl (by simp [mem_of_matchQuoted (parseValue_eq_str hvalue.symm) _ hs])
    · cases hfalse

/-- Strings that the pattern takes out are not empty and hold no quotes. -/
theorem quoted_of_parseProfile {profile k s : Text}
    (h : parseProfile profile k = some (.str s)) : s ≠ [] ∧ '"' ∉ s := by
  obtain ⟨l, -, hparse⟩ := exists_parseLine h
  rcases parseLine_eq_some hparse with ⟨value, -, hvalue⟩ | ⟨-, hfalse⟩
  · have hmatch := parseValue_eq_str hvalue.symm
    cases value with
    | nil => cases hmatch
    | cons c q =>
      by_cases hc : c = '"'
      · subst hc
        obtain ⟨htake, hne⟩ := matchQuoted_eq_some.mp hmatch
        refine ⟨hne, fun hmem => ?_⟩
        rw [← htake] at hmem
        simpa using List.mem_takeWhile_imp hmem
      · rw [matchQuoted_of_head (by simpa using hc)] at hmatch
        cases hmatch
  · cases hfalse

theorem type_of_same_bool {type : SymType} {d : Option Def} (hd : ∀ e ∈ d, OfType type e) {b : Bool}
    (h : Same type d (some (.bool b))) : type = .boolean ∨ type = .tristate := by
  rcases d with _ | (t | t)
  · exact absurd h id
  · exact hd _ rfl
  · exact absurd h id

theorem type_of_same_int {type : SymType} {d : Option Def} {i : Int}
    (h : Same type d (some (.int i))) : type = .int ∨ type = .hex := by
  rcases d with _ | (t | t)
  · exact absurd h id
  · exact absurd h id
  · exact h.1

theorem type_of_same_str {type : SymType} {d : Option Def} {s : Text}
    (h : Same type d (some (.str s))) : type = .string := by
  rcases d with _ | (t | t)
  · exact absurd h id
  · exact absurd h id
  · exact h.1

theorem eq_false_of_same {type : SymType} {v : Value} (h : Same type (some (.tri .no)) (some v)) :
    v = .bool false := by
  rcases v with (_ | _) | i | s
  · rfl
  · cases h
  · exact absurd h id
  · exact absurd h id

/-! ### Whole profiles -/

/-- The values of `int` and `hex` symbols that have none. -/
def Unset (v : SymValue) : Prop := v = .int none ∨ v = .hex none

/-- The last value is one that both read alike, and nothing has to be kept from before it. -/
def Kept (vs : List SymValue) : Prop :=
  ∀ v ∈ vs.getLast?, Readable v ∧ (Unset v → ∀ u ∈ vs, Unset u)

theorem readValue_eq_none {v : SymValue} : readValue v = none ↔ Unset v := by
  rcases v with b | t | (_ | l) | (_ | l) | s <;> simp [readValue, Unset]

theorem readBack_of_unset {v : SymValue} (hv : Unset v) : readBack v = none := by
  rcases hv with rfl | rfl
  · rfl
  · rfl

theorem same_none {type : SymType} (d : Option Def) : Same type d none ↔ d = none := by
  rcases d with _ | (t | t)
  · simp [Same]
  · simp [Same]
  · simp [Same]

theorem same_iff_kept {type : SymType} {vs : List SymValue} (hvs : ∀ v ∈ vs, v.type = type) :
    Same type (vs.filterMap readValue).getLast? (vs.getLast?.bind readBack) ↔ Kept vs := by
  induction vs using List.reverseRecOn with
  | nil => exact iff_of_true trivial fun v hv => by cases hv
  | append_singleton vs v _ =>
    have htype : v.type = type := hvs v (by simp)
    have hkept : Kept (vs ++ [v]) ↔ Readable v ∧ (Unset v → ∀ u ∈ vs ++ [v], Unset u) := by
      simp [Kept]
    rw [hkept, List.getLast?_concat, Option.bind_some, List.filterMap_append]
    cases hread : readValue v with
    | some d =>
      have hset : ¬ Unset v := fun h => by simp [readValue_eq_none.mpr h] at hread
      have hsame := same_iff_readable v
      rw [hread, htype] at hsame
      simpa [hread, hset] using hsame
    | none =>
      have hunset := readValue_eq_none.mp hread
      have hreadable : Readable v := by
        rcases hunset with rfl | rfl
        · simp [Readable]
        · simp [Readable]
      rw [readBack_of_unset hunset, same_none]
      simp only [List.filterMap_cons, hread, List.filterMap_nil, List.append_nil,
        List.getLast?_eq_none_iff, List.filterMap_eq_nil_iff, readValue_eq_none, hreadable,
        true_and, List.mem_append, List.mem_singleton]
      constructor
      · rintro h - u (hu | rfl)
        · exact h u hu
        · exact hunset
      · exact fun h u hu => h hunset u (.inl hu)

theorem type_of_mem_assignments {types : Text → Option SymType} {lines : List Line}
    (hlines : ∀ l ∈ lines, l.Ok types) {k : Text} {v : SymValue} (hv : v ∈ assignments lines k) :
    types k = some v.type := by
  obtain ⟨l, hl, hassigns⟩ := List.mem_filterMap.mp hv
  rcases l with _ | t | ⟨n, w⟩
  · cases hassigns
  · cases hassigns
  · simp only [Line.assigns, Option.bind_some] at hassigns
    split at hassigns
    · rename_i hn
      cases hassigns
      exact hn ▸ (hlines _ hl).1
    · cases hassigns

def vendorName : Name := ⟨"BR2_VENDOR".toList, by decide, List.all_eq_true.mp rfl⟩

/-- A string with a quote in it, which the pattern takes for the end. -/
def quotedFile : ConfigFile fun _ => some .string where
  lines := [.option vendorName (.string "a\"b".toList)]
  ok := by
    rintro l hl
    obtain rfl := List.mem_singleton.mp hl
    exact ⟨rfl, trivial, show '\n' ∉ printedValue (.string _) by decide⟩

end Dir842.Profile
