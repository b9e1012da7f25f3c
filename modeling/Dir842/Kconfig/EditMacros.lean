import Dir842.Kconfig.Config
import Dir842.Lib.Match
import Dir842.Lib.Run
import Mathlib.Data.List.Nodup

/-!
# The `KCONFIG_*` macros (`Makefile.package.in`)

The macros edit a configuration file with `sed`, `grep` and `echo`. A file is its lines; what it
denotes is what `conf_read_simple` makes of it.
-/

namespace Dir842.Kconfig
open Match Run

/-- The lines without their line ends. -/
abbrev File := List Text

def readFile (types : Text → Option SymType) (f : File) : Defs := confReadSimple types (unlines f)

/-- A word for `grep -w` and for `\<` and `\>`. -/
def wordChar (c : Char) : Bool := c.isAlphanum || c = '_'

/-! ### Quoting -/

/-- What an argument stands for between the double quotes of a recipe. -/
def doubleQuoted : Text → Option Text
  | [] => some []
  | '\\' :: c :: s =>
    if c = '$' ∨ c = '\x60' ∨ c = '"' ∨ c = '\\' then (doubleQuoted s).map (c :: ·)
    else if c = '\n' then none
    else (doubleQuoted s).map ('\\' :: c :: ·)
  | c :: s =>
    -- what the shell expands is not text, a quote ends it
    if c = '$' ∨ c = '\x60' ∨ c = '"' ∨ c = '\\' ∨ c = '\n' then none
    else (doubleQuoted s).map (c :: ·)

/-- What a text stands for on the right side of `s///`. -/
def replacement : Text → Option Text
  | [] => some []
  | '\\' :: c :: s =>
    if c = '/' ∨ c = '&' ∨ c = '\\' then (replacement s).map (c :: ·) else none
  | c :: s =>
    if c = '/' ∨ c = '&' ∨ c = '\\' ∨ c = '\n' then none else (replacement s).map (c :: ·)

/-! ### The macros -/

/-- `$(SED) "/\\<$(1)\\>/d"` -/
def sedDelete (name : Text) (f : File) : File := f.filter fun l => ! hasWord wordChar name l

/-- `grep -qw "$(1)"` -/
def grepWord (pat : Text) (f : File) : Bool := f.any (hasWord wordChar pat)

def assignText (name value : Text) : Text := name ++ '=' :: value

def unsetText (name : Text) : Text := "# ".toList ++ name ++ " is not set".toList

def kconfigEnableOpt (name : Text) (f : File) : File :=
  sedDelete name f ++ [assignText name "y".toList]

def kconfigSetOpt (name value : Text) (f : File) : File :=
  sedDelete name f ++ [assignText name value]

def kconfigDisableOpt (name : Text) (f : File) : File := sedDelete name f ++ [unsetText name]

def kconfigDisableOptIfNotEnabled (name : Text) (f : File) : File :=
  if grepWord name f then f else f ++ [unsetText name]

def kconfigEnableOptIfDisabled (name value : Text) (f : File) : File :=
  -- `call` keeps the blank before `$(1)`
  (kconfigDisableOptIfNotEnabled (' ' :: name) f).map
    (replaceAll (unsetText name) (assignText name value))

/-! ### Calls -/

/-- An option that a macro is called for. -/
structure Opt (types : Text → Option SymType) where
  name : Name
  type : SymType
  wordChar_of_mem : ∀ c ∈ name.text, wordChar c = true
  types_name : types name.text = some type

/-- A value of an option: what is read at the end of its line. -/
structure Value (quoting : Text → Option Text) (type : SymType) where
  /-- The argument of the macro. -/
  arg : Text
  text : Text
  quoting_arg : quoting arg = some text
  d : Def
  reads : confSetSymVal type (chomp (text ++ ['\n'])) = some d

inductive Call (types : Text → Option SymType)
  | enableOpt (o : Opt types) (h : o.type = .boolean ∨ o.type = .tristate)
  | setOpt (o : Opt types) (v : Value doubleQuoted o.type)
  | disableOpt (o : Opt types)
  | disableOptIfNotEnabled (o : Opt types)
  | enableOptIfDisabled (o : Opt types) (v : Value (doubleQuoted · >>= replacement) o.type)

namespace Call
variable {types : Text → Option SymType}

def apply (f : File) : Call types → File
  | enableOpt o _ => kconfigEnableOpt o.name.text f
  | setOpt o v => kconfigSetOpt o.name.text v.text f
  | disableOpt o => kconfigDisableOpt o.name.text f
  | disableOptIfNotEnabled o => kconfigDisableOptIfNotEnabled o.name.text f
  | enableOptIfDisabled o v => kconfigEnableOptIfDisabled o.name.text v.text f

def name : Call types → Text
  | enableOpt o _ | setOpt o _ | disableOpt o | disableOptIfNotEnabled o
  | enableOptIfDisabled o _ => o.name.text

/-- What "is not set" says about an option. -/
def unsetDef : SymType → Option Def
  | .boolean | .tristate => some (.tri .no)
  | _ => none

/-- What a call should do to the map. -/
def update (m : Defs) : Call types → Defs
  | enableOpt o _ => Function.update m o.name.text (some (.tri .yes))
  | setOpt o v => Function.update m o.name.text (some v.d)
  | disableOpt o => Function.update m o.name.text (unsetDef o.type)
  | disableOptIfNotEnabled o =>
    if m o.name.text = none then Function.update m o.name.text (unsetDef o.type) else m
  | enableOptIfDisabled o v =>
    if m o.name.text = none ∨ m o.name.text = some (.tri .no) then
      Function.update m o.name.text (some v.d)
    else m

end Call

/-- The option that a line assigns or unsets. -/
def lineOption (l : Text) : Option Text :=
  if (l ++ ['\n']).head? = some '#' then unsetName ((l ++ ['\n']).drop 2)
  else (splitFirst '=' (l ++ ['\n'])).map (·.1)

variable {types : Text → Option SymType}

/-- What a call has to achieve. -/
structure Updates (f : File) (c : Call types) : Prop where
  reads : readFile types (c.apply f) = c.update (readFile types f)
  twice : readFile types (c.apply (c.apply f)) = readFile types (c.apply f)
  once : (c.apply f).countP (lineOption · == some c.name) ≤ 1

/-- When it does: the name is in no line that is deleted and read as another option, and in no line
at all where only a line of the option is looked for. `KCONFIG_ENABLE_OPT_IF_DISABLED` needs the
line of the option, or another value of it than `n`. -/
def Safe (f : File) : Call types → Prop
  | .enableOpt o _ | .setOpt o _ | .disableOpt o =>
    ∀ l ∈ f, hasWord wordChar o.name.text l →
      ∀ k d, confReadLine types (l ++ ['\n']) = some (k, d) → k = o.name.text
  | .disableOptIfNotEnabled o =>
    (∃ l ∈ f, lineOption l = some o.name.text) ∨ grepWord o.name.text f = false
  | .enableOptIfDisabled o v =>
    (unsetText o.name.text ∈ f ∨
        ∃ d, readFile types f o.name.text = some d ∧ (d = .tri .no → d = v.d)) ∧
      (∀ l ∈ f, unsetText o.name.text <:+: l → l = unsetText o.name.text) ∧
      ¬ unsetText o.name.text <:+: assignText o.name.text v.text

/-! ### The lines of an option -/

section
variable {n : Name}

theorem lineOption_assignText (n : Name) (value : Text) :
    lineOption (assignText n.text value) = some n.text := by
  have hhead : (assignText n.text value ++ ['\n']).head? ≠ some '#' := by
    rw [assignText, List.append_assoc, List.head?_append_of_ne_nil _ n.ne_nil]
    exact head?_nameText n
  rw [lineOption, if_neg hhead, assignText, List.append_assoc, List.cons_append,
    splitFirst_append (n.not_mem (c := '=') rfl)]
  rfl

theorem lineOption_unsetText (n : Name) : lineOption (unsetText n.text) = some n.text := by
  have hdrop : (unsetText n.text ++ ['\n']).drop 2 =
      n.text ++ " is not set".toList ++ ['\n'] := by simp [unsetText]
  rw [lineOption, if_pos (by simp [unsetText]), hdrop,
    unsetName_append (n.not_mem (c := ' ') rfl)]

theorem hasWord_assignText (n : Name) (value : Text) :
    hasWord wordChar n.text (assignText n.text value) = true :=
  hasWord_append (a := []) n.ne_nil nofun fun c hc => by
    obtain rfl : '=' = c := Option.some.inj hc
    rfl

theorem hasWord_unsetText (n : Name) : hasWord wordChar n.text (unsetText n.text) = true := by
  refine hasWord_append n.ne_nil (fun c hc => ?_) fun c hc => ?_
  · obtain rfl : ' ' = c := Option.some.inj hc
    rfl
  · obtain rfl : ' ' = c := Option.some.inj hc
    rfl

theorem fst_of_confReadLine {l k : Text} {d : Def}
    (h : confReadLine types (l ++ ['\n']) = some (k, d)) : lineOption l = some k := by
  unfold confReadLine at h
  unfold lineOption
  split at h
  · rename_i hhead
    obtain ⟨name, hname, h⟩ := Option.bind_eq_some_iff.mp h
    rw [if_pos hhead, hname]
    split at h
    all_goals cases h
    all_goals rfl
  · rename_i hhead
    obtain ⟨⟨name, p⟩, hsplit, h⟩ := Option.bind_eq_some_iff.mp h
    obtain ⟨type, -, h⟩ := Option.bind_eq_some_iff.mp h
    obtain ⟨e, -, he⟩ := Option.map_eq_some_iff.mp h
    cases he
    rw [if_neg hhead, hsplit]
    rfl

theorem confReadLine_assignText {type : SymType} (htype : types n.text = some type)
    (value : Text) : confReadLine types (assignText n.text value ++ ['\n']) =
      (confSetSymVal type (chomp (value ++ ['\n']))).map fun d => (n.text, d) := by
  have hhead : (assignText n.text value ++ ['\n']).head? ≠ some '#' := by
    rw [assignText, List.append_assoc, List.head?_append_of_ne_nil _ n.ne_nil]
    exact head?_nameText n
  rw [confReadLine, if_neg hhead, assignText, List.append_assoc, List.cons_append,
    splitFirst_append (n.not_mem (c := '=') rfl), Option.bind_some]
  simp only [htype, Option.bind_some]

theorem confReadLine_unsetText {type : SymType} (htype : types n.text = some type) :
    confReadLine types (unsetText n.text ++ ['\n']) =
      (Call.unsetDef type).map fun d => (n.text, d) := by
  refine (confReadLine_unset htype ['\n']).trans ?_
  cases type <;> rfl

end

/-! ### What a file denotes -/

/-- A line as the macros and Kconfig write them. -/
structure LineOk (types : Text → Option SymType) (l : Text) : Prop where
  oneLine : '\n' ∉ l
  named : ∀ k, lineOption l = some k → hasWord wordChar k l = true
  readable : ∀ k, lineOption l = some k → types k = some .boolean ∨ types k = some .tristate →
    ∃ d, confReadLine types (l ++ ['\n']) = some (k, d)

structure Format (types : Text → Option SymType) (f : File) : Prop where
  lineOk : ∀ l ∈ f, LineOk types l
  nodup : (f.filterMap lineOption).Nodup

def lineWrite (types : Text → Option SymType) (l : Text) : Option (Text × Option Def) :=
  (confReadLine types (l ++ ['\n'])).map fun r => (r.1, some r.2)

theorem lineOption_of_lineWrite {l : Text} {w : Text × Option Def}
    (h : w ∈ lineWrite types l) : lineOption l = some w.1 := by
  obtain ⟨r, hr, rfl⟩ := Option.map_eq_some_iff.mp h
  exact fst_of_confReadLine hr

section
variable {f : File} {o : Opt types} {l : Text}

theorem readFile_apply (hf : ∀ l ∈ f, '\n' ∉ l) (k : Text) : readFile types f k =
    (LastWins.writes (f.map (lineWrite types)) k).getLast?.getD none := by
  rw [readFile, confReadSimple, compatGetline_unlines_self hf, LastWins.foldl_write, List.map_map]
  rfl

theorem writes_eq_nil {k : Text} (h : ∀ l ∈ f, lineOption l ≠ some k) :
    LastWins.writes (f.map (lineWrite types)) k = [] := by
  refine LastWins.writes_eq_nil fun e he w hw hk => ?_
  obtain ⟨l, hl, rfl⟩ := List.mem_map.mp he
  exact h l hl (hk ▸ lineOption_of_lineWrite hw)

theorem readFile_eq_none (hf : ∀ l ∈ f, '\n' ∉ l) {k : Text}
    (h : ∀ l ∈ f, lineOption l ≠ some k) : readFile types f k = none := by
  rw [readFile_apply hf, writes_eq_nil h]
  rfl

theorem readFile_ne_none (hf : ∀ l ∈ f, '\n' ∉ l) (hl : l ∈ f) {k : Text} {d : Def}
    (hread : confReadLine types (l ++ ['\n']) = some (k, d)) : readFile types f k ≠ none := by
  have hmem : some d ∈ LastWins.writes (f.map (lineWrite types)) k := by
    rw [LastWins.mem_writes]
    exact List.mem_map.mpr ⟨l, hl, by rw [lineWrite, hread]; rfl⟩
  rw [readFile_apply hf]
  rcases hlast : (LastWins.writes (f.map (lineWrite types)) k).getLast? with _ | w
  · rw [List.getLast?_eq_none_iff.mp hlast] at hmem
    cases hmem
  · obtain ⟨l', -, hl'⟩ := List.mem_map.mp (LastWins.mem_writes.mp (List.mem_of_getLast? hlast))
    obtain ⟨r, -, hr⟩ := Option.map_eq_some_iff.mp hl'
    cases hr
    exact nofun

theorem lineOk_assign {value : Text} {d : Def} (hvalue : '\n' ∉ value)
    (hread : confSetSymVal o.type (chomp (value ++ ['\n'])) = some d) :
    LineOk types (assignText o.name.text value) where
  oneLine := by
    have hname := o.name.not_mem (c := '\n') rfl
    simp [assignText, hname, hvalue]
  named k hk := by
    rw [lineOption_assignText] at hk
    cases hk
    exact hasWord_assignText _ _
  readable k hk _ := by
    rw [lineOption_assignText] at hk
    cases hk
    exact ⟨d, by rw [confReadLine_assignText o.types_name, hread]; rfl⟩

theorem lineOk_unset (o : Opt types) : LineOk types (unsetText o.name.text) where
  oneLine := by
    have hname := o.name.not_mem (c := '\n') rfl
    simp [unsetText, hname]
  named k hk := by
    rw [lineOption_unsetText] at hk
    cases hk
    exact hasWord_unsetText _
  readable k hk htype := by
    rw [lineOption_unsetText] at hk
    cases hk
    rw [confReadLine_unsetText o.types_name]
    rw [o.types_name, Option.some.injEq, Option.some.injEq] at htype
    rcases htype with htype | htype
    · exact ⟨_, by rw [htype]; rfl⟩
    · exact ⟨_, by rw [htype]; rfl⟩

/-! ### The steps -/

theorem Format.oneLine (hf : Format types f) : ∀ l ∈ f, '\n' ∉ l := fun l hl =>
  (hf.lineOk l hl).oneLine

theorem Format.concat (hf : Format types f) (hl : LineOk types l)
    (hnew : ∀ k, lineOption l = some k → ∀ l' ∈ f, lineOption l' ≠ some k) :
    Format types (f ++ [l]) where
  lineOk l' hl' := by
    rcases List.mem_append.mp hl' with hl' | hl'
    · exact hf.lineOk l' hl'
    · exact List.mem_singleton.mp hl' ▸ hl
  nodup := by
    rw [List.filterMap_append, List.nodup_append]
    refine ⟨hf.nodup, ?_, fun k hk k' hk' he => ?_⟩
    · rw [List.filterMap_cons]
      split
      · exact List.nodup_nil
      · exact List.nodup_singleton _
    · obtain ⟨l', hl', hlk⟩ := List.mem_filterMap.mp hk
      obtain ⟨l'', hl'', hlk'⟩ := List.mem_filterMap.mp hk'
      rw [List.mem_singleton.mp hl''] at hlk'
      exact hnew k' hlk' l' hl' (he ▸ hlk)

theorem Format.deleted (hf : Format types f) (name : Text) :
    Format types (sedDelete name f) where
  lineOk l hl := hf.lineOk l (List.mem_of_mem_filter hl)
  nodup := hf.nodup.sublist (List.filter_sublist.filterMap _)

theorem Format.countP_le (hf : Format types f) (k : Text) :
    f.countP (lineOption · == some k) ≤ 1 := by
  rw [← List.count_filterMap]
  exact List.nodup_iff_count_le_one.mp hf.nodup k

/-- After the deletion no line of the option is left. -/
theorem lineOption_of_mem_sedDelete (hf : Format types f) {name : Text}
    (hl : l ∈ sedDelete name f) : lineOption l ≠ some name := by
  obtain ⟨hmem, hword⟩ := List.mem_filter.mp hl
  intro h
  rw [(hf.lineOk l hmem).named name h] at hword
  exact absurd hword nofun

theorem readFile_sedDelete (hf : Format types f) {name k : Text} (hk : k ≠ name)
    (h : ∀ l ∈ f, hasWord wordChar name l →
      ∀ k d, confReadLine types (l ++ ['\n']) = some (k, d) → k = name) :
    readFile types (sedDelete name f) k = readFile types f k := by
  rw [readFile_apply (hf.deleted name).oneLine, readFile_apply hf.oneLine, sedDelete,
    LastWins.writes_map_filter]
  intro l hl hword w hw hwk
  rw [Bool.not_eq_false'] at hword
  obtain ⟨r, hr, rfl⟩ := Option.map_eq_some_iff.mp hw
  exact hk (hwk ▸ h l hl hword r.1 r.2 hr)

theorem Format.option_ne {a b : File} (hf : Format types (a ++ l :: b)) {k : Text}
    (ho : lineOption l = some k) : ∀ l' ∈ a ++ b, lineOption l' ≠ some k := by
  have hnodup := hf.nodup
  rw [List.filterMap_append, List.filterMap_cons_some ho, List.nodup_append, List.nodup_cons]
    at hnodup
  intro l' hl' h
  rcases List.mem_append.mp hl' with hl' | hl'
  · exact hnodup.2.2 _ (List.mem_filterMap.mpr ⟨l', hl', h⟩) _ (List.mem_cons_self ..) rfl
  · exact hnodup.2.1.1 (List.mem_filterMap.mpr ⟨l', hl', h⟩)

/-- A line decides on its option and on no other. -/
theorem readFile_middle {a b : File} (hf : Format types (a ++ l :: b))
    (ho : lineOption l = some o.name.text) {d : Option Def}
    (hread : confReadLine types (l ++ ['\n']) = d.map fun d => (o.name.text, d)) :
    readFile types (a ++ l :: b) = Function.update (readFile types (a ++ b)) o.name.text d := by
  have hother := hf.option_ne ho
  have ha : ∀ l ∈ a, lineOption l ≠ some o.name.text := fun l' hl' =>
    hother l' (List.mem_append_left _ hl')
  have hb : ∀ l ∈ b, lineOption l ≠ some o.name.text := fun l' hl' =>
    hother l' (List.mem_append_right _ hl')
  have hab : ∀ l ∈ a ++ b, '\n' ∉ l := fun l' hl' => hf.oneLine l' (by simp at hl' ⊢; tauto)
  funext k
  rw [readFile_apply hf.oneLine, List.map_append, LastWins.writes_append, List.map_cons]
  by_cases hk : k = o.name.text
  · subst hk
    rw [Function.update_self, lineWrite, hread, writes_eq_nil ha]
    cases d with
    | none =>
      rw [Option.map_none, Option.map_none, LastWins.writes_cons_none, writes_eq_nil hb]
      rfl
    | some d =>
      rw [Option.map_some, Option.map_some, LastWins.writes_cons_self, writes_eq_nil hb]
      rfl
  · have hskip : LastWins.writes (lineWrite types l :: b.map (lineWrite types)) k =
        LastWins.writes (b.map (lineWrite types)) k := by
      rw [lineWrite, hread]
      cases d with
      | none => rfl
      | some d => exact LastWins.writes_cons_of_ne _ (Ne.symm hk) _
    rw [Function.update_of_ne hk, readFile_apply hab, List.map_append, LastWins.writes_append, hskip]

theorem readFile_concat (hf : Format types (f ++ [l])) (ho : lineOption l = some o.name.text)
    {d : Option Def}
    (hread : confReadLine types (l ++ ['\n']) = d.map fun d => (o.name.text, d)) :
    readFile types (f ++ [l]) = Function.update (readFile types f) o.name.text d := by
  have hmiddle := readFile_middle hf ho hread
  rwa [List.append_nil] at hmiddle

/-- A line in place of all those with the name of its option in them. -/
theorem replaced (hf : Format types f) (hl : LineOk types l)
    (ho : lineOption l = some o.name.text) {d : Option Def}
    (hread : confReadLine types (l ++ ['\n']) = d.map fun d => (o.name.text, d))
    (h : ∀ l ∈ f, hasWord wordChar o.name.text l →
      ∀ k d, confReadLine types (l ++ ['\n']) = some (k, d) → k = o.name.text) :
    Format types (sedDelete o.name.text f ++ [l]) ∧
      readFile types (sedDelete o.name.text f ++ [l]) =
        Function.update (readFile types f) o.name.text d ∧
      sedDelete o.name.text (sedDelete o.name.text f ++ [l]) ++ [l] =
        sedDelete o.name.text f ++ [l] := by
  have hnot : ∀ l ∈ sedDelete o.name.text f, lineOption l ≠ some o.name.text := fun l hl =>
    lineOption_of_mem_sedDelete hf hl
  have hformat : Format types (sedDelete o.name.text f ++ [l]) := by
    refine (hf.deleted o.name.text).concat hl fun k hk => ?_
    rw [ho] at hk
    cases hk
    exact hnot
  refine ⟨hformat, ?_, ?_⟩
  · rw [readFile_concat hformat ho hread]
    funext k
    by_cases hk : k = o.name.text
    · rw [hk, Function.update_self, Function.update_self]
    · rw [Function.update_of_ne hk, Function.update_of_ne hk]
      exact readFile_sedDelete hf hk h
  · have hword := hl.named _ ho
    simp [sedDelete, List.filter_append, hword]

theorem newline_not_mem_of_doubleQuoted {arg text : Text} (h : doubleQuoted arg = some text) :
    '\n' ∉ text := by
  fun_induction doubleQuoted arg generalizing text with
  | case1 =>
    cases h
    exact List.not_mem_nil
  | case2 c s hc ih =>
    obtain ⟨t, ht, rfl⟩ := Option.map_eq_some_iff.mp h
    rw [List.mem_cons, not_or]
    refine ⟨?_, ih ht⟩
    rcases hc with rfl | rfl | rfl | rfl <;> decide
  | case3 => cases h
  | case4 c s _ hc ih =>
    obtain ⟨t, ht, rfl⟩ := Option.map_eq_some_iff.mp h
    simp [ih ht, Ne.symm hc]
  | case5 => cases h
  | case6 c s _ hc ih =>
    obtain ⟨t, ht, rfl⟩ := Option.map_eq_some_iff.mp h
    simp only [not_or] at hc
    rw [List.mem_cons, not_or]
    exact ⟨Ne.symm hc.2.2.2.2, ih ht⟩

theorem newline_not_mem_of_replacement {text t : Text} (h : replacement text = some t) :
    '\n' ∉ t := by
  fun_induction replacement text generalizing t with
  | case1 =>
    cases h
    exact List.not_mem_nil
  | case2 c s hc ih =>
    obtain ⟨t, ht, rfl⟩ := Option.map_eq_some_iff.mp h
    rw [List.mem_cons, not_or]
    refine ⟨?_, ih ht⟩
    rcases hc with rfl | rfl | rfl <;> decide
  | case3 => cases h
  | case4 => cases h
  | case5 c s _ hc ih =>
    obtain ⟨t, ht, rfl⟩ := Option.map_eq_some_iff.mp h
    simp only [not_or] at hc
    rw [List.mem_cons, not_or]
    exact ⟨Ne.symm hc.2.2.2, ih ht⟩

theorem step_enableOpt (hf : Format types f) (htri : o.type = .boolean ∨ o.type = .tristate)
    (h : Safe f (.enableOpt o htri)) :
    Format types ((Call.enableOpt o htri).apply f) ∧ Updates f (.enableOpt o htri) := by
  have hread : confSetSymVal o.type (chomp ("y".toList ++ ['\n'])) = some (.tri .yes) := by
    rcases htri with htri | htri
    · rw [htri]
      rfl
    · rw [htri]
      rfl
  have hline := confReadLine_assignText o.types_name "y".toList
  rw [hread] at hline
  obtain ⟨hformat, hreads, htwice⟩ := replaced hf (lineOk_assign (by decide) hread)
    (lineOption_assignText _ _) hline h
  exact ⟨hformat, hreads, congrArg _ htwice, hformat.countP_le _⟩

theorem step_setOpt (hf : Format types f) (v : Value doubleQuoted o.type)
    (h : Safe f (.setOpt o v)) :
    Format types ((Call.setOpt o v).apply f) ∧ Updates f (.setOpt o v) := by
  have hline := confReadLine_assignText o.types_name v.text
  rw [v.reads] at hline
  have hok := lineOk_assign (newline_not_mem_of_doubleQuoted v.quoting_arg) v.reads
  obtain ⟨hformat, hreads, htwice⟩ := replaced hf hok (lineOption_assignText _ _) hline h
  exact ⟨hformat, hreads, congrArg _ htwice, hformat.countP_le _⟩

theorem step_disableOpt (hf : Format types f) (h : Safe f (.disableOpt o)) :
    Format types ((Call.disableOpt o).apply f) ∧ Updates f (.disableOpt o) := by
  obtain ⟨hformat, hreads, htwice⟩ := replaced hf (lineOk_unset o) (lineOption_unsetText _)
    (confReadLine_unsetText o.types_name) h
  exact ⟨hformat, hreads, congrArg _ htwice, hformat.countP_le _⟩

/-- An option with a line of its own is not absent, unless the line says nothing that is read. -/
theorem update_unsetDef_of_mem (hf : Format types f) (hl : l ∈ f)
    (ho : lineOption l = some o.name.text) (hnone : readFile types f o.name.text = none) :
    Function.update (readFile types f) o.name.text (Call.unsetDef o.type) = readFile types f := by
  rw [Function.update_eq_self_iff, hnone]
  have htri : ¬ (types o.name.text = some .boolean ∨ types o.name.text = some .tristate) := by
    intro htri
    obtain ⟨d, hread⟩ := (hf.lineOk l hl).readable _ ho htri
    exact readFile_ne_none hf.oneLine hl hread hnone
  rw [o.types_name] at htri
  cases htype : o.type <;> simp [htype] at htri ⊢ <;> rfl

theorem step_disableOptIfNotEnabled (hf : Format types f)
    (h : Safe f (.disableOptIfNotEnabled o)) :
    Format types ((Call.disableOptIfNotEnabled o).apply f) ∧
      Updates f (.disableOptIfNotEnabled o) := by
  cases hgrep : grepWord o.name.text f with
  | true =>
    have happly : (Call.disableOptIfNotEnabled o).apply f = f := if_pos hgrep
    obtain ⟨l, hl, ho⟩ := h.resolve_right (by rw [hgrep]; exact nofun)
    refine ⟨happly.symm ▸ hf, ?_, by rw [happly, happly], by rw [happly]; exact hf.countP_le _⟩
    rw [happly, Call.update]
    split
    · exact (update_unsetDef_of_mem hf hl ho ‹_›).symm
    · rfl
  | false =>
    have hword : ∀ l ∈ f, hasWord wordChar o.name.text l = false := by
      simpa [grepWord] using hgrep
    have hnot : ∀ l ∈ f, lineOption l ≠ some o.name.text := by
      intro l hl ho
      exact absurd ((hf.lineOk l hl).named _ ho) (by rw [hword l hl]; exact nofun)
    have happly : (Call.disableOptIfNotEnabled o).apply f = f ++ [unsetText o.name.text] :=
      if_neg (by rw [hgrep]; exact nofun)
    have hformat : Format types (f ++ [unsetText o.name.text]) := by
      refine hf.concat (lineOk_unset o) fun k hk => ?_
      rw [lineOption_unsetText] at hk
      cases hk
      exact hnot
    have hreads := readFile_concat hformat (lineOption_unsetText _)
      (confReadLine_unsetText o.types_name)
    refine ⟨happly.symm ▸ hformat, ?_, ?_, by rw [happly]; exact hformat.countP_le _⟩
    · rw [happly, hreads, Call.update, if_pos (readFile_eq_none hf.oneLine hnot)]
    · have htwice : (Call.disableOptIfNotEnabled o).apply (f ++ [unsetText o.name.text]) =
          f ++ [unsetText o.name.text] := by
        refine if_pos ?_
        simp [grepWord, hasWord_unsetText]
      rw [happly, htwice]

/-! ### `KCONFIG_ENABLE_OPT_IF_DISABLED` -/

theorem unsetText_eq (name : Text) :
    unsetText name = '#' :: ' ' :: (name ++ " is not set".toList) := rfl

/-- The line with the second blank is the line of no option. -/
theorem lineOption_blank (o : Opt types) : lineOption (unsetText (' ' :: o.name.text)) = none := by
  have hdrop : (unsetText (' ' :: o.name.text) ++ ['\n']).drop 2 =
      ' ' :: (o.name.text ++ ' ' :: "is not set\n".toList) := by simp [unsetText]
  have hbegin : "is not set".toList.isPrefixOf (o.name.text ++ ' ' :: "is not set\n".toList) =
      false := by
    rw [← Bool.not_eq_true, List.isPrefixOf_iff_prefix]
    rintro ⟨t, ht⟩
    have hleft := splitFirst_append (c := ' ') (s := "is".toList) (by decide)
      ("not set".toList ++ t)
    have hright := splitFirst_append (o.name.not_mem (c := ' ') rfl) "is not set\n".toList
    rw [← ht] at hright
    have hrest := congrArg Prod.snd (Option.some.inj (hleft.symm.trans hright))
    simp at hrest
  rw [lineOption, if_pos (by simp [unsetText]), hdrop, unsetName, splitFirst, if_pos rfl,
    Option.bind_some]
  exact if_neg (by rw [hbegin]; exact Bool.false_ne_true)

theorem not_infix_blank (o : Opt types) :
    ¬ unsetText o.name.text <:+: unsetText (' ' :: o.name.text) := by
  have hhash : '#' ∉ o.name.text := o.name.not_mem rfl
  rintro ⟨a, b, h⟩
  rw [unsetText_eq, unsetText_eq] at h
  cases a with
  | nil =>
    -- the name would begin with the blank
    obtain ⟨c, t, hname⟩ := List.exists_cons_of_ne_nil o.name.ne_nil
    have hblank : ' ' ∉ o.name.text := o.name.not_mem rfl
    rw [hname] at h hblank
    have hc : c = ' ' := (List.cons.inj (List.cons.inj (List.cons.inj h).2).2).1
    exact hblank (hc ▸ List.mem_cons_self ..)
  | cons c a =>
    have htail := (List.cons.inj h).2
    have hmem : '#' ∈ ' ' :: (' ' :: o.name.text ++ " is not set".toList) := by
      rw [← htail]
      simp
    simp [hhash] at hmem

theorem lineOk_blank (o : Opt types) : LineOk types (unsetText (' ' :: o.name.text)) where
  oneLine := by
    have hname := o.name.not_mem (c := '\n') rfl
    simp [unsetText, hname]
  named k hk := by
    rw [lineOption_blank] at hk
    cases hk
  readable k hk := by
    rw [lineOption_blank] at hk
    cases hk

/-- A line that is the line of no option is not read. -/
theorem readFile_concat_none (hf : Format types (f ++ [l])) (ho : lineOption l = none) :
    readFile types (f ++ [l]) = readFile types f := by
  have hf' : ∀ l' ∈ f, '\n' ∉ l' := fun l' hl' => hf.oneLine l' (List.mem_append_left _ hl')
  funext k
  rw [readFile_apply hf.oneLine, readFile_apply hf', List.map_append, LastWins.writes_append,
    List.map_singleton]
  have hnil : LastWins.writes [lineWrite types l] k = [] := by
    refine @writes_eq_nil types [l] k fun l' hl' h => ?_
    rw [List.mem_singleton.mp hl', ho] at h
    cases h
  rw [hnil, List.append_nil]

/-- What `KCONFIG_DISABLE_OPT_IF_NOT_ENABLED` does for the name with a blank before it. -/
theorem disableOptIfNotEnabled_blank (o : Opt types) (hf : Format types f) :
    ∃ rest, kconfigDisableOptIfNotEnabled (' ' :: o.name.text) f = f ++ rest ∧
      Format types (f ++ rest) ∧ readFile types (f ++ rest) = readFile types f ∧
      ∀ l ∈ rest, l = unsetText (' ' :: o.name.text) := by
  unfold kconfigDisableOptIfNotEnabled
  split
  · refine ⟨[], (List.append_nil f).symm, ?_, ?_, nofun⟩
    · rwa [List.append_nil]
    · rw [List.append_nil]
  · have hformat : Format types (f ++ [unsetText (' ' :: o.name.text)]) := by
      refine hf.concat (lineOk_blank o) fun k hk => ?_
      rw [lineOption_blank] at hk
      cases hk
    exact ⟨_, rfl, hformat, readFile_concat_none hformat (lineOption_blank o), fun l hl =>
      List.mem_singleton.mp hl⟩

theorem map_replaceAll {pat repl : Text} {f : File} (h : ∀ l ∈ f, ¬ pat <:+: l) :
    f.map (replaceAll pat repl) = f := by
  rw [List.map_congr_left fun l hl => replaceAll_eq_self (h l hl), List.map_id']

/-- Where no line has the text in it, nothing changes that is read. -/
theorem apply_of_no_line (hf : Format types f) (v : Value (doubleQuoted · >>= replacement) o.type)
    (h : ∀ l ∈ f, ¬ unsetText o.name.text <:+: l) :
    Format types ((Call.enableOptIfDisabled o v).apply f) ∧
      readFile types ((Call.enableOptIfDisabled o v).apply f) = readFile types f ∧
      ∀ l ∈ (Call.enableOptIfDisabled o v).apply f, ¬ unsetText o.name.text <:+: l := by
  obtain ⟨rest, happly, hformat, hreads, hrest⟩ := disableOptIfNotEnabled_blank o hf
  have hall : ∀ l ∈ f ++ rest, ¬ unsetText o.name.text <:+: l := by
    intro l hl
    rcases List.mem_append.mp hl with hl | hl
    · exact h l hl
    · rw [hrest l hl]
      exact not_infix_blank o
  have hmap : (Call.enableOptIfDisabled o v).apply f = f ++ rest := by
    show (kconfigDisableOptIfNotEnabled _ f).map _ = _
    rw [happly, map_replaceAll hall]
  rw [hmap]
  exact ⟨hformat, hreads, hall⟩

theorem Format.middle {a b : File} {l' : Text} (hf : Format types (a ++ l :: b))
    (hl : LineOk types l') (ho : lineOption l' = lineOption l) : Format types (a ++ l' :: b) where
  lineOk l'' hl'' := by
    rcases List.mem_append.mp hl'' with h | h
    · exact hf.lineOk l'' (List.mem_append_left _ h)
    · rcases List.mem_cons.mp h with rfl | h
      · exact hl
      · exact hf.lineOk l'' (List.mem_append_right _ (List.mem_cons_of_mem _ h))
  nodup := by
    have hnodup := hf.nodup
    rw [List.filterMap_append, List.filterMap_cons] at hnodup ⊢
    rwa [ho]

/-- Where the option is not set, its line is replaced. -/
theorem apply_of_mem (hf : Format types f) (v : Value (doubleQuoted · >>= replacement) o.type)
    (hmem : unsetText o.name.text ∈ f)
    (hother : ∀ l ∈ f, unsetText o.name.text <:+: l → l = unsetText o.name.text)
    (hv : ¬ unsetText o.name.text <:+: assignText o.name.text v.text) :
    Format types ((Call.enableOptIfDisabled o v).apply f) ∧
      readFile types ((Call.enableOptIfDisabled o v).apply f) =
        Function.update (readFile types f) o.name.text (some v.d) ∧
      readFile types f o.name.text = Call.unsetDef o.type ∧
      ∀ l ∈ (Call.enableOptIfDisabled o v).apply f, ¬ unsetText o.name.text <:+: l := by
  obtain ⟨rest, happly, hformat, hreads, hrest⟩ := disableOptIfNotEnabled_blank o hf
  obtain ⟨a, b, rfl⟩ := List.append_of_mem hmem
  rw [List.append_assoc, List.cons_append] at happly hformat hreads
  -- the line is there only once
  have honce := hf.option_ne (lineOption_unsetText _)
  have ha : ∀ l ∈ a, ¬ unsetText o.name.text <:+: l := by
    intro l hl hin
    obtain rfl := hother l (List.mem_append_left _ hl) hin
    exact honce _ (List.mem_append_left _ hl) (lineOption_unsetText _)
  have hb : ∀ l ∈ b ++ rest, ¬ unsetText o.name.text <:+: l := by
    intro l hl hin
    rcases List.mem_append.mp hl with hl | hl
    · obtain rfl := hother l (List.mem_append_right _ (List.mem_cons_of_mem _ hl)) hin
      exact honce _ (List.mem_append_right _ hl) (lineOption_unsetText _)
    · rw [hrest l hl] at hin
      exact not_infix_blank o hin
  have hmap : (Call.enableOptIfDisabled o v).apply (a ++ unsetText o.name.text :: b) =
      a ++ assignText o.name.text v.text :: (b ++ rest) := by
    show (kconfigDisableOptIfNotEnabled _ _).map _ = _
    have hself := @replaceAll_self _ _ (unsetText o.name.text) (assignText o.name.text v.text)
      nofun
    rw [happly, List.map_append, List.map_cons, map_replaceAll ha, map_replaceAll hb, hself]
  have hok : LineOk types (assignText o.name.text v.text) := by
    obtain ⟨text, -, htext⟩ := Option.bind_eq_some_iff.mp v.quoting_arg
    exact lineOk_assign (newline_not_mem_of_replacement htext) v.reads
  have hformat' := hformat.middle hok
    ((lineOption_assignText _ _).trans (lineOption_unsetText _).symm)
  have hline := confReadLine_assignText o.types_name v.text
  rw [v.reads] at hline
  have hset := readFile_middle hformat' (lineOption_assignText _ _) hline
  have hunset := readFile_middle hformat (lineOption_unsetText _)
    (confReadLine_unsetText o.types_name)
  rw [hmap]
  refine ⟨hformat', ?_, ?_, fun l hl => ?_⟩
  · rw [hset, ← hreads, hunset, Function.update_idem]
  · rw [← hreads, hunset, Function.update_self]
  · rcases List.mem_append.mp hl with hl | hl
    · exact ha l hl
    · rcases List.mem_cons.mp hl with rfl | hl
      · exact hv
      · exact hb l hl

theorem step_enableOptIfDisabled (hf : Format types f)
    (v : Value (doubleQuoted · >>= replacement) o.type) (h : Safe f (.enableOptIfDisabled o v)) :
    Format types ((Call.enableOptIfDisabled o v).apply f) ∧
      Updates f (.enableOptIfDisabled o v) := by
  obtain ⟨hset, hother, hv⟩ := h
  by_cases hmem : unsetText o.name.text ∈ f
  · obtain ⟨hformat, hreads, hunset, hnot⟩ := apply_of_mem hf v hmem hother hv
    refine ⟨hformat, ?_, (apply_of_no_line hformat v hnot).2.1, hformat.countP_le _⟩
    rw [hreads, Call.update, if_pos]
    rw [hunset]
    cases o.type <;> simp [Call.unsetDef]
  · have hnot : ∀ l ∈ f, ¬ unsetText o.name.text <:+: l := fun l hl hin =>
      hmem (hother l hl hin ▸ hl)
    obtain ⟨hformat, hreads, hnot'⟩ := apply_of_no_line hf v hnot
    refine ⟨hformat, ?_, (apply_of_no_line hformat v hnot').2.1, hformat.countP_le _⟩
    obtain ⟨d, hread, hd⟩ := hset.resolve_left hmem
    rw [hreads, Call.update]
    split
    · rename_i hno
      rw [hread] at hno
      have hval : d = v.d := hd (Option.some.inj (hno.resolve_left nofun))
      rw [← hval, ← hread, Function.update_eq_self]
    · rfl

/-! ### Runs -/

theorem step_of_safe (hf : Format types f) {c : Call types} (h : Safe f c) :
    Format types (c.apply f) ∧ Updates f c := by
  cases c with
  | enableOpt o htri => exact step_enableOpt hf htri h
  | setOpt o v => exact step_setOpt hf v h
  | disableOpt o => exact step_disableOpt hf h
  | disableOptIfNotEnabled o => exact step_disableOptIfNotEnabled hf h
  | enableOptIfDisabled o v => exact step_enableOptIfDisabled hf v h

theorem run_of_safe {calls : List (Call types)} (hf : Format types f)
    (h : Along Call.apply Safe f calls) : Along Call.apply Updates f calls ∧
      readFile types (final Call.apply f calls) = calls.foldl Call.update (readFile types f) := by
  induction calls generalizing f with
  | nil => exact ⟨trivial, rfl⟩
  | cons c calls ih =>
    obtain ⟨hformat, hstep⟩ := step_of_safe hf h.1
    obtain ⟨hrun, hreads⟩ := ih hformat h.2
    refine ⟨⟨hstep, hrun⟩, ?_⟩
    rw [final_cons, hreads, hstep.reads, List.foldl_cons]

end

/-- A file that Kconfig has written: every option has one line. -/
structure WrittenFile (types : Text → Option SymType) extends ConfigFile types where
  nodup : (lines.filterMap Line.assigns |>.map (·.1)).Nodup

def WrittenFile.file (p : WrittenFile types) : File := p.lines.map Line.text

theorem Line.text_option (n : Name) (v : SymValue) :
    Line.text (.option n v) = unsetText n.text ∧ (v.type = .boolean ∨ v.type = .tristate) ∨
      Line.text (.option n v) = assignText n.text (printedValue v) := by
  show optionText n v = _ ∧ _ ∨ optionText n v = _
  unfold optionText
  split
  · rename_i hunset
    exact .inl ⟨rfl, hunset.1⟩
  · exact .inr rfl

theorem lineOption_text {l : Line} (hl : l.Ok types) :
    lineOption l.text = l.assigns.map (·.1) := by
  rcases l with _ | t | ⟨n, v⟩
  · rfl
  · cases t with
    | nil => rfl
    | cons c t =>
      have hhead : (Line.text (.comment (c :: t)) ++ ['\n']).head? = some '#' := rfl
      have hdrop : (Line.text (.comment (c :: t)) ++ ['\n']).drop 2 = c :: t ++ ['\n'] := rfl
      rw [lineOption, if_pos hhead, hdrop, hl.2]
      rfl
  · rcases Line.text_option n v with ⟨h, -⟩ | h
    · rw [h, lineOption_unsetText]
      rfl
    · rw [h, lineOption_assignText]
      rfl

theorem lineOk_text {l : Line} (hl : l.Ok types) : LineOk types l.text where
  oneLine := Line.not_mem_text hl
  named k hk := by
    rw [lineOption_text hl] at hk
    obtain ⟨a, ha, rfl⟩ := Option.map_eq_some_iff.mp hk
    rcases l with _ | t | ⟨n, v⟩
    · cases ha
    · cases ha
    · cases ha
      rcases Line.text_option n v with ⟨h, -⟩ | h
      · rw [h]
        exact hasWord_unsetText n
      · rw [h]
        exact hasWord_assignText n _
  readable k hk htype := by
    rw [lineOption_text hl] at hk
    obtain ⟨a, ha, rfl⟩ := Option.map_eq_some_iff.mp hk
    rcases l with _ | t | ⟨n, v⟩
    · cases ha
    · cases ha
    · cases ha
      have hread := confReadLine_option hl.1 hl.2.1 hl.2.2
      rw [hl.1, Option.some.injEq, Option.some.injEq] at htype
      cases v with
      | boolean b => exact ⟨_, hread⟩
      | tristate t => exact ⟨_, hread⟩
      | _ => simp [SymValue.type] at htype

theorem WrittenFile.format (p : WrittenFile types) : Format types p.file where
  lineOk l hl := by
    obtain ⟨l, hmem, rfl⟩ := List.mem_map.mp hl
    exact lineOk_text (p.ok l hmem)
  nodup := by
    have heq : p.file.filterMap lineOption = (p.lines.filterMap Line.assigns).map (·.1) := by
      rw [WrittenFile.file, List.filterMap_map, List.map_filterMap]
      exact List.filterMap_congr fun l hl => lineOption_text (p.ok l hl)
    rw [heq]
    exact p.nodup

/-- After calls that are all safe the file denotes the map updated in their order. -/
theorem updates_of_safe (p : WrittenFile types) {calls : List (Call types)}
    (h : Along Call.apply Safe p.file calls) : Along Call.apply Updates p.file calls ∧
      readFile types (final Call.apply p.file calls) =
        calls.foldl Call.update (confReadSimple types p.text) :=
  run_of_safe p.format h

theorem update_of_ne (m : Defs) {c : Call types} {k : Text} (hk : k ≠ c.name) :
    c.update m k = m k := by
  cases c with
  | disableOptIfNotEnabled o =>
    rw [Call.update]
    split
    · exact Function.update_of_ne hk _ _
    · rfl
  | enableOptIfDisabled o v =>
    rw [Call.update]
    split
    · exact Function.update_of_ne hk _ _
    · rfl
  | _ => exact Function.update_of_ne hk _ _

theorem foldl_update_of_ne (m : Defs) {calls : List (Call types)} {k : Text}
    (hk : ∀ c ∈ calls, k ≠ c.name) : calls.foldl Call.update m k = m k := by
  induction calls generalizing m with
  | nil => rfl
  | cons c calls ih =>
    obtain ⟨hc, hcalls⟩ := List.forall_mem_cons.mp hk
    rw [List.foldl_cons, ih _ hcalls, update_of_ne m hc]

/-! ### The edits of Busybox (`busybox.mk`) -/

/-- `BB_SWITCH_OPTION`; `selected`: the variable `$(1)` is not empty. -/
def bbSwitchOption (selected : Bool) (o : Opt types)
    (h : o.type = .boolean ∨ o.type = .tristate) : Call types :=
  if selected then .enableOpt o h else .disableOpt o

/-- `BB_DISABLE_OPTION` -/
def bbDisableOption (selected : Bool) (o : Opt types)
    (h : o.type = .boolean ∨ o.type = .tristate) : Call types :=
  if selected then .disableOpt o else .enableOpt o h

theorem bbDisableOption_eq (selected : Bool) (o : Opt types)
    (h : o.type = .boolean ∨ o.type = .tristate) :
    bbDisableOption selected o h = bbSwitchOption (! selected) o h := by
  cases selected <;> rfl

/-- The last edit of an option decides on it. -/
theorem readFile_bbSwitchOption (p : WrittenFile types) {pre post : List (Call types)}
    {selected : Bool} {o : Opt types} {htri : o.type = .boolean ∨ o.type = .tristate}
    (h : Along Call.apply Safe p.file (pre ++ bbSwitchOption selected o htri :: post))
    (hpost : ∀ c ∈ post, o.name.text ≠ c.name) :
    readFile types (final Call.apply p.file (pre ++ bbSwitchOption selected o htri :: post))
      o.name.text = some (.tri (if selected then .yes else .no)) := by
  rw [(run_of_safe p.format h).2, List.foldl_append, List.foldl_cons,
    foldl_update_of_ne _ hpost]
  cases selected with
  | true => exact Function.update_self ..
  | false =>
    refine (Function.update_self ..).trans ?_
    rcases htri with htri | htri <;> rw [htri] <;> rfl

/-! ### Where the macros go wrong -/

/-- An option that is absent stays absent: the line that is to be edited is written with a second
blank. -/
theorem not_updates_of_absent {f : File} {o : Opt types} (hf : Format types f)
    (v : Value (doubleQuoted · >>= replacement) o.type)
    (h : ∀ l ∈ f, ¬ unsetText o.name.text <:+: l) (habsent : readFile types f o.name.text = none) :
    ¬ Updates f (.enableOptIfDisabled o v) := by
  intro hupdates
  have hreads := hupdates.reads
  rw [(apply_of_no_line hf v h).2.1, Call.update, if_pos (.inl habsent)] at hreads
  have hname := congrFun hreads o.name.text
  rw [habsent, Function.update_self] at hname
  cases hname

/-- An option whose line has the name of another in it is lost with the deletion. -/
theorem readFile_eq_none_of_word {f : File} {l l' k : Text} {o : Opt types} {d : Def}
    (hf : Format types f) (hl : l ∈ f) (hword : hasWord wordChar o.name.text l = true)
    (hread : confReadLine types (l ++ ['\n']) = some (k, d)) (hl' : '\n' ∉ l')
    (ho : lineOption l' = some o.name.text) (hk : k ≠ o.name.text) :
    readFile types (sedDelete o.name.text f ++ [l']) k = none := by
  refine readFile_eq_none (fun l'' h => ?_) fun l'' h hk' => ?_
  · rcases List.mem_append.mp h with h | h
    · exact (hf.deleted _).oneLine l'' h
    · exact List.mem_singleton.mp h ▸ hl'
  · rcases List.mem_append.mp h with h | h
    · -- no other line than the deleted one is the option's
      obtain ⟨hmem, hnot⟩ := List.mem_filter.mp h
      have hne : l'' ≠ l := by
        rintro rfl
        rw [hword] at hnot
        exact absurd hnot nofun
      obtain ⟨a, b, rfl⟩ := List.append_of_mem hl
      refine hf.option_ne (fst_of_confReadLine hread) l'' ?_ hk'
      rw [List.mem_append, List.mem_cons] at hmem
      rw [List.mem_append]
      exact hmem.imp_right fun h => h.resolve_left hne
    · rw [List.mem_singleton.mp h, ho] at hk'
      exact hk (Option.some.inj hk').symm

/-- For a deletion the condition is exact. -/
theorem updates_setOpt_iff {f : File} {o : Opt types} (hf : Format types f)
    (v : Value doubleQuoted o.type) : Updates f (.setOpt o v) ↔ Safe f (.setOpt o v) := by
  refine ⟨fun hupdates l hl hword k d hread => ?_, fun h => (step_setOpt hf v h).2⟩
  by_contra hk
  have hnone := readFile_eq_none_of_word hf hl hword hread
    (lineOk_assign (newline_not_mem_of_doubleQuoted v.quoting_arg) v.reads).oneLine
    (lineOption_assignText _ v.text) hk
  refine readFile_ne_none hf.oneLine hl hread ?_
  have hreads := congrFun hupdates.reads k
  rw [Call.update, Function.update_of_ne hk] at hreads
  exact hreads.symm.trans hnone

/-! ### The option of `linux_ipip.mk` -/

def ipipTypes (t : Text) : Option SymType :=
  if t = "CONFIG_NET_IPIP".toList then some .tristate else none

def ipip : Opt ipipTypes where
  name := ⟨"CONFIG_NET_IPIP".toList, nofun, List.all_eq_true.mp rfl⟩
  type := .tristate
  wordChar_of_mem := List.all_eq_true.mp rfl
  types_name := rfl

/-- `m` -/
def ipipModule : Value (doubleQuoted · >>= replacement) ipip.type where
  arg := "m".toList
  text := "m".toList
  quoting_arg := rfl
  d := .tri .mod
  reads := rfl

def unsetFile : WrittenFile ipipTypes where
  lines := [.option ipip.name (.tristate .no)]
  ok l hl := by
    rw [List.mem_singleton.mp hl]
    refine ⟨rfl, trivial, ?_⟩
    show '\n' ∉ printedValue _
    decide
  nodup := List.nodup_singleton _

def emptyFile : WrittenFile ipipTypes where
  lines := []
  ok := nofun
  nodup := List.nodup_nil

theorem updates_ipip :
    Along Call.apply Updates unsetFile.file [.enableOptIfDisabled ipip ipipModule, .disableOpt ipip] ∧
      readFile ipipTypes (final Call.apply unsetFile.file
        [.enableOptIfDisabled ipip ipipModule, .disableOpt ipip]) =
        [.enableOptIfDisabled ipip ipipModule, .disableOpt ipip].foldl Call.update
          (confReadSimple ipipTypes unsetFile.text) := by
  refine updates_of_safe unsetFile ⟨⟨.inl ?_, fun l hl _ => ?_, ?_⟩, fun l _ _ k d hread => ?_, trivial⟩
  · exact List.mem_singleton_self _
  · exact List.mem_singleton.mp hl
  · intro hin
    exact absurd (hin.subset (List.mem_cons_self ..)) (by decide)
  · obtain ⟨type, htype, -⟩ := ofType_of_confReadLine hread
    unfold ipipTypes at htype
    split at htype
    · assumption
    · cases htype

/-- The macro for a file without the option. -/
theorem not_updates_empty :
    ¬ Along Call.apply Updates emptyFile.file [.enableOptIfDisabled ipip ipipModule] := by
  intro h
  exact not_updates_of_absent emptyFile.format ipipModule nofun rfl h.1

end Dir842.Kconfig
