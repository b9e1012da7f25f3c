import Dir842.Profile.ParseProfile

/-!
# The line of an update (`update_profile` in `fixup-profiles.lua`)

What the two readers make of the line that is written for an option, and which values it carries.
-/

namespace Dir842.Profile

open Kconfig

/-- `%d` -/
def decText (i : Int) : Text :=
  if i < 0 then '-' :: Nat.toDigits 10 i.natAbs else Nat.toDigits 10 i.natAbs

def updateLine (key : Text) : Value → Text
  | .bool false => "# ".toList ++ key ++ " is not set".toList
  | .bool true => key ++ '=' :: "y".toList
  | .int i => key ++ '=' :: decText i
  | .str s => key ++ '=' :: ('"' :: s ++ ['"'])

/-- An entry of the table that a fixer returns, for an option of the symbol table. -/
structure Update (types : Text → Option SymType) where
  name : Name
  type : SymType
  types_name : types name.text = some type
  value : Value
  /-- Lua has integers of 64 bits. -/
  inInt64_of_int : ∀ i, value = .int i → Lua.inInt64 i

variable {types : Text → Option SymType}

def Update.line (u : Update types) : Text := updateLine u.name.text u.value

/-- The values that an appended line carries over to both readers, after a file that gives `old`. -/
def Carried (type : SymType) (old : Option Def) : Value → Prop
  | .bool _ => type = .boolean ∨ type = .tristate
  | .int i => type = .int ∨ (type = .hex ∧ 0 ≤ i ∧ i < 10)
  | .str s => type = .string ∧ s ≠ [] ∧ '"' ∉ s ∧ '\n' ∉ s ∧
    -- a backslash before the closing quote makes Kconfig refuse the line and keep what it has
    ('\\' ∉ s ∨ (unquote (s ++ ['"']) = none ∧ old = some (.val s)))

/-! ### What is read from the line -/

/-- What `parse_profile` makes of an appended value. -/
def parsedUpdate : Value → Option Value
  | .bool b => some (.bool b)
  | .int i => parseValue (decText i)
  | .str s => parseValue ('"' :: s ++ ['"'])

theorem parseLine_line (u : Update types) :
    parseLine u.line =
      if KeyName u.name.text then some (u.name.text, parsedUpdate u.value) else none := by
  unfold Update.line
  rcases u.value with (_ | _) | i | s
  · exact parseLine_unset u.name
  · exact parseLine_assign u.name "y".toList
  · exact parseLine_assign u.name (decText i)
  · exact parseLine_assign u.name ('"' :: s ++ ['"'])

theorem fst_of_parseLine (u : Update types) : ∀ e ∈ parseLine u.line, e.1 = u.name.text := by
  rintro e he
  rw [parseLine_line] at he
  split at he
  · cases he
    rfl
  · cases he

/-- What Kconfig makes of an appended value. -/
def readUpdate (type : SymType) : Value → Option Def
  | .bool false => if type = .boolean ∨ type = .tristate then some (.tri .no) else none
  | .bool true => confSetSymVal type "y".toList
  | .int i => confSetSymVal type (decText i)
  | .str s => confSetSymVal type ('"' :: s ++ ['"'])

def decLit (i : Int) : IntLit where
  neg := i < 0
  digits := Nat.toDigits 10 i.natAbs
  ne_nil := Nat.toDigits_ne_nil
  isDigit_of_mem := isDigit_toDigits i.natAbs

theorem decText_eq (i : Int) : decText i = (decLit i).text := by
  simp [decText, decLit, IntLit.text]

theorem val_decLit (i : Int) : (decLit i).val = i := by
  simp only [decLit, IntLit.val, Nat.ofDigitChars_ten_toDigits, decide_eq_true_eq]
  split
  · omega
  · omega

theorem not_mem_decText {c : Char} (hdigit : c.isDigit = false) (hminus : c ≠ '-') (i : Int) :
    c ∉ decText i := by
  rw [decText_eq]
  exact (decLit i).not_mem_text hdigit hminus

theorem confReadLine_line (u : Update types) (hu : u.value.OneLine) :
    confReadLine types (u.line ++ ['\n']) =
      (readUpdate u.type u.value).map fun d => (u.name.text, d) := by
  unfold Update.line
  rcases hv : u.value with (_ | _) | i | s
  · refine (confReadLine_unset u.types_name ['\n']).trans ?_
    unfold readUpdate
    split
    · rfl
    · rfl
  · exact confReadLine_assign u.types_name (by decide) (by decide)
  · exact confReadLine_assign u.types_name (not_mem_decText rfl (by decide) i) fun h =>
      not_mem_decText rfl (by decide) i (List.mem_of_getLast? h)
  · rw [hv] at hu
    have hs : '\n' ∉ s := hu
    refine confReadLine_assign u.types_name (by simpa using hs) ?_
    rw [List.getLast?_concat]
    decide

def Update.reads (u : Update types) : Option (Text × Option Def) :=
  (readUpdate u.type u.value).map fun d => (u.name.text, some d)

theorem fst_of_reads (u : Update types) : ∀ e ∈ u.reads, e.1 = u.name.text := by
  rintro e he
  obtain ⟨d, -, rfl⟩ := Option.map_eq_some_iff.mp he
  rfl

theorem not_mem_line (u : Update types) (hu : u.value.OneLine) : '\n' ∉ u.line := by
  have hname := u.name.not_mem (c := '\n') rfl
  unfold Update.line
  rcases hv : u.value with (_ | _) | i | s
  · simp [updateLine, hname]
  · simp [updateLine, hname]
  · simpa [updateLine, hname] using not_mem_decText rfl (by decide) i
  · rw [hv] at hu
    have hs : '\n' ∉ s := hu
    simpa [updateLine, hname] using hs

theorem line_ne_nil (u : Update types) : u.line ≠ [] := by
  unfold Update.line
  rcases u.value with (_ | _) | i | s
  · simp [updateLine]
  · simp [updateLine]
  · simp [updateLine]
  · simp [updateLine]

/-! ### Values that are carried over -/

theorem parseValue_decText {i : Int} (hi : Lua.inInt64 i) :
    parseValue (decText i) = some (.int i) := by
  have hval := val_decLit i
  have hsame := (same_int (decLit i)).mpr (hval.symm ▸ hi)
  rw [← decText_eq] at hsame
  rcases hparse : parseValue (decText i) with _ | b | j | s
  · simp [hparse, Same] at hsame
  · simp [hparse, Same] at hsame
  · rw [hparse] at hsame
    have hj : symNumber .int (decText i) = j := hsame.2
    rw [decText_eq, symNumber_int, hval] at hj
    rw [hj]
  · simp [hparse, Same] at hsame

theorem parsedUpdate_iff (u : Update types) :
    parsedUpdate u.value = some u.value ↔ ∀ s, u.value = .str s → s ≠ [] ∧ '"' ∉ s := by
  rcases hv : u.value with b | i | s
  · exact iff_of_true rfl fun s hs => by cases hs
  · exact iff_of_true (parseValue_decText (u.inInt64_of_int i hv)) fun s hs => by cases hs
  · have hmatch : parsedUpdate (.str s) = some (.str s) ↔
        (s ++ ['"']).takeWhile (· ≠ '"') = s ∧ s ≠ [] := by
      rw [parsedUpdate, parseValue_quoted, List.cons_append, ← matchQuoted_eq_some]
      cases matchQuoted ('"' :: (s ++ ['"'])) with
      | none => simp
      | some t => simp
    rw [hmatch]
    constructor
    · rintro ⟨htake, hne⟩ t ht
      cases ht
      refine ⟨hne, fun hmem => ?_⟩
      rw [← htake] at hmem
      simpa using List.mem_takeWhile_imp hmem
    · intro h
      obtain ⟨hne, hquote⟩ := h s rfl
      exact ⟨takeWhile_quote hquote [], hne⟩

theorem symStringValid_decText (i : Int) : symStringValid .int (decText i) = true := by
  have hdigit : ∀ c ∈ (decLit i).digits, c.isDigit = true := (decLit i).isDigit_of_mem
  have hzero : ∀ cs, (decLit i).digits = '0' :: cs → cs = [] := by
    intro cs hcs
    have hn := head?_toDigits i.natAbs (by rw [show Nat.toDigits 10 i.natAbs = _ from hcs]; rfl)
    have hdigits : (decLit i).digits = ['0'] := by simp [decLit, hn]
    rw [hdigits] at hcs
    exact (List.cons.inj hcs).2.symm
  have htail : (if (decText i).head? = some '-' then (decText i).tail else decText i) =
      (decLit i).digits := by
    rw [decText_eq, IntLit.text]
    cases (decLit i).neg with
    | true => rfl
    | false =>
      refine if_neg fun h => ?_
      exact Bool.false_ne_true (hdigit '-' (List.mem_of_mem_head? h))
  simp only [symStringValid, htail]
  rcases hcs : (decLit i).digits with _ | ⟨c, cs⟩
  · exact absurd hcs (decLit i).ne_nil
  · rw [hcs] at hdigit
    obtain ⟨hc, hcs'⟩ := List.forall_mem_cons.mp hdigit
    have hlead : c = '0' → cs = [] := by
      rintro rfl
      exact hzero cs hcs
    simpa [hc, List.all_eq_true.mpr hcs'] using Decidable.not_or_of_imp hlead

theorem ofType_of_readUpdate {type : SymType} {v : Value} {d : Def}
    (h : readUpdate type v = some d) : OfType type d := by
  rcases v with (_ | _) | i | s
  · simp only [readUpdate] at h
    split at h
    · rename_i htype
      cases h
      exact htype
    · cases h
  all_goals
    simp only [readUpdate] at h
    exact ofType_of_confSetSymVal h

theorem same_readUpdate_bool {type : SymType} {old : Option Def}
    (hold : ∀ d ∈ old, OfType type d) (b : Bool) :
    Same type ((readUpdate type (.bool b)).or old) (some (.bool b)) ↔
      Carried type old (.bool b) := by
  by_cases htype : type = .boolean ∨ type = .tristate
  · have hread : readUpdate type (.bool b) = some (.tri (if b then .yes else .no)) := by
      rcases htype with rfl | rfl
      · cases b <;> rfl
      · cases b <;> rfl
    rw [hread]
    exact iff_of_true rfl htype
  · refine iff_of_false (fun h => htype (type_of_same_bool ?_ h)) htype
    intro d hd
    rcases Option.or_eq_some_iff.mp hd with hread | ⟨-, hold'⟩
    · exact ofType_of_readUpdate hread
    · exact hold d hold'

/-- What is written as decimal and read as hexadecimal. -/
def hexLit (n : Nat) : HexLit where
  pre := .none
  digits := Nat.toDigits 10 n
  ne_nil := Nat.toDigits_ne_nil
  isXDigit_of_mem c hc := by
    simp [isXDigit, isDigit_toDigits n c hc]

theorem decText_natCast (n : Nat) : decText n = (hexLit n).text := by
  have hneg : ¬ (n : Int) < 0 := by omega
  simp [decText, hneg, hexLit, HexLit.text, HexPrefix.text]

theorem val_hexLit_iff (n : Nat) : (hexLit n).val = n ↔ n < 10 := by
  have hdigit := isDigit_toDigits n
  have heq := ofDigitChars_eq_iff hdigit
  have hle := ofDigitChars_le hdigit
  rw [Nat.ofDigitChars_ten_toDigits] at heq hle
  have hval : (hexLit n).val = ofXDigits (Nat.toDigits 10 n) := rfl
  rw [hval, eq_comm, heq]
  refine ⟨fun h => by omega, fun h => ?_⟩
  rw [Nat.toDigits_of_lt_base h] at hdigit ⊢
  have hc := xDigitVal_of_isDigit (hdigit n.digitChar (by simp))
  have hconcat := ofXDigits_concat [] n.digitChar
  rw [List.nil_append] at hconcat
  have hnil : ofXDigits [] = 0 := rfl
  omega

theorem readUpdate_hex_natCast (n : Nat) :
    readUpdate .hex (.int n) = some (.val (hexLit n).text) := by
  rw [readUpdate, decText_natCast]
  exact if_pos (symStringValid_hex (hexLit n))

theorem readUpdate_hex_of_neg {i : Int} (hi : i < 0) : readUpdate .hex (.int i) = none := by
  have hvalid : symStringValid .hex ('-' :: Nat.toDigits 10 i.natAbs) = false := by
    simp [symStringValid, stripHexPrefix, isXDigit]
  rw [readUpdate, decText, if_pos hi]
  simp [confSetSymVal, hvalid]

theorem same_readUpdate_int (type : SymType) (old : Option Def) (i : Int) :
    Same type ((readUpdate type (.int i)).or old) (some (.int i)) ↔
      Carried type old (.int i) := by
  by_cases htype : type = .int ∨ type = .hex
  · rcases htype with rfl | rfl
    · have hread : readUpdate .int (.int i) = some (.val (decText i)) :=
        if_pos (symStringValid_decText i)
      rw [hread]
      refine iff_of_true ⟨.inl rfl, ?_⟩ (.inl rfl)
      rw [decText_eq, symNumber_int, val_decLit]
    · rcases lt_or_ge i 0 with hneg | hpos
      · rw [readUpdate_hex_of_neg hneg]
        refine iff_of_false ?_ (by simp [Carried]; omega)
        rcases old with _ | (t | t)
        · exact id
        · exact id
        · rintro ⟨-, ht⟩
          have hnat : symNumber .hex t = (ofXDigits (stripHexPrefix t) : Int) := rfl
          omega
      · obtain ⟨n, rfl⟩ := Int.eq_ofNat_of_zero_le hpos
        have hsame : Same .hex (some (.val (hexLit n).text)) (some (.int n)) ↔
            (hexLit n).val = n := by
          simp [Same, symNumber_hex]
        have hcarried : Carried .hex old (.int n) ↔ n < 10 := by
          simp [Carried]
        rw [readUpdate_hex_natCast, Option.some_or, hsame, hcarried, val_hexLit_iff]
  · exact iff_of_false (fun h => htype (type_of_same_int h)) fun h => htype (h.imp_right And.left)

theorem same_readUpdate_str (type : SymType) (old : Option Def) {s : Text}
    (hs : s ≠ [] ∧ '"' ∉ s ∧ '\n' ∉ s) :
    Same type ((readUpdate type (.str s)).or old) (some (.str s)) ↔
      Carried type old (.str s) := by
  by_cases htype : type = .string
  · subst htype
    have hcarried : Carried .string old (.str s) ↔
        '\\' ∉ s ∨ (unquote (s ++ ['"']) = none ∧ old = some (.val s)) := by
      simp [Carried, hs]
    have hread : readUpdate .string (.str s) = (unquote (s ++ ['"'])).map .val := rfl
    rw [hcarried, hread]
    by_cases hslash : '\\' ∈ s
    · cases hunquote : unquote (s ++ ['"']) with
      | none =>
        rcases old with _ | (t | t)
        · simp [Same, hslash]
        · simp [Same, hslash]
        · simp [Same, hslash]
      | some t =>
        have hne : t ≠ s := by
          rintro rfl
          exact unquote_ne_self hs.2.1 hslash [] hunquote
        simp [Same, hslash, hne]
    · rw [unquote_of_not_mem hs.2.1 hslash]
      exact iff_of_true ⟨rfl, rfl⟩ (.inl hslash)
  · exact iff_of_false (fun h => htype (type_of_same_str h)) fun h => htype h.1

/-- What the two readers have to give for one update. -/
theorem carried_iff (u : Update types) {old : Option Def} (hold : ∀ d ∈ old, OfType u.type d) :
    (u.value.OneLine ∧ parsedUpdate u.value = some u.value ∧
      Same u.type ((readUpdate u.type u.value).or old) (some u.value)) ↔
      Carried u.type old u.value := by
  rw [parsedUpdate_iff]
  rcases hv : u.value with b | i | s
  · simp [Value.OneLine, same_readUpdate_bool hold]
  · simp [Value.OneLine, same_readUpdate_int]
  · constructor
    · rintro ⟨hline, hquote, hsame⟩
      obtain ⟨hne, hquote⟩ := hquote s rfl
      exact (same_readUpdate_str _ _ ⟨hne, hquote, hline⟩).mp hsame
    · intro h
      have hs : s ≠ [] ∧ '"' ∉ s ∧ '\n' ∉ s := ⟨h.2.1, h.2.2.1, h.2.2.2.1⟩
      refine ⟨hs.2.2, ?_, (same_readUpdate_str _ _ hs).mpr h⟩
      rintro t ht
      cases ht
      exact ⟨hs.1, hs.2.1⟩

/-! ### Lines that are joined to an unfinished one -/

theorem mem_line (u : Update types) : ∃ c ∈ u.line, c = '=' ∨ c = '#' := by
  unfold Update.line
  rcases u.value with (_ | _) | i | s
  · exact ⟨'#', by simp [updateLine], .inr rfl⟩
  · exact ⟨'=', by simp [updateLine], .inl rfl⟩
  · exact ⟨'=', by simp [updateLine], .inl rfl⟩
  · exact ⟨'=', by simp [updateLine], .inl rfl⟩

theorem head?_line (u : Update types) : u.line.head? ≠ some '"' := by
  have hname : ∀ t, (u.name.text ++ t).head? ≠ some '"' := by
    intro t
    rw [List.head?_append_of_ne_nil _ u.name.ne_nil]
    exact fun h => u.name.not_mem rfl (List.mem_of_mem_head? h)
  unfold Update.line
  rcases u.value with (_ | _) | i | s
  · simp [updateLine]
  · exact hname _
  · exact hname _
  · exact hname _

/-- A value that goes on with the next line is neither `y` nor a number. -/
theorem parseValue_append_line (p : Text) (u : Update types) :
    parseValue (p ++ u.line) = (matchQuoted (p ++ u.line)).map .str := by
  obtain ⟨c, hmem, hc⟩ := mem_line u
  have hchar : Lua.numeralChar c = false := by
    rcases hc with rfl | rfl
    · rfl
    · rfl
  have hy : p ++ u.line ≠ "y".toList := by
    intro hy
    have hcy : c ∈ "y".toList := hy ▸ List.mem_append_right _ hmem
    rcases hc with rfl | rfl
    · exact absurd hcy (by decide)
    · exact absurd hcy (by decide)
  rw [parseValue, if_neg hy, Lua.toNumber_none_of_mem (List.mem_append_right _ hmem) hchar]

/-- It is lost, unless its quotes end it. -/
theorem parseValue_joined (v : SymValue) (u : Update types) {w : Value}
    (h : parseValue (printedValue v ++ u.line) = some w) : parseValue (printedValue v) = some w := by
  rw [parseValue_append_line] at h
  have hplain : v.type ≠ .string → matchQuoted (printedValue v ++ u.line) = none := by
    refine fun htype => matchQuoted_of_head fun hhead => ?_
    rcases List.eq_nil_or_concat (printedValue v) with hnil | ⟨_, _, hconcat⟩
    · rw [hnil, List.nil_append] at hhead
      exact head?_line u hhead
    · rw [List.head?_append_of_ne_nil _ (by simp [hconcat])] at hhead
      exact not_mem_printedValue htype (List.mem_of_mem_head? hhead)
  rcases v with b | t | l | l | s
  · simp [hplain (by simp [SymValue.type])] at h
  · simp [hplain (by simp [SymValue.type])] at h
  · simp [hplain (by simp [SymValue.type])] at h
  · simp [hplain (by simp [SymValue.type])] at h
  · obtain ⟨t, ht, rfl⟩ := Option.map_eq_some_iff.mp h
    have hprinted : printedValue (.string s) = '"' :: escapeBody s ++ ['"'] := rfl
    rw [hprinted] at ht ⊢
    rw [parseValue_quoted, List.cons_append]
    rw [List.cons_append, List.cons_append, matchQuoted_eq_some] at ht
    refine Option.map_eq_some_iff.mpr ⟨t, matchQuoted_eq_some.mpr ⟨?_, ht.2⟩, rfl⟩
    rw [← ht.1]
    exact (Scan.takeWhile_append_of_mem (c := '"') (by simp) (by simp) _).symm

theorem parseLine_joined_hash {t : Text} (u : Update types) :
    parseLine ('#' :: t ++ u.line) = none := by
  have hunset : matchUnset ('#' :: t ++ u.line) = none := by
    rcases hmatch : matchUnset ('#' :: t ++ u.line) with _ | k
    · rfl
    · obtain ⟨hline, hkey⟩ := matchUnset_eq_some hmatch
      obtain ⟨c, hmem, hc⟩ := mem_line u
      have hrest : t ++ u.line = ' ' :: k ++ " is not set".toList := (List.cons.inj hline).2
      have hct : c ∈ ' ' :: k ++ " is not set".toList := hrest ▸ List.mem_append_right _ hmem
      have hck : c ∉ k := fun h => by
        rcases hc with rfl | rfl
        · exact Bool.false_ne_true (hkey _ h)
        · exact Bool.false_ne_true (hkey _ h)
      rcases hc with rfl | rfl
      · simp [hck] at hct
      · simp [hck] at hct
  have hassign : matchAssign ('#' :: t ++ u.line) = none := matchAssign_hash (t ++ u.line)
  rw [parseLine, hassign, hunset]
  rfl

section joined
variable (u : Update types) {name : Text}

/-- The joined line assigns to the option that the unfinished one assigned to. -/
theorem parseLine_joined_option (hname : KeyName name ∧ name ≠ []) (p : Text) :
    parseLine (name ++ '=' :: (p ++ u.line)) =
      some (name, (matchQuoted (p ++ u.line)).map .str) := by
  rw [parseLine, matchAssign_key hname.1 hname.2, ← parseValue_append_line]

theorem parseLine_option_key (hname : KeyName name ∧ name ≠ []) (p : Text) :
    parseLine (name ++ '=' :: p) = some (name, parseValue p) := by
  rw [parseLine, matchAssign_key hname.1 hname.2]

/-- Other names are none to the patterns. -/
theorem parseLine_option_none (heq : '=' ∉ name) (hhash : name.head? ≠ some '#')
    (hname : ¬ (KeyName name ∧ name ≠ [])) (t : Text) : parseLine (name ++ '=' :: t) = none := by
  have hassign : matchAssign (name ++ '=' :: t) = none := by
    rcases hmatch : matchAssign (name ++ '=' :: t) with _ | ⟨k, v⟩
    · rfl
    · obtain ⟨hline, hkey, hne⟩ := matchAssign_eq_some hmatch
      have hsplit := congrArg (splitFirst '=') hline
      have hk : '=' ∉ k := fun h => absurd (hkey '=' h) (by decide)
      rw [splitFirst_append heq, splitFirst_append hk] at hsplit
      cases hsplit
      exact absurd ⟨hkey, hne⟩ hname
  have hhead : (name ++ '=' :: t).head? ≠ some '#' := by
    rw [List.head?_append]
    cases hc : name.head? with
    | none => simp
    | some c => simpa [hc] using hhash
  rw [parseLine, hassign, matchUnset_of_head hhead]
  rfl

theorem parseLine_fragment {l : Text} (heq : '=' ∉ l) (hhash : l.head? ≠ some '#') :
    parseLine l = none := by
  have hassign : matchAssign l = none := by
    rcases hmatch : matchAssign l with _ | ⟨k, v⟩
    · rfl
    · obtain ⟨rfl, -⟩ := matchAssign_eq_some hmatch
      simp at heq
  rw [parseLine, hassign, matchUnset_of_head hhash]
  rfl

/-- The text behind the equals sign, for a value that is assigned. -/
def valueText : Value → Text
  | .bool _ => "y".toList
  | .int i => decText i
  | .str s => '"' :: s ++ ['"']

theorem line_assign (hu : u.value ≠ .bool false) :
    u.line = u.name.text ++ '=' :: valueText u.value := by
  unfold Update.line
  rcases hv : u.value with (_ | _) | i | s
  · exact absurd hv hu
  · rfl
  · rfl
  · rfl

theorem parseValue_valueText {v : Value} (hv : v ≠ .bool false) :
    parseValue (valueText v) = parsedUpdate v := by
  rcases v with (_ | _) | i | s
  · exact absurd rfl hv
  · rfl
  · rfl
  · rfl

theorem readUpdate_valueText {v : Value} (hv : v ≠ .bool false) (type : SymType) :
    confSetSymVal type (valueText v) = readUpdate type v := by
  rcases v with (_ | _) | i | s
  · exact absurd rfl hv
  · rfl
  · rfl
  · rfl

theorem line_unset (hu : u.value = .bool false) :
    u.line = "# ".toList ++ u.name.text ++ " is not set".toList := by
  unfold Update.line
  rw [hu]
  rfl

theorem not_mem_line_unset (hu : u.value = .bool false) : '=' ∉ u.line := by
  rw [line_unset u hu]
  simp [u.name.not_mem (c := '=') rfl]

theorem head?_append_name {l : Text} (hhash : l.head? ≠ some '#') (t : Text) :
    (l ++ u.name.text ++ t).head? ≠ some '#' := by
  rw [List.append_assoc, List.head?_append]
  cases hc : l.head? with
  | some c => simpa [hc] using hhash
  | none =>
    rw [Option.none_or, List.head?_append_of_ne_nil _ u.name.ne_nil]
    exact head?_nameText u.name

/-- An assignment behind a fragment is one to a longer name, of which the patterns know some. -/
theorem parseLine_joined_fragment {l : Text} (heq : '=' ∉ l) (hhash : l.head? ≠ some '#')
    (hu : u.value ≠ .bool false) :
    parseLine (l ++ u.line) =
      if KeyName (l ++ u.name.text) then some (l ++ u.name.text, parsedUpdate u.value) else none := by
  have hne : l ++ u.name.text ≠ [] := by simp [u.name.ne_nil]
  rw [line_assign u hu, ← List.append_assoc]
  split
  · rename_i hkey
    rw [parseLine_option_key ⟨hkey, hne⟩, parseValue_valueText hu]
  · rename_i hkey
    refine parseLine_option_none ?_ ?_ (fun h => hkey h.1) _
    · simpa using ⟨heq, u.name.not_mem (c := '=') rfl⟩
    · simpa using head?_append_name u hhash []

theorem parseLine_joined_fragment_unset {l : Text} (heq : '=' ∉ l) (hhash : l.head? ≠ some '#')
    (hne : l ≠ []) (hu : u.value = .bool false) : parseLine (l ++ u.line) = none := by
  refine parseLine_fragment ?_ ?_
  · simpa using ⟨heq, not_mem_line_unset u hu⟩
  · rwa [List.head?_append_of_ne_nil _ hne]

/-! What Kconfig makes of it. -/

theorem getLast?_line : u.line.getLast? ≠ some '\r' := by
  have hunset : " is not set".toList ≠ [] := by decide
  unfold Update.line
  rcases hv : u.value with (_ | _) | i | s
  · rw [updateLine, List.getLast?_append_of_ne_nil _ hunset]
    decide
  · simp [updateLine, List.getLast?_append]
  · intro h
    rw [updateLine, List.getLast?_append, List.getLast?_cons] at h
    cases hi : (decText i).getLast? with
    | none => simp [hi] at h
    | some c =>
      obtain rfl : c = '\r' := by simpa [hi] using h
      exact not_mem_decText rfl (by decide) i (List.mem_of_getLast? hi)
  · have hquote : updateLine u.name.text (.str s) = u.name.text ++ '=' :: '"' :: s ++ ['"'] := by
      simp [updateLine]
    rw [hquote, List.getLast?_concat]
    decide

theorem confReadLine_eq {line : Text} (heq : '=' ∉ name) (hhash : name.head? ≠ some '#') (p : Text)
    (hline : line = name ++ '=' :: p) :
    confReadLine types line = (types name).bind fun type =>
      (confSetSymVal type (chomp p)).map fun d => (name, d) := by
  have hhead : line.head? ≠ some '#' := by
    rw [hline, List.head?_append]
    cases hc : name.head? with
    | none => simp
    | some c => simpa [hc] using hhash
  rw [confReadLine, if_neg hhead, hline, splitFirst_append heq]
  rfl

theorem splitFirst_none {c : Char} {s : Text} (hs : c ∉ s) : splitFirst c s = none := by
  induction s with
  | nil => rfl
  | cons d s ih =>
    rw [List.mem_cons, not_or] at hs
    simp [splitFirst, Ne.symm hs.1, ih hs.2]

theorem confReadLine_none {line : Text} (heq : '=' ∉ line) (hhash : line.head? ≠ some '#') :
    confReadLine types line = none := by
  rw [confReadLine, if_neg hhash, splitFirst_none heq]
  rfl

theorem confReadLine_option_unfinished (heq : '=' ∉ name) (hhash : name.head? ≠ some '#') {p : Text}
    (hp : '\n' ∉ p) :
    confReadLine types (name ++ '=' :: p) = (types name).bind fun type =>
      (confSetSymVal type p).map fun d => (name, d) := by
  have hchomp : chomp p = p := by
    rw [chomp, splitFirst_none hp]
  rw [confReadLine_eq heq hhash p rfl, hchomp]

theorem confReadLine_joined_option (heq : '=' ∉ name) (hhash : name.head? ≠ some '#') {p : Text}
    (hp : '\n' ∉ p) (hu : u.value.OneLine) :
    confReadLine types (name ++ '=' :: (p ++ u.line) ++ ['\n']) = (types name).bind fun type =>
      (confSetSymVal type (p ++ u.line)).map fun d => (name, d) := by
  have hlast : (p ++ u.line).getLast? ≠ some '\r' := by
    rw [List.getLast?_append_of_ne_nil _ (line_ne_nil u)]
    exact getLast?_line u
  have hmem : '\n' ∉ p ++ u.line := by simpa using ⟨hp, not_mem_line u hu⟩
  rw [confReadLine_eq heq hhash (p ++ u.line ++ ['\n']) (by simp), chomp_newline hmem hlast]

theorem confReadLine_joined_fragment {l : Text} (heq : '=' ∉ l) (hhash : l.head? ≠ some '#')
    (hu : u.value ≠ .bool false) (hline : u.value.OneLine) :
    confReadLine types (l ++ u.line ++ ['\n']) =
      (types (l ++ u.name.text)).bind fun type =>
        (readUpdate type u.value).map fun d => (l ++ u.name.text, d) := by
  have hname : '=' ∉ l ++ u.name.text := by simpa using ⟨heq, u.name.not_mem (c := '=') rfl⟩
  have hhead : (l ++ u.name.text).head? ≠ some '#' := by simpa using head?_append_name u hhash []
  have hlines := line_assign u hu
  have hmem : '\n' ∉ valueText u.value := fun h =>
    not_mem_line u hline (hlines ▸ List.mem_append_right _ (List.mem_cons_of_mem _ h))
  have hlast : (valueText u.value).getLast? ≠ some '\r' := by
    have hget := getLast?_line u
    intro h
    rw [hlines, List.getLast?_append, List.getLast?_cons, h] at hget
    exact hget rfl
  rw [confReadLine_eq hname hhead (valueText u.value ++ ['\n']) (by rw [hlines]; simp),
    chomp_newline hmem hlast]
  simp only [readUpdate_valueText hu]

theorem confReadLine_joined_fragment_unset {l : Text} (heq : '=' ∉ l) (hhash : l.head? ≠ some '#')
    (hne : l ≠ []) (hu : u.value = .bool false) :
    confReadLine types (l ++ u.line ++ ['\n']) = none := by
  refine confReadLine_none ?_ ?_
  · simpa using ⟨heq, not_mem_line_unset u hu⟩
  · rwa [List.append_assoc, List.head?_append_of_ne_nil _ hne]

end joined

/-- The option that a line with a hash says is not set. -/
def readUnset (types : Text → Option SymType) (line : Text) : Option Text :=
  (unsetName (line.drop 2)).filter fun n => types n = some .boolean ∨ types n = some .tristate

theorem confReadLine_hash (t : Text) :
    confReadLine types ('#' :: t) = (readUnset types ('#' :: t)).map fun n => (n, .tri .no) := by
  have hhead : ('#' :: t).head? = some '#' := rfl
  rw [confReadLine, if_pos hhead, readUnset]
  cases unsetName (('#' :: t).drop 2) with
  | none => rfl
  | some n =>
    cases htype : types n with
    | none => simp [htype]
    | some type => cases type <;> simp [htype]

theorem splitFirst_eq_some {c : Char} {s a b : Text} (h : splitFirst c s = some (a, b)) :
    s = a ++ c :: b ∧ c ∉ a := by
  induction s generalizing a with
  | nil => cases h
  | cons d s ih =>
    rw [splitFirst] at h
    split at h
    · rename_i hd
      cases h
      exact ⟨by rw [hd]; rfl, List.not_mem_nil⟩
    · rename_i hd
      obtain ⟨⟨a', b'⟩, hsplit, hr⟩ := Option.map_eq_some_iff.mp h
      cases hr
      obtain ⟨rfl, hc⟩ := ih hsplit
      exact ⟨rfl, by simpa using ⟨Ne.symm hd, hc⟩⟩

/-- The rest of a line with a hash does not matter behind what says that an option is not set. -/
theorem unsetName_append_right {t n : Text} (h : unsetName t = some n) (s : Text) :
    unsetName (t ++ s) = some n := by
  obtain ⟨⟨a, b⟩, hsplit, hname⟩ := Option.bind_eq_some_iff.mp h
  obtain ⟨rfl, ha⟩ := splitFirst_eq_some hsplit
  simp only at hname
  split at hname
  · rename_i hset
    cases hname
    have hprefix := (List.isPrefixOf_iff_prefix.mp hset).trans (List.prefix_append b s)
    rw [unsetName, List.append_assoc, List.cons_append, splitFirst_append ha, Option.bind_some]
    exact if_pos (List.isPrefixOf_iff_prefix.mpr hprefix)
  · cases hname

theorem readUnset_append {t n : Text} (h : readUnset types ('#' :: t) = some n) (s : Text) :
    readUnset types ('#' :: t ++ s) = some n := by
  obtain ⟨hname, htype⟩ := Option.filter_eq_some_iff.mp h
  refine Option.filter_eq_some_iff.mpr ⟨?_, htype⟩
  cases t with
  | nil => cases hname
  | cons c t => exact unsetName_append_right hname s

end Dir842.Profile
