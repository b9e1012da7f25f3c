import Mathlib.Data.List.Forall2
import Mathlib.Data.List.TakeWhile
import Dir842.Kconfig.Symbol
import Dir842.Lib.Json

/-!
# The printers of `conf_write_autoconf` (`confdata.c`)

`auto.conf`, `autoconf.h`, `auto.cmake` and `auto.json` are written symbol by symbol from one walk
over the symbol table. `CONFIG_` is empty in this tree.

The value of an `int` or `hex` symbol is any text here: it may come from a default, where
`sym_check_prop` takes any symbol of either type and only warns about other texts.
-/

namespace Dir842.Kconfig

open Words

structure Symbol where
  name : Option Name
  type : SymType
  /-- `SYMBOL_WRITE`, as `sym_calc_value` leaves it. -/
  write : Bool
  /-- `curr.tri` -/
  tri : Tristate
  /-- `curr.val` -/
  val : Text

/-- The symbols that the walk does not skip. -/
def written (syms : List Symbol) : List (Name × Symbol) :=
  syms.filterMap fun sym => if sym.write then sym.name.map fun n => (n, sym) else none

/-- The environment of the build, as the Makefile exports it. -/
structure Env where
  profileName : Text
  fwVersion : Text
  buildTime : Text

/-! ### The printers -/

/-- The text around a name and its value. -/
structure LineFormat where
  start : Text
  mid : Text
  stop : Text

def LineFormat.print (f : LineFormat) (d : Text × Text) : Text :=
  f.start ++ d.1 ++ f.mid ++ d.2 ++ f.stop

def confFormat : LineFormat := ⟨[], "=".toList, "\n".toList⟩
def headerFormat : LineFormat := ⟨"#define ".toList, " ".toList, "\n".toList⟩
def cmakeFormat : LineFormat := ⟨"set (".toList, " ".toList, ")\n".toList⟩
def jsonFormat : LineFormat := ⟨",\n\"".toList, "\":".toList, []⟩

/-- The name's suffix for a value of a bool or tristate symbol. -/
def flagSuffix (value : Text) : Option Text :=
  match value.head? with
  | some 'n' => none
  | some 'm' => some "_MODULE".toList
  | _ => some []

def hexPrefix (value : Text) : Text :=
  match value with
  | '0' :: 'x' :: _ | '0' :: 'X' :: _ => []
  | _ => "0x".toList

def isFlag : SymType → Bool
  | .boolean | .tristate => true
  | _ => false

/-- `kconfig_print_symbol` with the argument that leaves unset symbols out. -/
def kconfigPrintSymbol (name : Text) (type : SymType) (value : Text) : Option (Text × Text) :=
  if isFlag type ∧ value.head? = some 'n' then none else some (name, value)

def definePrintSymbol (yes : Text) (name : Text) (type : SymType) (value : Text) :
    Option (Text × Text) :=
  match type with
  | .boolean | .tristate => (flagSuffix value).map fun suffix => (name ++ suffix, yes)
  | .hex => some (name, hexPrefix value ++ value)
  | .string | .int => some (name, value)

def headerPrintSymbol := definePrintSymbol "1".toList

def cmakePrintSymbol := definePrintSymbol "TRUE".toList

/-- `%ld` -/
def longText (n : Int) : Text :=
  if n < 0 then '-' :: Nat.toDigits 10 n.natAbs else Nat.toDigits 10 n.toNat

/-- The text of a value, as `conf_write_symbol` passes it to a printer. -/
def Symbol.printedValue (sym : Symbol) : Text :=
  match sym.type with
  | .boolean | .tristate => triText sym.tri
  | .int | .hex => sym.val
  | .string => symEscapeStringValue sym.val

section printers
variable (longMax : Nat)

/-- `strtol` with base 16. -/
def strtol16 (value : Text) : Int :=
  let (neg, s) := splitSign (lstrip value)
  let n := ofXDigits ((stripHexPrefix s).takeWhile isXDigit)
  if neg then max (-(n : Int)) (-(longMax : Int) - 1) else (min n longMax : Nat)

/-- The blank after the colon is part of the value here. -/
def jsonPrintSymbol (name : Text) (type : SymType) (value : Text) : Option (Text × Text) :=
  match type with
  | .boolean | .tristate =>
    (flagSuffix value).map fun suffix => (name ++ suffix, " true".toList)
  | .hex => some (name, ' ' :: longText (strtol16 longMax value))
  | .string | .int => some (name, ' ' :: value)

/-- What one printer makes of the symbols. -/
def printed (print : Text → SymType → Text → Option (Text × Text)) (syms : List Symbol) :
    List (Text × Text) :=
  (written syms).filterMap fun s => print s.1.text s.2.type s.2.printedValue

def autoConf (heading : Text) (syms : List Symbol) : Text :=
  heading ++ (printed kconfigPrintSymbol syms).flatMap confFormat.print

def headerStart (env : Env) : Text :=
  "#ifndef BR2_AUTOHEADER_H\n".toList ++ "#define BR2_AUTOHEADER_H\n\n".toList ++
    "#define BR2_PROFILE_NAME \"".toList ++ env.profileName ++ "\"\n".toList ++
    "#define BR2_FW_VERSION \"".toList ++ env.fwVersion ++ "\"\n".toList ++
    "#define BR2_BUILD_TIME \"".toList ++ env.buildTime ++ "\"\n".toList

def headerEnd : Text := "\n#endif /* end of include guard: BR2_AUTOHEADER_H */\n".toList

def autoconfH (heading : Text) (env : Env) (syms : List Symbol) : Text :=
  heading ++ headerStart env ++ (printed headerPrintSymbol syms).flatMap headerFormat.print ++
    headerEnd

def autoCmake (heading : Text) (syms : List Symbol) : Text :=
  heading ++ (printed cmakePrintSymbol syms).flatMap cmakeFormat.print

def autoJson (env : Env) (syms : List Symbol) : Text :=
  "\x7b\n".toList ++ "\"BR2_PROFILE_NAME\": \"".toList ++ env.profileName ++ "\",\n".toList ++
    "\"BR2_FW_VERSION\": \"".toList ++ env.fwVersion ++ "\"".toList ++
    (printed (jsonPrintSymbol longMax) syms).flatMap jsonFormat.print ++ "\n\x7d\n".toList

end printers

/-! ### Agreement -/

def Symbol.isSet (sym : Symbol) : Bool := !(isFlag sym.type && sym.tri = .no)

/-- The name and the value under which a symbol that is set is to be found in `auto.json`. -/
inductive Member : Name × Symbol → Text × Json.Value → Prop
  | module {n : Name} {sym : Symbol} : isFlag sym.type → sym.tri = .mod →
    Member (n, sym) (n.text ++ "_MODULE".toList, .bool true)
  | yes {n : Name} {sym : Symbol} : isFlag sym.type → sym.tri = .yes →
    Member (n, sym) (n.text, .bool true)
  | int {n : Name} {sym : Symbol} (l : IntLit) : sym.type = .int → sym.val = l.text →
    Member (n, sym) (n.text, .num l.val 0)
  | hex {n : Name} {sym : Symbol} (l : HexLit) : sym.type = .hex → sym.val = l.text →
    Member (n, sym) (n.text, .num l.val 0)
  | string {n : Name} {sym : Symbol} : sym.type = .string →
    Member (n, sym) (n.text, .str sym.val)

/-- The value that the text of a definition stands for. -/
inductive Denotes (yes : Text) : Text → Json.Value → Prop
  | flag : Denotes yes yes (.bool true)
  | int (l : IntLit) : Denotes yes l.text (.num l.val 0)
  | hex (l : HexLit) : Denotes yes l.text (.num l.val 0)
  | string (s : Text) : Denotes yes (symEscapeStringValue s) (.str s)

def SameDefine (yes : Text) (d : Text × Text) (m : Text × Json.Value) : Prop :=
  d.1 = m.1 ∧ Denotes yes d.2 m.2

/-- In `auto.conf` a module keeps its name. -/
def SameConf (d : Text × Text) (m : Text × Json.Value) : Prop :=
  SameDefine "y".toList d m ∨
    d.1 ++ "_MODULE".toList = m.1 ∧ d.2 = "m".toList ∧ m.2 = .bool true

/-- The members for the environment, with the strings that its texts are between quotes. -/
inductive Env.Members (env : Env) : List (Text × Json.Value) → Prop
  | intro {p f : Text} : Json.stringBody (env.profileName ++ ['"']) = some (p, []) →
    Json.stringBody (env.fwVersion ++ ['"']) = some (f, []) →
    env.Members [("BR2_PROFILE_NAME".toList, .str p), ("BR2_FW_VERSION".toList, .str f)]

/-- The four outputs define the symbols that are set, with one value each. -/
structure Agree (longMax : Nat) (heading : Text) (env : Env) (syms : List Symbol)
    (ms : List (Text × Json.Value)) : Prop where
  members : List.Forall₂ Member ((written syms).filter fun s => s.2.isSet) ms
  json : ∃ es, env.Members es ∧
    Json.parse (autoJson longMax env syms) = some (.obj (es ++ ms))
  conf : ∃ ds, autoConf heading syms = heading ++ ds.flatMap confFormat.print ∧
    List.Forall₂ SameConf ds ms
  header : ∃ ds, autoconfH heading env syms =
      heading ++ headerStart env ++ ds.flatMap headerFormat.print ++ headerEnd ∧
    List.Forall₂ (SameDefine "1".toList) ds ms
  cmake : ∃ ds, autoCmake heading syms = heading ++ ds.flatMap cmakeFormat.print ∧
    List.Forall₂ (SameDefine "TRUE".toList) ds ms

/-- A value that `json_print_symbol` can write. -/
def Writable (longMax : Nat) (sym : Symbol) : Prop :=
  match sym.type with
  | .boolean | .tristate => True
  | .int => symStringValid .int sym.val = true
  | .hex => symStringValid .hex sym.val = true ∧ symNumber .hex sym.val ≤ longMax
  | .string => Json.Printable sym.val

/-! ### Valid numbers -/

theorem intLit_valid_iff (l : IntLit) :
    symStringValid .int l.text = true ↔ Json.IntPart l.digits := by
  obtain ⟨neg, digits, hne, hdigit⟩ := l
  obtain ⟨c, cs, rfl⟩ := List.exists_cons_of_ne_nil hne
  obtain ⟨hc, hcs⟩ := List.forall_mem_cons.mp hdigit
  have hminus : c ≠ '-' := Scan.ne_of_true_of_false hc rfl
  have hvalid : symStringValid .int (IntLit.text ⟨neg, c :: cs, hne, hdigit⟩) =
      (c.isDigit && !(c == '0' && cs ≠ []) && cs.all Char.isDigit) := by
    cases neg
    · simp [symStringValid, IntLit.text, hminus]
    · simp [symStringValid, IntLit.text]
  have hall : cs.all Char.isDigit = true := List.all_eq_true.mpr hcs
  rw [hvalid, hc, hall, Json.IntPart]
  simp only [Bool.true_and, Bool.and_true, Bool.not_eq_true', Bool.and_eq_false_iff,
    beq_eq_false_iff_ne, ne_eq, decide_eq_false_iff_not, not_not, List.cons_ne_nil, not_false_eq_true, true_and,
    List.head?_cons, Option.some.injEq, List.cons.injEq]
  tauto

theorem exists_intLit {t : Text} (h : symStringValid .int t = true) :
    ∃ l : IntLit, l.text = t := by
  cases t with
  | nil => exact absurd h (by decide)
  | cons c cs =>
    by_cases hc : c = '-'
    · subst hc
      cases cs with
      | nil => exact absurd h (by decide)
      | cons d ds =>
        simp only [symStringValid, List.head?_cons, if_true, List.tail_cons, Bool.and_eq_true,
          List.all_eq_true] at h
        exact ⟨⟨true, d :: ds, List.cons_ne_nil d ds, List.forall_mem_cons.mpr ⟨h.1.1, h.2⟩⟩, rfl⟩
    · simp only [symStringValid, List.head?_cons, Option.some.injEq, hc, if_false,
        Bool.and_eq_true, List.all_eq_true] at h
      exact ⟨⟨false, c :: cs, List.cons_ne_nil c cs, List.forall_mem_cons.mpr ⟨h.1.1, h.2⟩⟩, rfl⟩

/-! ### The printed definitions -/

section symbols
variable {s : Name × Symbol} {m : Text × Json.Value}

/-- No printer writes a symbol that is not set. -/
theorem not_isSet_iff {sym : Symbol} :
    sym.isSet = false ↔ isFlag sym.type = true ∧ sym.tri = .no := by
  simp [Symbol.isSet]

theorem printedValue_flag {sym : Symbol} (h : isFlag sym.type = true) :
    sym.printedValue = triText sym.tri := by
  unfold Symbol.printedValue
  cases htype : sym.type <;> simp_all [isFlag]

theorem definePrintSymbol_flag {type : SymType} (h : isFlag type = true) (yes name value : Text) :
    definePrintSymbol yes name type value =
      (flagSuffix value).map fun suffix => (name ++ suffix, yes) := by
  cases type <;> simp_all [isFlag, definePrintSymbol]

theorem jsonPrintSymbol_flag {type : SymType} (h : isFlag type = true) (longMax : Nat)
    (name value : Text) :
    jsonPrintSymbol longMax name type value =
      (flagSuffix value).map fun suffix => (name ++ suffix, " true".toList) := by
  cases type <;> simp_all [isFlag, jsonPrintSymbol]

theorem hexPrefix_digits (l : HexLit) : hexPrefix l.digits = "0x".toList := by
  unfold hexPrefix
  split
  · rename_i t h
    exact absurd h (l.digits_ne (by decide) t)
  · rename_i t h
    exact absurd h (l.digits_ne (by decide) t)
  · rfl

/-- The prefix that a printer puts before a hexadecimal number does not change it. -/
theorem hexPrefix_text (l : HexLit) :
    ∃ l' : HexLit, hexPrefix l.text ++ l.text = l'.text ∧ l'.val = l.val := by
  cases hpre : l.pre with
  | none =>
    refine ⟨{ l with pre := .lower }, ?_, rfl⟩
    have htext : l.text = l.digits := by
      rw [HexLit.text, hpre]
      rfl
    rw [htext, hexPrefix_digits]
    rfl
  | lower =>
    refine ⟨l, ?_, rfl⟩
    rw [HexLit.text, hpre]
    rfl
  | upper =>
    refine ⟨l, ?_, rfl⟩
    rw [HexLit.text, hpre]
    rfl

theorem definePrintSymbol_member (yes : Text) (h : Member s m) :
    ∃ d, definePrintSymbol yes s.1.text s.2.type s.2.printedValue = some d ∧
      SameDefine yes d m := by
  cases h with
  | module hflag htri =>
    rw [definePrintSymbol_flag hflag, printedValue_flag hflag, htri]
    exact ⟨_, rfl, rfl, .flag⟩
  | yes hflag htri =>
    rw [definePrintSymbol_flag hflag, printedValue_flag hflag, htri]
    exact ⟨_, rfl, List.append_nil _, .flag⟩
  | int l htype hval =>
    simp only [definePrintSymbol, Symbol.printedValue, htype, hval]
    exact ⟨_, rfl, rfl, .int l⟩
  | hex l htype hval =>
    simp only [definePrintSymbol, Symbol.printedValue, htype, hval]
    obtain ⟨l', htext, hl⟩ := hexPrefix_text l
    rw [htext, ← hl]
    exact ⟨_, rfl, rfl, .hex l'⟩
  | string htype =>
    simp only [definePrintSymbol, Symbol.printedValue, htype]
    exact ⟨_, rfl, rfl, .string _⟩

theorem definePrintSymbol_unset (yes : Text) (h : s.2.isSet = false) :
    definePrintSymbol yes s.1.text s.2.type s.2.printedValue = none := by
  obtain ⟨hflag, htri⟩ := not_isSet_iff.mp h
  rw [definePrintSymbol_flag hflag, printedValue_flag hflag, htri]
  rfl

theorem kconfigPrintSymbol_member (h : Member s m) :
    ∃ d, kconfigPrintSymbol s.1.text s.2.type s.2.printedValue = some d ∧ SameConf d m := by
  cases h with
  | module hflag htri =>
    rw [kconfigPrintSymbol, printedValue_flag hflag, htri, if_neg (by simp [triText])]
    exact ⟨_, rfl, .inr ⟨rfl, rfl, rfl⟩⟩
  | yes hflag htri =>
    rw [kconfigPrintSymbol, printedValue_flag hflag, htri, if_neg (by simp [triText])]
    exact ⟨_, rfl, .inl ⟨rfl, .flag⟩⟩
  | int l htype hval =>
    simp only [kconfigPrintSymbol, Symbol.printedValue, htype, hval, isFlag]
    exact ⟨_, rfl, .inl ⟨rfl, .int l⟩⟩
  | hex l htype hval =>
    simp only [kconfigPrintSymbol, Symbol.printedValue, htype, hval, isFlag]
    exact ⟨_, rfl, .inl ⟨rfl, .hex l⟩⟩
  | string htype =>
    simp only [kconfigPrintSymbol, Symbol.printedValue, htype, isFlag]
    exact ⟨_, rfl, .inl ⟨rfl, .string _⟩⟩

theorem kconfigPrintSymbol_unset (h : s.2.isSet = false) :
    kconfigPrintSymbol s.1.text s.2.type s.2.printedValue = none := by
  obtain ⟨hflag, htri⟩ := not_isSet_iff.mp h
  rw [kconfigPrintSymbol, printedValue_flag hflag, htri, if_pos ⟨hflag, rfl⟩]

end symbols

/-- A printer that writes nothing for a symbol that is not set, and for the others what stands for
their member. -/
theorem forall₂_printed {R : Text × Text → Text × Json.Value → Prop}
    {print : Text → SymType → Text → Option (Text × Text)}
    (hunset : ∀ s : Name × Symbol, s.2.isSet = false →
      print s.1.text s.2.type s.2.printedValue = none)
    (hset : ∀ s m, Member s m → ∃ d, print s.1.text s.2.type s.2.printedValue = some d ∧ R d m)
    {ss : List (Name × Symbol)} {ms : List (Text × Json.Value)}
    (h : List.Forall₂ Member (ss.filter fun s => s.2.isSet) ms) :
    List.Forall₂ R (ss.filterMap fun s => print s.1.text s.2.type s.2.printedValue) ms := by
  induction ss generalizing ms with
  | nil => exact List.forall₂_nil_left_iff.mp h ▸ .nil
  | cons s ss ih =>
    cases hs : s.2.isSet with
    | false =>
      rw [List.filter_cons_of_neg (by simp [hs])] at h
      simp only [List.filterMap_cons, hunset s hs]
      exact ih h
    | true =>
      rw [List.filter_cons_of_pos (by simp [hs])] at h
      obtain ⟨m, ms, hm, hms, rfl⟩ := List.forall₂_cons_left_iff.mp h
      obtain ⟨d, hd, hR⟩ := hset s m hm
      simp only [List.filterMap_cons, hd]
      exact .cons hR (ih hms)

/-! ### `auto.json` -/

theorem plain_of_nameChar {c : Char} (hc : nameChar c = true) :
    c ≠ '"' ∧ c ≠ '\\' ∧ 0x20 ≤ c.toNat := by
  refine ⟨Scan.ne_of_true_of_false hc rfl, Scan.ne_of_true_of_false hc rfl, ?_⟩
  simp only [nameChar, Bool.or_eq_true, decide_eq_true_eq] at hc
  rcases hc with (((h | rfl) | rfl) | rfl) | rfl
  · unfold Char.isAlphanum Char.isAlpha Char.isUpper Char.isLower Char.isDigit at h
    simp only [Bool.or_eq_true, Bool.and_eq_true, decide_eq_true_eq, ge_iff_le,
      UInt32.le_iff_toNat_le] at h
    have htoNat : c.toNat = c.val.toNat := rfl
    have hA : 'A'.val.toNat = 65 := rfl
    have ha : 'a'.val.toNat = 97 := rfl
    have h0 : '0'.val.toNat = 48 := rfl
    omega
  all_goals decide

theorem plain_of_member {s : Name × Symbol} {m : Text × Json.Value} (hm : Member s m) :
    Json.Plain m.1 := by
  have hname : ∀ n : Name, Json.Plain n.text := fun n c hc =>
    plain_of_nameChar (n.nameChar_of_mem c hc)
  cases hm with
  | module =>
    rintro c hc
    rcases List.mem_append.mp hc with hc | hc
    · exact hname _ c hc
    · exact plain_of_nameChar (List.all_eq_true.mp (by decide) c hc)
  | yes | int | hex | string => exact hname _

/-- The text of a symbol's value in `auto.json`. -/
def jsonBody (longMax : Nat) (sym : Symbol) : Text :=
  match sym.type with
  | .boolean | .tristate => "true".toList
  | .int => sym.val
  | .hex => longText (strtol16 longMax sym.val)
  | .string => symEscapeStringValue sym.val

theorem jsonBody_flag {sym : Symbol} (h : isFlag sym.type = true) (longMax : Nat) :
    jsonBody longMax sym = "true".toList := by
  unfold jsonBody
  cases htype : sym.type <;> simp_all [isFlag]

theorem lstrip_of_isXDigit {c : Char} (hc : isXDigit c = true) (cs : Text) :
    lstrip (c :: cs) = c :: cs := by
  have hspace : Words.isSpace c = false := by
    simp only [Words.isSpace, decide_eq_false_iff_not]
    rintro (rfl | rfl | rfl | rfl | rfl | rfl) <;> exact absurd hc (by decide)
  rw [lstrip, List.dropWhile_cons_of_neg (by simp [hspace])]

theorem splitSign_of_isXDigit {c : Char} (hc : isXDigit c = true) (cs : Text) :
    splitSign (c :: cs) = (false, c :: cs) := by
  unfold splitSign
  split
  · rename_i heq
    exact absurd (List.cons.inj heq).1 (Scan.ne_of_true_of_false hc rfl)
  · rename_i heq
    exact absurd (List.cons.inj heq).1 (Scan.ne_of_true_of_false hc rfl)
  · rfl

theorem HexLit.text_cons (l : HexLit) : ∃ c cs, l.text = c :: cs ∧ isXDigit c = true := by
  unfold HexLit.text
  cases l.pre with
  | none =>
    obtain ⟨c, cs, hcs⟩ := List.exists_cons_of_ne_nil l.ne_nil
    exact ⟨c, cs, hcs, l.isXDigit_of_mem c (by simp [hcs])⟩
  | lower | upper => exact ⟨'0', _, rfl, rfl⟩

theorem strtol16_text (longMax : Nat) (l : HexLit) :
    strtol16 longMax l.text = (min l.val longMax : Nat) := by
  obtain ⟨c, cs, htext, hc⟩ := l.text_cons
  have hsign : splitSign (lstrip l.text) = (false, l.text) := by
    rw [htext, lstrip_of_isXDigit hc, splitSign_of_isXDigit hc]
  have hdigits : (stripHexPrefix l.text).takeWhile isXDigit = l.digits := by
    rw [stripHexPrefix_text, List.takeWhile_eq_self_iff.mpr l.isXDigit_of_mem]
  rw [strtol16, hsign]
  simp only [hdigits, Bool.false_eq_true, if_false]
  rfl

theorem longText_natCast (n : Nat) : longText n = Nat.toDigits 10 n := by
  rw [longText, if_neg (by omega), Int.toNat_natCast]

theorem jsonPrintSymbol_member (longMax : Nat) {s : Name × Symbol} {m : Text × Json.Value}
    (h : Member s m) :
    jsonPrintSymbol longMax s.1.text s.2.type s.2.printedValue =
      some (m.1, ' ' :: jsonBody longMax s.2) := by
  cases h with
  | module hflag htri =>
    rw [jsonPrintSymbol_flag hflag, printedValue_flag hflag, htri, jsonBody_flag hflag]
    rfl
  | yes hflag htri =>
    rw [jsonPrintSymbol_flag hflag, printedValue_flag hflag, htri, jsonBody_flag hflag]
    exact congrArg (fun name => some (name, _)) (List.append_nil _)
  | int l htype hval => simp [jsonPrintSymbol, Symbol.printedValue, jsonBody, htype]
  | hex l htype hval => simp [jsonPrintSymbol, Symbol.printedValue, jsonBody, htype]
  | string htype => simp [jsonPrintSymbol, Symbol.printedValue, jsonBody, htype]

theorem jsonPrintSymbol_unset (longMax : Nat) {s : Name × Symbol} (h : s.2.isSet = false) :
    jsonPrintSymbol longMax s.1.text s.2.type s.2.printedValue = none := by
  obtain ⟨hflag, htri⟩ := not_isSet_iff.mp h
  rw [jsonPrintSymbol_flag hflag, printedValue_flag hflag, htri]
  rfl

theorem IntLit.text_eq (l : IntLit) : l.text = Json.decimal l.neg l.digits := rfl

theorem IntLit.text_cons (l : IntLit) :
    ∃ c cs, l.text = c :: cs ∧ (c.isDigit = true ∨ c = '-') := by
  unfold IntLit.text
  split
  · exact ⟨'-', l.digits, rfl, .inr rfl⟩
  · obtain ⟨c, cs, hcs⟩ := List.exists_cons_of_ne_nil l.ne_nil
    exact ⟨c, cs, hcs, .inl (l.isDigit_of_mem c (by simp [hcs]))⟩

theorem value_text {ds : Text} {c : Char} {cs : Text} (hds : ds = c :: cs)
    (hc : c.isDigit = true ∨ c = '-') (fuel : Nat) (t : Text) :
    Json.value (fuel + 1) (' ' :: (ds ++ t)) = Json.number (ds ++ t) := by
  subst hds
  exact Json.value_number fuel hc (cs ++ t)

theorem value_int (fuel : Nat) (l : IntLit) {t : Text} (ht : Json.Stop t) :
    Json.value (fuel + 1) (' ' :: (l.text ++ t)) =
      if Json.IntPart l.digits then some (.num l.val 0, t) else none := by
  obtain ⟨c, cs, hcs, hc⟩ := l.text_cons
  rw [value_text hcs hc, l.text_eq, Json.number_decimal l.neg l.isDigit_of_mem ht]
  rfl

theorem intPart_toDigits (n : Nat) : Json.IntPart (Nat.toDigits 10 n) := by
  refine ⟨Nat.toDigits_ne_nil, fun h => ?_⟩
  rw [head?_toDigits n h]
  rfl

theorem value_toDigits (fuel n : Nat) {t : Text} (ht : Json.Stop t) :
    Json.value (fuel + 1) (' ' :: (Nat.toDigits 10 n ++ t)) = some (.num n 0, t) := by
  have hdigit := isDigit_toDigits n
  obtain ⟨c, cs, hcs⟩ := List.exists_cons_of_ne_nil (Nat.toDigits_ne_nil : Nat.toDigits 10 n ≠ [])
  have hnumber := Json.number_decimal false hdigit ht
  rw [if_pos (intPart_toDigits n)] at hnumber
  rw [value_text hcs (.inl (hdigit c (by simp [hcs])))]
  refine hnumber.trans ?_
  simp [Json.decimalVal]

theorem value_escaped (fuel : Nat) (s t : Text) :
    Json.value (fuel + 1) (' ' :: (symEscapeStringValue s ++ t)) =
      if Json.Printable s then some (.str s, t) else none := by
  have hbody := Json.stringBody_quoteBody s t
  have htext : symEscapeStringValue s ++ t = '"' :: (Json.quoteBody s ++ '"' :: t) := by
    simp [symEscapeStringValue, escapeBody, Json.quoteBody]
  rw [htext, Json.value_string, hbody]
  split
  · rfl
  · rfl

theorem writable_of_isFlag (longMax : Nat) {sym : Symbol} (h : isFlag sym.type = true) :
    Writable longMax sym := by
  unfold Writable
  cases htype : sym.type <;> simp_all [isFlag]

section member
variable {longMax : Nat} {s : Name × Symbol} {m : Text × Json.Value} {t : Text}

theorem value_jsonBody (hm : Member s m) (hv : Writable longMax s.2) (ht : Json.Stop t)
    (fuel : Nat) :
    Json.value (fuel + 1) (' ' :: (jsonBody longMax s.2 ++ t)) = some (m.2, t) := by
  cases hm with
  | module hflag htri | yes hflag htri =>
    rw [jsonBody_flag hflag]
    exact Json.value_true fuel t
  | int l htype hval =>
    simp only [Writable, htype, hval] at hv
    simp only [jsonBody, htype, hval]
    exact (value_int fuel l ht).trans (if_pos ((intLit_valid_iff l).mp hv))
  | hex l htype hval =>
    simp only [Writable, htype, hval, symNumber_hex] at hv
    have hmin : min l.val longMax = l.val := Nat.min_eq_left (by omega)
    simp only [jsonBody, htype, hval, strtol16_text, hmin, longText_natCast]
    exact value_toDigits fuel l.val ht
  | string htype =>
    simp only [Writable, htype] at hv
    simp only [jsonBody, htype]
    exact (value_escaped fuel _ t).trans (if_pos hv)

theorem writable_of_value (hm : Member s m) (ht : Json.Stop t) {fuel : Nat} {u : Text}
    (h : Json.value (fuel + 1) (' ' :: (jsonBody longMax s.2 ++ t)) = some (m.2, u)) :
    Writable longMax s.2 := by
  cases hm with
  | module hflag | yes hflag => exact writable_of_isFlag longMax hflag
  | int l htype hval =>
    simp only [jsonBody, htype, hval] at h
    simp only [Writable, htype, hval, intLit_valid_iff]
    by_contra hpart
    rw [value_int fuel l ht, if_neg hpart] at h
    cases h
  | hex l htype hval =>
    simp only [jsonBody, htype, hval, strtol16_text, longText_natCast] at h
    simp only [Writable, htype, hval, symNumber_hex, symStringValid_hex, true_and]
    rw [value_toDigits fuel _ ht] at h
    simp only [Option.some.injEq, Prod.mk.injEq, Json.Value.num.injEq, Int.natCast_inj] at h
    have hle : min l.val longMax ≤ longMax := Nat.min_le_right _ _
    rw [h.1.1] at hle
    exact Int.ofNat_le.mpr hle
  | string htype =>
    simp only [jsonBody, htype] at h
    simp only [Writable, htype]
    by_contra hprint
    rw [value_escaped, if_neg hprint] at h
    cases h

end member

/-- The rest of `auto.json` from a symbol on. -/
def jsonRest (longMax : Nat) (ss : List (Name × Symbol)) : Text :=
  (ss.filterMap fun s => jsonPrintSymbol longMax s.1.text s.2.type s.2.printedValue).flatMap
    jsonFormat.print ++ "\n\x7d\n".toList

section rest
variable {longMax : Nat} {s : Name × Symbol} {m : Text × Json.Value} {ss : List (Name × Symbol)}

theorem jsonRest_unset (h : s.2.isSet = false) :
    jsonRest longMax (s :: ss) = jsonRest longMax ss := by
  simp [jsonRest, jsonPrintSymbol_unset longMax h]

theorem jsonRest_member (h : Member s m) :
    jsonRest longMax (s :: ss) = ',' :: ("\n\"".toList ++ m.1 ++ "\":".toList ++
      (' ' :: (jsonBody longMax s.2 ++ jsonRest longMax ss))) := by
  simp [jsonRest, jsonPrintSymbol_member longMax h, jsonFormat, LineFormat.print]

theorem stop_jsonRest {ms : List (Text × Json.Value)}
    (h : List.Forall₂ Member (ss.filter fun s => s.2.isSet) ms) :
    Json.Stop (jsonRest longMax ss) := by
  induction ss generalizing ms with
  | nil =>
    intro c hc
    obtain rfl : '\n' = c := by simpa [jsonRest] using hc
    decide
  | cons s ss ih =>
    cases hs : s.2.isSet with
    | false =>
      rw [List.filter_cons_of_neg (by simp [hs])] at h
      rw [jsonRest_unset hs]
      exact ih h
    | true =>
      rw [List.filter_cons_of_pos (by simp [hs])] at h
      obtain ⟨m, ms, hm, -, -⟩ := List.forall₂_cons_left_iff.mp h
      intro c hc
      obtain rfl : ',' = c := by simpa [jsonRest_member hm] using hc
      decide

theorem listRest_member (hm : Member s m) (fuel : Nat) :
    Json.listRest '\x7d' (Json.members (fuel + 1)) (jsonRest longMax (s :: ss)) =
      (Json.value fuel (' ' :: (jsonBody longMax s.2 ++ jsonRest longMax ss))).bind
        fun (v, t) => (Json.listRest '\x7d' (Json.members fuel) t).map
          fun (ms, t) => ((m.1, v) :: ms, t) := by
  rw [jsonRest_member hm, Json.listRest_comma, Json.members_succ fuel (plain_of_member hm)]

/-- One member after the other is read back. -/
theorem listRest_jsonRest {ms : List (Text × Json.Value)}
    (h : List.Forall₂ Member (ss.filter fun s => s.2.isSet) ms)
    (hss : ∀ s ∈ ss, Writable longMax s.2) {fuel : Nat} (hfuel : ms.length < fuel) :
    Json.listRest '\x7d' (Json.members fuel) (jsonRest longMax ss) = some (ms, "\n".toList) := by
  induction ss generalizing ms fuel with
  | nil =>
    obtain rfl := List.forall₂_nil_left_iff.mp h
    rfl
  | cons s ss ih =>
    obtain ⟨hwritable, hss⟩ := List.forall_mem_cons.mp hss
    cases hs : s.2.isSet with
    | false =>
      rw [List.filter_cons_of_neg (by simp [hs])] at h
      rw [jsonRest_unset hs]
      exact ih h hss hfuel
    | true =>
      rw [List.filter_cons_of_pos (by simp [hs])] at h
      obtain ⟨m, ms, hm, hms, rfl⟩ := List.forall₂_cons_left_iff.mp h
      rw [List.length_cons] at hfuel
      obtain ⟨fuel, rfl⟩ : ∃ k, fuel = k + 2 := ⟨fuel - 2, by omega⟩
      have hrest := @ih ms hms hss (fuel + 1) (by omega)
      rw [listRest_member hm, value_jsonBody hm hwritable (stop_jsonRest hms)]
      simp [hrest]

theorem writable_of_listRest {ms : List (Text × Json.Value)}
    (h : List.Forall₂ Member (ss.filter fun s => s.2.isSet) ms) {fuel : Nat} {u : Text}
    (hread : Json.listRest '\x7d' (Json.members fuel) (jsonRest longMax ss) = some (ms, u)) :
    ∀ s ∈ ss, Writable longMax s.2 := by
  induction ss generalizing ms fuel with
  | nil => exact List.forall_mem_nil _
  | cons s ss ih =>
    refine List.forall_mem_cons.mpr ?_
    cases hs : s.2.isSet with
    | false =>
      rw [List.filter_cons_of_neg (by simp [hs])] at h
      rw [jsonRest_unset hs] at hread
      exact ⟨writable_of_isFlag longMax (not_isSet_iff.mp hs).1, ih h hread⟩
    | true =>
      rw [List.filter_cons_of_pos (by simp [hs])] at h
      obtain ⟨m, ms, hm, hms, rfl⟩ := List.forall₂_cons_left_iff.mp h
      rcases fuel with _ | _ | fuel
      · simp [jsonRest_member hm, Json.listRest_comma, Json.members] at hread
      · simp [listRest_member hm, Json.value] at hread
      · rw [listRest_member hm] at hread
        simp only [Option.bind_eq_some_iff, Option.map_eq_some_iff, Prod.exists, Prod.mk.injEq,
          List.cons.injEq] at hread
        obtain ⟨v, t, hvalue, ms', t', hrest, ⟨hv, rfl⟩, rfl⟩ := hread
        obtain rfl : v = m.2 := by rw [← hv]
        have hwritable := writable_of_value hm (stop_jsonRest hms) hvalue
        rw [value_jsonBody hm hwritable (stop_jsonRest hms)] at hvalue
        cases hvalue
        exact ⟨hwritable, ih hms hrest⟩

theorem length_members_le {ms : List (Text × Json.Value)}
    (h : List.Forall₂ Member (ss.filter fun s => s.2.isSet) ms) :
    ms.length ≤ (jsonRest longMax ss).length := by
  induction ss generalizing ms with
  | nil =>
    obtain rfl := List.forall₂_nil_left_iff.mp h
    exact Nat.zero_le _
  | cons s ss ih =>
    cases hs : s.2.isSet with
    | false =>
      rw [List.filter_cons_of_neg (by simp [hs])] at h
      rw [jsonRest_unset hs]
      exact ih h
    | true =>
      rw [List.filter_cons_of_pos (by simp [hs])] at h
      obtain ⟨m, ms, hm, hms, rfl⟩ := List.forall₂_cons_left_iff.mp h
      have hle := ih hms
      rw [jsonRest_member hm]
      simp only [List.length_cons, List.length_append]
      omega

theorem exists_member (hwritable : Writable longMax s.2) (hs : s.2.isSet = true) :
    ∃ m, Member s m := by
  obtain ⟨n, sym⟩ := s
  unfold Writable at hwritable
  cases htype : sym.type with
  | boolean | tristate =>
    cases htri : sym.tri with
    | no => simp [Symbol.isSet, htype, htri, isFlag] at hs
    | mod => exact ⟨_, .module (by rw [htype]; rfl) htri⟩
    | yes => exact ⟨_, .yes (by rw [htype]; rfl) htri⟩
  | int =>
    simp only [htype] at hwritable
    obtain ⟨l, hl⟩ := exists_intLit hwritable
    exact ⟨_, .int l htype hl.symm⟩
  | hex =>
    simp only [htype] at hwritable
    obtain ⟨l, hl⟩ := exists_hexLit hwritable.1
    exact ⟨_, .hex l htype hl.symm⟩
  | string => exact ⟨_, .string htype⟩

/-- Symbols that can be written have members. -/
theorem exists_members (hss : ∀ s ∈ ss, Writable longMax s.2) :
    ∃ ms, List.Forall₂ Member (ss.filter fun s => s.2.isSet) ms := by
  induction ss with
  | nil => exact ⟨[], .nil⟩
  | cons s ss ih =>
    obtain ⟨hwritable, hss⟩ := List.forall_mem_cons.mp hss
    obtain ⟨ms, hms⟩ := ih hss
    cases hs : s.2.isSet with
    | false => exact ⟨ms, by rwa [List.filter_cons_of_neg (by simp [hs])]⟩
    | true =>
      obtain ⟨m, hm⟩ := exists_member hwritable hs
      exact ⟨m :: ms, by rw [List.filter_cons_of_pos (by simp [hs])]; exact .cons hm hms⟩

end rest

theorem autoJson_eq (longMax : Nat) (env : Env) (syms : List Symbol) :
    autoJson longMax env syms = '\x7b' :: ("\n\"".toList ++ "BR2_PROFILE_NAME".toList ++
      "\":".toList ++ (' ' :: '"' :: (env.profileName ++ '"' :: ',' :: ("\n\"".toList ++
        "BR2_FW_VERSION".toList ++ "\":".toList ++ (' ' :: '"' :: (env.fwVersion ++
          '"' :: jsonRest longMax (written syms))))))) := by
  have hassoc : ∀ a b c d e f g h i : Text, a ++ b ++ c ++ d ++ e ++ f ++ g ++ h ++ i =
      a ++ (b ++ (c ++ (d ++ (e ++ (f ++ (g ++ (h ++ i))))))) := by
    intros
    simp only [List.append_assoc]
  exact hassoc ..

/-- The members of the environment are read, and then those of the symbols. -/
theorem parse_autoJson (longMax : Nat) {env : Env} {es : List (Text × Json.Value)}
    (henv : env.Members es) (syms : List Symbol) :
    ∃ fuel, (jsonRest longMax (written syms)).length ≤ fuel ∧
      Json.parse (autoJson longMax env syms) =
        (Json.listRest '\x7d' (Json.members (fuel + 1)) (jsonRest longMax (written syms))).bind
          fun (ms, t) => if Json.skipWs t = [] then some (.obj (es ++ ms)) else none := by
  obtain ⟨hprofile, hversion⟩ := henv
  rename_i p f
  have hbodyProfile := (Json.body_iff.mpr ⟨p, hprofile⟩).stringBody hprofile
  have hbodyVersion := (Json.body_iff.mpr ⟨f, hversion⟩).stringBody hversion
  set rest := jsonRest longMax (written syms) with hrest
  obtain ⟨fuel, hfuel⟩ : ∃ fuel, (autoJson longMax env syms).length = fuel + 3 :=
    ⟨_, by rw [autoJson_eq]; rfl⟩
  refine ⟨fuel, ?_, ?_⟩
  · simp only [autoJson_eq, List.length_cons, List.length_append, ← hrest] at hfuel
    omega
  · have hprofileName : Json.Plain "BR2_PROFILE_NAME".toList := fun c hc =>
      plain_of_nameChar (List.all_eq_true.mp (by decide) c hc)
    have hfwVersion : Json.Plain "BR2_FW_VERSION".toList := fun c hc =>
      plain_of_nameChar (List.all_eq_true.mp (by decide) c hc)
    have hsecond : Json.members (fuel + 2) ("\n\"".toList ++ "BR2_FW_VERSION".toList ++
        "\":".toList ++ (' ' :: '"' :: (env.fwVersion ++ '"' :: rest))) =
        (Json.listRest '\x7d' (Json.members (fuel + 1)) rest).map fun (ms, t) =>
          (("BR2_FW_VERSION".toList, .str f) :: ms, t) := by
      rw [Json.members_succ _ hfwVersion, Json.value_string, hbodyVersion]
      rfl
    have hfirst : Json.members (fuel + 3) ("\n\"".toList ++ "BR2_PROFILE_NAME".toList ++
        "\":".toList ++ (' ' :: '"' :: (env.profileName ++ '"' :: ',' :: ("\n\"".toList ++
          "BR2_FW_VERSION".toList ++ "\":".toList ++ (' ' :: '"' :: (env.fwVersion ++
            '"' :: rest)))))) =
        (Json.listRest '\x7d' (Json.members (fuel + 1)) rest).map fun (ms, t) =>
          ([("BR2_PROFILE_NAME".toList, .str p), ("BR2_FW_VERSION".toList, .str f)] ++ ms, t) := by
      rw [Json.members_succ _ hprofileName, Json.value_string, hbodyProfile, Option.map_some,
        Option.bind_some]
      simp only [Json.listRest_comma, hsecond, Option.map_map]
      rfl
    unfold Json.parse
    rw [hfuel, autoJson_eq, ← hrest, Json.value_object _ (by simp [Json.skipWs, Json.isWs]), hfirst,
      Option.map_map, Option.bind_map]
    rfl

theorem parse_autoJson_iff {longMax : Nat} {env : Env} {es ms : List (Text × Json.Value)}
    (henv : env.Members es) {syms : List Symbol}
    (hms : List.Forall₂ Member ((written syms).filter fun s => s.2.isSet) ms) :
    Json.parse (autoJson longMax env syms) = some (.obj (es ++ ms)) ↔
      ∀ s ∈ written syms, Writable longMax s.2 := by
  obtain ⟨fuel, hfuel, hparse⟩ := parse_autoJson longMax henv syms
  rw [hparse]
  constructor
  · intro h
    simp only [Option.bind_eq_some_iff, Prod.exists] at h
    obtain ⟨ms', t, hrest, h⟩ := h
    split at h
    · obtain rfl : ms' = ms := by simpa using h
      exact writable_of_listRest hms hrest
    · cases h
  · intro h
    rw [listRest_jsonRest hms h (Nat.lt_succ_of_le ((length_members_le hms).trans hfuel))]
    rfl

theorem exists_env_members {env : Env} :
    (∃ es, env.Members es) ↔ Json.Body env.profileName ∧ Json.Body env.fwVersion := by
  rw [Json.body_iff, Json.body_iff]
  constructor
  · rintro ⟨_, ⟨hprofile, hversion⟩⟩
    exact ⟨⟨_, hprofile⟩, ⟨_, hversion⟩⟩
  · rintro ⟨⟨_, hprofile⟩, ⟨_, hversion⟩⟩
    exact ⟨_, .intro hprofile hversion⟩

def emptyEnv : Env := ⟨[], [], []⟩

/-- `int` symbol `MTU` without a value. -/
def mtu : Symbol where
  name := some ⟨"MTU".toList, by decide, List.all_eq_true.mp rfl⟩
  type := .int
  write := true
  tri := .no
  val := []

end Dir842.Kconfig
