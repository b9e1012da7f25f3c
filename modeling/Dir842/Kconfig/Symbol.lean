import Mathlib.Data.List.Basic
import Mathlib.Data.List.Induction
import Mathlib.Tactic.Ring

/-!
# Symbols and their texts (`symbol.c`)

A symbol has the value that `sym_get_string_value` prints. Values of `int` and `hex` symbols are
empty or written with digits; leading zeros come in with defaults, which nothing checks.
-/

namespace Dir842.Kconfig

abbrev Text := List Char

inductive Tristate
  | no | mod | yes
deriving DecidableEq

inductive SymType
  | boolean | tristate | int | hex | string
deriving DecidableEq

/-- The characters of a word of the Kconfig language. -/
def nameChar (c : Char) : Bool := c.isAlphanum || c = '_' || c = '-' || c = '/' || c = '.'

structure Name where
  text : Text
  ne_nil : text ≠ []
  nameChar_of_mem : ∀ c ∈ text, nameChar c = true

/-! ### Numbers -/

def isXDigit (c : Char) : Bool :=
  c.isDigit || ('a' ≤ c && c ≤ 'f') || ('A' ≤ c && c ≤ 'F')

def xDigitVal (c : Char) : Nat :=
  if c.isDigit then c.toNat - 48 else if 'a' ≤ c then c.toNat - 87 else c.toNat - 55

def ofXDigits (ds : Text) : Nat := ds.foldl (fun n c => 16 * n + xDigitVal c) 0

structure IntLit where
  neg : Bool
  digits : Text
  ne_nil : digits ≠ []
  isDigit_of_mem : ∀ c ∈ digits, c.isDigit = true

def IntLit.text (l : IntLit) : Text := if l.neg then '-' :: l.digits else l.digits

def IntLit.val (l : IntLit) : Int :=
  if l.neg then -(Nat.ofDigitChars 10 l.digits 0 : Int) else (Nat.ofDigitChars 10 l.digits 0 : Int)

inductive HexPrefix
  | none | lower | upper
deriving DecidableEq

def HexPrefix.text : HexPrefix → Text
  | none => []
  | lower => "0x".toList
  | upper => "0X".toList

structure HexLit where
  pre : HexPrefix
  digits : Text
  ne_nil : digits ≠ []
  isXDigit_of_mem : ∀ c ∈ digits, isXDigit c = true

def HexLit.text (l : HexLit) : Text := l.pre.text ++ l.digits

def HexLit.val (l : HexLit) : Nat := ofXDigits l.digits

/-! ### Values -/

inductive SymValue
  | boolean (b : Bool)
  | tristate (t : Tristate)
  | int (l : Option IntLit)
  | hex (l : Option HexLit)
  | string (s : Text)

namespace SymValue

def type : SymValue → SymType
  | boolean _ => .boolean
  | tristate _ => .tristate
  | int _ => .int
  | hex _ => .hex
  | string _ => .string

end SymValue

def triText : Tristate → Text
  | .no => "n".toList
  | .mod => "m".toList
  | .yes => "y".toList

def symGetStringValue : SymValue → Text
  | .boolean b => triText (if b then .yes else .no)
  | .tristate t => triText t
  | .int l => l.elim [] IntLit.text
  | .hex l => l.elim [] HexLit.text
  | .string s => s

/-- The copy of the string that `sym_escape_string_value` puts between the quotes. -/
def escapeBody (s : Text) : Text := s.flatMap fun c => if c = '"' ∨ c = '\\' then ['\\', c] else [c]

def symEscapeStringValue (s : Text) : Text := '"' :: escapeBody s ++ ['"']

/-- `conf_write_symbol`: the text that a printer is given. -/
def printedValue (v : SymValue) : Text :=
  match v with
  | .string s => symEscapeStringValue s
  | v => symGetStringValue v

def stripHexPrefix : Text → Text
  | '0' :: 'x' :: s | '0' :: 'X' :: s => s
  | s => s

def symStringValid (type : SymType) (str : Text) : Bool :=
  match type with
  | .string => true
  | .int =>
    let str := if str.head? = some '-' then str.tail else str
    match str with
    | [] => false
    | c :: cs => c.isDigit && !(c == '0' && cs ≠ []) && cs.all Char.isDigit
  | .hex =>
    let str := stripHexPrefix str
    str ≠ [] && str.all isXDigit
  | .boolean | .tristate => str.head?.any fun c => "yYmMnN".toList.contains c

/-- The number of a text, as `strtoll` reads it for the ranges of a symbol. -/
def symNumber (type : SymType) (t : Text) : Int :=
  match type with
  | .hex => ofXDigits (stripHexPrefix t)
  | _ =>
    if t.head? = some '-' then -(Nat.ofDigitChars 10 t.tail 0 : Int)
    else (Nat.ofDigitChars 10 t 0 : Int)

/-! ### Digits -/

theorem xDigitVal_of_isDigit {c : Char} (hc : c.isDigit = true) :
    xDigitVal c = c.toNat - 48 ∧ xDigitVal c < 10 := by
  have hval : xDigitVal c = c.toNat - 48 := if_pos hc
  simp only [Char.isDigit, Bool.and_eq_true, decide_eq_true_eq, ge_iff_le,
    UInt32.le_iff_toNat_le] at hc
  have htoNat : c.toNat = c.val.toNat := rfl
  have h9 : '9'.val.toNat = 57 := rfl
  omega

theorem xDigitVal_of_letter {c : Char} (hc : isXDigit c = true) (hdigit : c.isDigit = false) :
    10 ≤ xDigitVal c ∧ xDigitVal c < 16 := by
  simp only [isXDigit, hdigit, Bool.false_or, Bool.or_eq_true, Bool.and_eq_true,
    decide_eq_true_eq, Char.le_def, UInt32.le_iff_toNat_le] at hc
  have htoNat : c.toNat = c.val.toNat := rfl
  have ha : 'a'.val.toNat = 97 := rfl
  have hf : 'f'.val.toNat = 102 := rfl
  have hA : 'A'.val.toNat = 65 := rfl
  have hF : 'F'.val.toNat = 70 := rfl
  simp only [xDigitVal, hdigit, Bool.false_eq_true, if_false, Char.le_def,
    UInt32.le_iff_toNat_le]
  split
  · omega
  · omega

theorem xDigitVal_lt {c : Char} (hc : isXDigit c = true) : xDigitVal c < 16 := by
  cases hdigit : c.isDigit with
  | true => exact (xDigitVal_of_isDigit hdigit).2.trans (by decide)
  | false => exact (xDigitVal_of_letter hc hdigit).2

theorem ofXDigits_concat (ds : Text) (c : Char) :
    ofXDigits (ds ++ [c]) = 16 * ofXDigits ds + xDigitVal c := by
  simp [ofXDigits]

theorem ofDigitChars_concat (ds : Text) (c : Char) :
    Nat.ofDigitChars 10 (ds ++ [c]) 0 = 10 * Nat.ofDigitChars 10 ds 0 + (c.toNat - 48) := by
  rw [Nat.ofDigitChars_append, Nat.ofDigitChars_cons, Nat.ofDigitChars_nil]
  rfl

theorem ofXDigits_append (a b : Text) :
    ofXDigits (a ++ b) = ofXDigits a * 16 ^ b.length + ofXDigits b := by
  induction b using List.reverseRecOn with
  | nil => simp [ofXDigits]
  | append_singleton b c ih =>
    rw [← List.append_assoc, ofXDigits_concat, ih, ofXDigits_concat, List.length_append,
      List.length_singleton, pow_succ]
    ring

theorem ofXDigits_lt {ds : Text} (hds : ∀ c ∈ ds, isXDigit c = true) :
    ofXDigits ds < 16 ^ ds.length := by
  induction ds using List.reverseRecOn with
  | nil => simp [ofXDigits]
  | append_singleton ds c ih =>
    have hlt := ih fun d hd => hds d (List.mem_append_left _ hd)
    have hc := xDigitVal_lt (hds c (by simp))
    rw [ofXDigits_concat, List.length_append, List.length_singleton, pow_succ]
    omega

/-- Decimal digits stand for no less when they are read as hexadecimal ones. -/
theorem ofDigitChars_le {ds : Text} (hds : ∀ c ∈ ds, c.isDigit = true) :
    Nat.ofDigitChars 10 ds 0 ≤ ofXDigits ds := by
  induction ds using List.reverseRecOn with
  | nil => simp [ofXDigits]
  | append_singleton ds c ih =>
    have hle := ih fun d hd => hds d (List.mem_append_left _ hd)
    have hc := xDigitVal_of_isDigit (hds c (by simp))
    rw [ofXDigits_concat, ofDigitChars_concat]
    omega

theorem ofDigitChars_eq_iff {ds : Text} (hds : ∀ c ∈ ds, c.isDigit = true) :
    Nat.ofDigitChars 10 ds 0 = ofXDigits ds ↔ ofXDigits ds < 10 := by
  induction ds using List.reverseRecOn with
  | nil => simp [ofXDigits]
  | append_singleton ds c _ =>
    have hle := ofDigitChars_le fun d hd => hds d (List.mem_append_left _ hd)
    have hc := xDigitVal_of_isDigit (hds c (by simp))
    rw [ofXDigits_concat, ofDigitChars_concat]
    omega

/-! ### Texts of numbers -/

theorem isDigit_toDigits (n : Nat) : ∀ c ∈ Nat.toDigits 10 n, c.isDigit = true := fun _ hc =>
  Nat.isDigit_of_mem_toDigits (by decide) (by decide) hc

theorem head?_toDigits (n : Nat) : (Nat.toDigits 10 n).head? = some '0' → n = 0 := by
  induction n using Nat.strongRecOn with
  | ind n ih =>
    intro h
    rcases Nat.lt_or_ge n 10 with hn | hn
    · rw [Nat.toDigits_of_lt_base hn] at h
      simpa using h
    · rw [Nat.toDigits_of_base_le (by decide) hn, List.head?_append_of_ne_nil _
        Nat.toDigits_ne_nil] at h
      have hdiv := ih (n / 10) (by omega) h
      omega

/-- Digits do not begin like a prefix. -/
theorem HexLit.digits_ne (l : HexLit) {x : Char} (hx : isXDigit x = false) (t : Text) :
    l.digits ≠ '0' :: x :: t := by
  intro h
  have hmem : isXDigit x = true := l.isXDigit_of_mem x (by simp [h])
  simp [hx] at hmem

theorem stripHexPrefix_digits (l : HexLit) : stripHexPrefix l.digits = l.digits := by
  unfold stripHexPrefix
  split
  · rename_i t h
    exact absurd h (l.digits_ne (by decide) t)
  · rename_i t h
    exact absurd h (l.digits_ne (by decide) t)
  · rfl

@[simp]
theorem stripHexPrefix_text (l : HexLit) : stripHexPrefix l.text = l.digits := by
  unfold HexLit.text
  cases l.pre with
  | none => exact stripHexPrefix_digits l
  | lower => rfl
  | upper => rfl

theorem IntLit.not_mem_text (l : IntLit) {c : Char} (hdigit : c.isDigit = false) (hminus : c ≠ '-') :
    c ∉ l.text := by
  have hdigits : c ∉ l.digits := fun h => by simp [l.isDigit_of_mem c h] at hdigit
  unfold IntLit.text
  split
  · simpa using ⟨hminus, hdigits⟩
  · exact hdigits

theorem HexLit.not_mem_text (l : HexLit) {c : Char} (hdigit : isXDigit c = false)
    (hx : c ≠ 'x' ∧ c ≠ 'X') : c ∉ l.text := by
  have hdigits : c ∉ l.digits := fun h => by simp [l.isXDigit_of_mem c h] at hdigit
  have hzero : c ≠ '0' := by
    rintro rfl
    exact absurd hdigit (by decide)
  unfold HexLit.text
  cases l.pre
  · simpa [HexPrefix.text] using hdigits
  · simpa [HexPrefix.text] using ⟨hzero, hx.1, hdigits⟩
  · simpa [HexPrefix.text] using ⟨hzero, hx.2, hdigits⟩

theorem symNumber_int (l : IntLit) : symNumber .int l.text = l.val := by
  unfold symNumber IntLit.text IntLit.val
  cases l.neg with
  | true => rfl
  | false =>
    have hhead : l.digits.head? ≠ some '-' := fun h =>
      absurd (l.isDigit_of_mem '-' (List.mem_of_mem_head? h)) (by decide)
    simp [hhead]

theorem symNumber_hex (l : HexLit) : symNumber .hex l.text = l.val := by
  rw [symNumber, stripHexPrefix_text]
  rfl

theorem stripHexPrefix_cases (t : Text) : ∃ pre : HexPrefix, t = pre.text ++ stripHexPrefix t := by
  unfold stripHexPrefix
  split
  · exact ⟨.lower, rfl⟩
  · exact ⟨.upper, rfl⟩
  · exact ⟨.none, rfl⟩

theorem symStringValid_hex (l : HexLit) : symStringValid .hex l.text = true := by
  have hall : l.digits.all isXDigit = true := List.all_eq_true.mpr l.isXDigit_of_mem
  simp [symStringValid, l.ne_nil, hall]

theorem exists_hexLit {t : Text} (h : symStringValid .hex t = true) :
    ∃ l : HexLit, l.text = t := by
  simp only [symStringValid, Bool.and_eq_true, decide_eq_true_eq, List.all_eq_true] at h
  obtain ⟨pre, hpre⟩ := stripHexPrefix_cases t
  exact ⟨⟨pre, stripHexPrefix t, h.1, h.2⟩, hpre.symm⟩

theorem not_mem_printedValue {v : SymValue} (hv : v.type ≠ .string) : '"' ∉ printedValue v := by
  rcases v with b | t | (_ | l) | (_ | l) | s
  · cases b
    · decide
    · decide
  · cases t
    · decide
    · decide
    · decide
  · decide
  · exact l.not_mem_text (by decide) (by decide)
  · decide
  · exact l.not_mem_text (by decide) (by decide)
  · exact absurd rfl hv

/-! ### Escaped strings -/

/-- Characters that `sym_escape_string_value` puts a backslash before. -/
def escaped (c : Char) : Bool := c = '"' ∨ c = '\\'

theorem escapeBody_cons (c : Char) (s : Text) :
    escapeBody (c :: s) = (if escaped c then ['\\', c] else [c]) ++ escapeBody s := by
  simp [escapeBody, escaped]

theorem length_escapeBody (s : Text) : (escapeBody s).length = s.length + s.countP escaped := by
  induction s with
  | nil => rfl
  | cons c s ih =>
    rw [escapeBody_cons, List.length_append, ih, List.countP_cons, List.length_cons]
    split
    · simp
      omega
    · simp
      omega

theorem escapeBody_eq_self_iff {s : Text} : escapeBody s = s ↔ ∀ c ∈ s, escaped c = false := by
  constructor
  · intro h
    have hlength := length_escapeBody s
    rw [h] at hlength
    have hzero : s.countP escaped = 0 := by omega
    simpa [List.countP_eq_zero] using hzero
  · intro h
    induction s with
    | nil => rfl
    | cons c s ih =>
      obtain ⟨hc, hs⟩ := List.forall_mem_cons.mp h
      rw [escapeBody_cons, hc, ih hs]
      rfl

theorem escapeBody_of_not_mem {s : Text} (hquote : '"' ∉ s) (hslash : '\\' ∉ s) :
    escapeBody s = s := by
  refine escapeBody_eq_self_iff.mpr fun c hc => ?_
  simp only [escaped, decide_eq_false_iff_not]
  rintro (rfl | rfl)
  · exact hquote hc
  · exact hslash hc

/-- Escaping puts no quotes into a text. -/
theorem not_mem_escapeBody {s : Text} (hs : '"' ∉ s) : '"' ∉ escapeBody s := by
  induction s with
  | nil => exact hs
  | cons c s ih =>
    rw [List.mem_cons, not_or] at hs
    rw [escapeBody_cons]
    split
    · simpa using ⟨hs.1, ih hs.2⟩
    · simpa using ⟨hs.1, ih hs.2⟩

end Dir842.Kconfig
