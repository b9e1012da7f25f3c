import Mathlib.Data.List.Basic
import Mathlib.Data.Nat.Notation
import Dir842.Lib.Scan

/-!
# A reader for JSON texts

Deterministic descent over RFC 8259 with a bound on the depth of the recursion. A number is kept as
an integer times a power of ten, a member list in the order of the text.
-/

namespace Json

abbrev Text := List Char

inductive Value
  | null
  | bool (b : Bool)
  | num (mantissa : Int) (exponent : Int)
  | str (s : Text)
  | arr (elements : List Value)
  | obj (members : List (Text × Value))

abbrev Reader (α : Type) := Text → Option (α × Text)

def isWs (c : Char) : Bool := c = ' ' ∨ c = '\t' ∨ c = '\n' ∨ c = '\r'

def skipWs (s : Text) : Text := s.dropWhile isWs

/-! ### Strings -/

def hexDigit (c : Char) : Option Nat :=
  if c.isDigit then some (c.toNat - 48)
  else if 'a'.toNat ≤ c.toNat ∧ c.toNat ≤ 'f'.toNat then some (c.toNat - 87)
  else if 'A'.toNat ≤ c.toNat ∧ c.toNat ≤ 'F'.toNat then some (c.toNat - 55)
  else none

def escape (c : Char) : Option Nat :=
  match c with
  | '"' | '\\' | '/' => some c.toNat
  | 'b' => some 8
  | 't' => some 9
  | 'n' => some 10
  | 'f' => some 12
  | 'r' => some 13
  | _ => none

/-- The code units of a string up to its closing quote. -/
def units : Reader (List Nat)
  | [] => none
  | c :: s =>
    if c = '"' then some ([], s)
    else if c = '\\' then
      match s with
      | 'u' :: h₁ :: h₂ :: h₃ :: h₄ :: s =>
        match hexDigit h₁, hexDigit h₂, hexDigit h₃, hexDigit h₄ with
        | some d₁, some d₂, some d₃, some d₄ =>
          (units s).map fun r => ((((d₁ * 16 + d₂) * 16 + d₃) * 16 + d₄) :: r.1, r.2)
        | _, _, _, _ => none
      | e :: s => (escape e).bind fun u => (units s).map fun r => (u :: r.1, r.2)
      | [] => none
    else if c.toNat < 0x20 then none
    else (units s).map fun r => (c.toNat :: r.1, r.2)

def isHigh (u : Nat) : Bool := 0xd800 ≤ u ∧ u < 0xdc00
def isLow (u : Nat) : Bool := 0xdc00 ≤ u ∧ u < 0xe000

/-- Surrogate pairs are joined; a lone one becomes the replacement character. -/
def decodeUnits : List Nat → Text
  | [] => []
  | [u] => [if isHigh u ∨ isLow u then Char.ofNat 0xfffd else Char.ofNat u]
  | u :: v :: us =>
    if isHigh u ∧ isLow v then
      Char.ofNat (0x10000 + (u - 0xd800) * 0x400 + (v - 0xdc00)) :: decodeUnits us
    else (if isHigh u ∨ isLow u then Char.ofNat 0xfffd else Char.ofNat u) :: decodeUnits (v :: us)

/-- A string after its opening quote. -/
def stringBody : Reader Text := fun s => (units s).map fun r => (decodeUnits r.1, r.2)

/-! ### Numbers -/

def digits (s : Text) : Text × Text := s.span Char.isDigit

/-- The integer part: digits without a leading zero. -/
def intPart : Reader Text := fun s =>
  let (ds, s) := digits s
  if ds = [] ∨ (ds.head? = some '0' ∧ ds ≠ ['0']) then none else some (ds, s)

def fraction : Reader Text
  | '.' :: s =>
    let (ds, s) := digits s
    if ds = [] then none else some (ds, s)
  | s => some ([], s)

def exponent : Reader Int
  | c :: s =>
    if c = 'e' ∨ c = 'E' then
      let (neg, s) : Bool × Text :=
        match s with
        | '-' :: s => (true, s)
        | '+' :: s => (false, s)
        | s => (false, s)
      let (ds, s) := digits s
      let n : Int := Nat.ofDigitChars 10 ds 0
      if ds = [] then none else some (if neg then -n else n, s)
    else some (0, c :: s)
  | [] => some (0, [])

def number : Reader Value := fun s => do
  let (neg, s) : Bool × Text :=
    match s with
    | '-' :: s => (true, s)
    | s => (false, s)
  let (ds, s) ← intPart s
  let (fs, s) ← fraction s
  let (e, s) ← exponent s
  let n : Int := Nat.ofDigitChars 10 (ds ++ fs) 0
  return (.num (if neg then -n else n) (e - fs.length), s)

/-! ### Values -/

def literal (word : Text) (v : Value) : Reader Value := fun s =>
  if word.isPrefixOf s then some (v, s.drop word.length) else none

/-- What follows an element of a list that `close` ends. -/
def listRest {α : Type} (close : Char) (more : Reader (List α)) : Reader (List α) := fun s =>
  match skipWs s with
  | c :: s => if c = ',' then more s else if c = close then some ([], s) else none
  | [] => none

/-- A member name with its colon. -/
def memberName : Reader Text := fun s =>
  match skipWs s with
  | '"' :: s => (stringBody s).bind fun r =>
    match skipWs r.2 with
    | ':' :: s => some (r.1, s)
    | _ => none
  | _ => none

mutual

def value : Nat → Reader Value
  | 0 => fun _ => none
  | fuel + 1 => fun s =>
    match skipWs s with
    | '"' :: s => (stringBody s).map fun r => (.str r.1, r.2)
    | '{' :: s =>
      if (skipWs s).head? = some '}' then some (.obj [], (skipWs s).tail)
      else (members fuel s).map fun r => (.obj r.1, r.2)
    | '[' :: s =>
      if (skipWs s).head? = some ']' then some (.arr [], (skipWs s).tail)
      else (elements fuel s).map fun r => (.arr r.1, r.2)
    | 't' :: s => literal "rue".toList (.bool true) s
    | 'f' :: s => literal "alse".toList (.bool false) s
    | 'n' :: s => literal "ull".toList .null s
    | s => number s

def members : Nat → Reader (List (Text × Value))
  | 0 => fun _ => none
  | fuel + 1 => fun s =>
    (memberName s).bind fun (k, s) => (value fuel s).bind fun (v, s) =>
      (listRest '}' (members fuel) s).map fun (ms, s) => ((k, v) :: ms, s)

def elements : Nat → Reader (List Value)
  | 0 => fun _ => none
  | fuel + 1 => fun s =>
    (value fuel s).bind fun (v, s) =>
      (listRest ']' (elements fuel) s).map fun (vs, s) => (v :: vs, s)

end

/-- Every step of the descent takes a character, so that the length of the text is depth enough. -/
def parse (s : Text) : Option Value :=
  (value (s.length + 1) s).bind fun r => if skipWs r.2 = [] then some r.1 else none

/-! ### Strings that are written out -/

theorem units_plain {c : Char} (hquote : c ≠ '"') (hslash : c ≠ '\\') (s : Text) :
    units (c :: s) =
      if c.toNat < 0x20 then none else (units s).map fun r => (c.toNat :: r.1, r.2) := by
  simp only [units.eq_def (c :: s), if_neg hquote, if_neg hslash]

theorem units_escaped {c : Char} (hc : c = '"' ∨ c = '\\') (s : Text) :
    units ('\\' :: c :: s) = (units s).map fun r => (c.toNat :: r.1, r.2) := by
  rcases hc with rfl | rfl
  · simp [units, escape]
  · simp [units, escape]

theorem units_quote (s : Text) : units ('"' :: s) = some ([], s) := by
  rw [units.eq_def]
  rfl

theorem not_isHigh_toNat (c : Char) : isHigh c.toNat = false := by
  have hvalid := c.valid
  simp only [UInt32.isValidChar, Nat.isValidChar] at hvalid
  have htoNat : c.toNat = c.val.toNat := rfl
  simp only [isHigh, decide_eq_false_iff_not]
  omega

theorem not_isLow_toNat (c : Char) : isLow c.toNat = false := by
  have hvalid := c.valid
  simp only [UInt32.isValidChar, Nat.isValidChar] at hvalid
  have htoNat : c.toNat = c.val.toNat := rfl
  simp only [isLow, decide_eq_false_iff_not]
  omega

theorem decodeUnits_map_toNat (s : Text) : decodeUnits (s.map Char.toNat) = s := by
  induction s with
  | nil => rfl
  | cons c s ih =>
    cases s with
    | nil => simp [decodeUnits, not_isHigh_toNat, not_isLow_toNat]
    | cons d s =>
      rw [List.map_cons, List.map_cons, decodeUnits, ← List.map_cons, ih]
      simp [not_isHigh_toNat, not_isLow_toNat]

/-- A backslash before every quote and every backslash. -/
def quoteBody (s : Text) : Text := s.flatMap fun c => if c = '"' ∨ c = '\\' then ['\\', c] else [c]

/-- No control characters, which a JSON string may not have. -/
def Printable (s : Text) : Prop := ∀ c ∈ s, 0x20 ≤ c.toNat

instance (s : Text) : Decidable (Printable s) :=
  decidable_of_iff (s.all fun c => 0x20 ≤ c.toNat) (by simp [Printable])

theorem printable_cons {c : Char} {s : Text} :
    Printable (c :: s) ↔ 0x20 ≤ c.toNat ∧ Printable s := List.forall_mem_cons

theorem units_quoteBody (s t : Text) :
    units (quoteBody s ++ '"' :: t) = if Printable s then some (s.map Char.toNat, t) else none := by
  induction s with
  | nil =>
    rw [if_pos (show Printable [] from List.forall_mem_nil _)]
    exact units_quote t
  | cons c s ih =>
    have hstep : units (quoteBody (c :: s) ++ '"' :: t) = if c.toNat < 0x20 then none else
        (units (quoteBody s ++ '"' :: t)).map fun r => (c.toNat :: r.1, r.2) := by
      simp only [quoteBody, List.flatMap_cons]
      by_cases hc : c = '"' ∨ c = '\\'
      · have hprint : ¬ c.toNat < 0x20 := by rcases hc with rfl | rfl <;> decide
        rw [if_pos hc, if_neg hprint, List.append_assoc]
        exact units_escaped hc _
      · obtain ⟨hquote, hslash⟩ := not_or.mp hc
        rw [if_neg hc, List.append_assoc]
        exact units_plain hquote hslash _
    rw [hstep, ih]
    by_cases hprint : c.toNat < 0x20
    · rw [if_pos hprint, if_neg fun h => absurd (printable_cons.mp h).1 (by omega)]
    · by_cases hs : Printable s
      · rw [if_neg hprint, if_pos hs, if_pos (printable_cons.mpr ⟨by omega, hs⟩)]
        rfl
      · rw [if_neg hprint, if_neg hs, if_neg fun h => hs (printable_cons.mp h).2]
        rfl

theorem stringBody_quoteBody (s t : Text) :
    stringBody (quoteBody s ++ '"' :: t) = if Printable s then some (s, t) else none := by
  rw [stringBody, units_quoteBody]
  split
  · simp [decodeUnits_map_toNat]
  · rfl

/-- Text that a string may hold as it is. -/
def Plain (s : Text) : Prop := ∀ c ∈ s, c ≠ '"' ∧ c ≠ '\\' ∧ 0x20 ≤ c.toNat

theorem stringBody_plain {s : Text} (hs : Plain s) (t : Text) :
    stringBody (s ++ '"' :: t) = some (s, t) := by
  have hquote : quoteBody s = s.flatMap fun c => [c] :=
    List.flatMap_congr fun c hc => by simp [(hs c hc).1, (hs c hc).2.1]
  have hprint : Printable s := fun c hc => (hs c hc).2.2
  simpa [hquote, hprint] using stringBody_quoteBody s t

/-! ### Strings that are copied -/

/-- Text that may stand between the quotes of a string. -/
inductive Body : Text → Prop
  | nil : Body []
  | plain {c : Char} {s : Text} :
    c ≠ '"' → c ≠ '\\' → 0x20 ≤ c.toNat → Body s → Body (c :: s)
  | escape {c : Char} {s : Text} : (escape c).isSome → Body s → Body ('\\' :: c :: s)
  | unicode {h₁ h₂ h₃ h₄ : Char} {s : Text} : (∀ h ∈ [h₁, h₂, h₃, h₄], (hexDigit h).isSome) →
    Body s → Body ('\\' :: 'u' :: h₁ :: h₂ :: h₃ :: h₄ :: s)

theorem units_escape {c : Char} (hc : c ≠ 'u') (s : Text) :
    units ('\\' :: c :: s) = (escape c).bind fun u => (units s).map fun r => (u :: r.1, r.2) := by
  rw [units.eq_def]
  simp only [Char.reduceEq, if_false, if_true]
  split
  · rename_i heq
    exact absurd (List.cons.inj heq).1 hc
  · rename_i heq
    obtain ⟨rfl, rfl⟩ := List.cons.inj heq
    rfl
  · rename_i heq
    cases heq

theorem Body.units {s : Text} (h : Body s) : ∃ us, ∀ t, units (s ++ '"' :: t) = some (us, t) := by
  induction h with
  | nil => exact ⟨[], units_quote⟩
  | @plain c s hquote hslash hprint _ ih =>
    obtain ⟨us, hus⟩ := ih
    refine ⟨c.toNat :: us, fun t => ?_⟩
    rw [List.cons_append, units_plain hquote hslash, if_neg (by omega), hus]
    rfl
  | @escape c s hescape _ ih =>
    obtain ⟨us, hus⟩ := ih
    obtain ⟨u, hu⟩ := Option.isSome_iff_exists.mp hescape
    have hc : c ≠ 'u' := by
      rintro rfl
      cases hu
    refine ⟨u :: us, fun t => ?_⟩
    rw [List.cons_append, List.cons_append, units_escape hc, hu, hus]
    rfl
  | @unicode h₁ h₂ h₃ h₄ s hhex _ ih =>
    obtain ⟨us, hus⟩ := ih
    simp only [List.forall_mem_cons, Option.isSome_iff_exists] at hhex
    obtain ⟨⟨d₁, hd₁⟩, ⟨d₂, hd₂⟩, ⟨d₃, hd₃⟩, ⟨d₄, hd₄⟩, -⟩ := hhex
    refine ⟨(((d₁ * 16 + d₂) * 16 + d₃) * 16 + d₄) :: us, fun t => ?_⟩
    simp [Json.units, hd₁, hd₂, hd₃, hd₄, hus]

theorem body_of_units {s : Text} {us : List Nat} (h : units (s ++ ['"']) = some (us, [])) :
    Body s := by
  match s with
  | [] => exact .nil
  | c :: s =>
    by_cases hquote : c = '"'
    · subst hquote
      rw [List.cons_append, units_quote] at h
      simp at h
    · by_cases hslash : c = '\\'
      · subst hslash
        match s with
        | [] => simp [units, escape] at h
        | d :: s =>
          by_cases hu : d = 'u'
          · subst hu
            match s with
            | [] | [_] | [_, _] => simp [units, escape] at h
            | [_, _, _] => simp [units, hexDigit] at h
            | h₁ :: h₂ :: h₃ :: h₄ :: s =>
              simp only [List.cons_append, units, Char.reduceEq, if_false, if_true] at h
              split at h
              · rename_i hd₁ hd₂ hd₃ hd₄
                obtain ⟨r, hr, hus⟩ := Option.map_eq_some_iff.mp h
                obtain ⟨-, hrest⟩ := Prod.mk.inj hus
                refine .unicode ?_ (body_of_units (hr.trans (congrArg some (Prod.ext rfl hrest))))
                simp [hd₁, hd₂, hd₃, hd₄]
              · cases h
          · rw [List.cons_append, List.cons_append, units_escape hu] at h
            obtain ⟨u, hescape, h⟩ := Option.bind_eq_some_iff.mp h
            obtain ⟨r, hr, hus⟩ := Option.map_eq_some_iff.mp h
            obtain ⟨-, hrest⟩ := Prod.mk.inj hus
            exact .escape (Option.isSome_of_eq_some hescape)
              (body_of_units (hr.trans (congrArg some (Prod.ext rfl hrest))))
      · rw [List.cons_append, units_plain hquote hslash] at h
        split at h
        · cases h
        · rename_i hprint
          obtain ⟨r, hr, hus⟩ := Option.map_eq_some_iff.mp h
          obtain ⟨-, hrest⟩ := Prod.mk.inj hus
          exact .plain hquote hslash (by omega)
            (body_of_units (hr.trans (congrArg some (Prod.ext rfl hrest))))

theorem body_iff {s : Text} : Body s ↔ ∃ p, stringBody (s ++ ['"']) = some (p, []) := by
  constructor
  · intro h
    obtain ⟨us, hus⟩ := h.units
    exact ⟨decodeUnits us, by rw [stringBody, hus]; rfl⟩
  · rintro ⟨p, hp⟩
    obtain ⟨r, hr, hstring⟩ := Option.map_eq_some_iff.mp hp
    obtain ⟨-, hrest⟩ := Prod.mk.inj hstring
    exact body_of_units (hr.trans (congrArg some (Prod.ext rfl hrest)))

/-- What a string stands for does not depend on the text behind it. -/
theorem Body.stringBody {s p : Text} (h : Body s) (hp : stringBody (s ++ ['"']) = some (p, []))
    (t : Text) : stringBody (s ++ '"' :: t) = some (p, t) := by
  obtain ⟨us, hus⟩ := h.units
  rw [Json.stringBody, hus, Option.map_some, Option.some.injEq, Prod.mk.injEq] at hp
  rw [Json.stringBody, hus, Option.map_some, hp.1]

/-! ### Numbers that are written out -/

/-- A text that cannot be the rest of a number. -/
def Stop (t : Text) : Prop :=
  ∀ c ∈ t.head?, c.isDigit = false ∧ c ≠ '-' ∧ c ≠ '.' ∧ c ≠ 'e' ∧ c ≠ 'E'

theorem digits_append {ds t : Text} (hds : ∀ c ∈ ds, c.isDigit = true) (ht : Stop t) :
    digits (ds ++ t) = (ds, t) :=
  Scan.span_append hds fun c hc => (ht c hc).1

theorem fraction_stop {t : Text} (ht : Stop t) : fraction t = some ([], t) := by
  cases t with
  | nil => rfl
  | cons c t =>
    unfold fraction
    split
    · rename_i heq
      exact absurd (List.cons.inj heq).1 (ht c rfl).2.2.1
    · rfl

theorem exponent_stop {t : Text} (ht : Stop t) : exponent t = some (0, t) := by
  cases t with
  | nil => rfl
  | cons c t => simp [exponent, (ht c rfl).2.2.2]

/-- An integer part as the grammar has it. -/
def IntPart (ds : Text) : Prop := ds ≠ [] ∧ (ds.head? = some '0' → ds = ['0'])

instance (ds : Text) : Decidable (IntPart ds) := inferInstanceAs (Decidable (_ ∧ _))

theorem intPart_append {ds t : Text} (hds : ∀ c ∈ ds, c.isDigit = true) (ht : Stop t) :
    intPart (ds ++ t) = if IntPart ds then some (ds, t) else none := by
  simp only [intPart, digits_append hds ht, IntPart]
  by_cases hnil : ds = []
  · simp [hnil]
  · by_cases hzero : ds.head? = some '0'
    · by_cases hone : ds = ['0']
      · simp [hone]
      · simp [hnil, hzero, hone]
    · simp [hnil, hzero]

/-- Decimal digits with an optional sign. -/
def decimal (neg : Bool) (ds : Text) : Text := if neg then '-' :: ds else ds

/-- The number that such digits stand for. -/
def decimalVal (neg : Bool) (ds : Text) : Int :=
  if neg then -(Nat.ofDigitChars 10 ds 0 : Int) else (Nat.ofDigitChars 10 ds 0 : Int)

theorem number_unsigned {ds t : Text} (hds : ∀ c ∈ ds, c.isDigit = true) (ht : Stop t)
    (neg : Bool) :
    (do
      let (ds, s) ← intPart (ds ++ t)
      let (fs, s) ← fraction s
      let (e, s) ← exponent s
      let n : Int := Nat.ofDigitChars 10 (ds ++ fs) 0
      return (Value.num (if neg then -n else n) (e - fs.length), s)) =
      if IntPart ds then some (.num (decimalVal neg ds) 0, t) else none := by
  rw [intPart_append hds ht]
  split
  · simp [fraction_stop ht, exponent_stop ht, decimalVal]
  · rfl

theorem number_decimal (neg : Bool) {ds t : Text} (hds : ∀ c ∈ ds, c.isDigit = true)
    (ht : Stop t) :
    number (decimal neg ds ++ t) =
      if IntPart ds then some (.num (decimalVal neg ds) 0, t) else none := by
  cases neg with
  | true => exact number_unsigned hds ht true
  | false =>
    have hhead : ∀ s, ds ++ t ≠ '-' :: s := by
      intro s h
      cases ds with
      | nil => exact (ht '-' (by simp_all)).2.1 rfl
      | cons c ds =>
        obtain rfl : c = '-' := (List.cons.inj h).1
        exact absurd (hds '-' (List.mem_cons_self ..)) (by decide)
    rw [← number_unsigned hds ht false]
    unfold number decimal
    simp only [Bool.false_eq_true, if_false]

/-! ### Members that are written out -/

theorem skipWs_cons {c : Char} (hc : isWs c = false) (s : Text) : skipWs (c :: s) = c :: s := by
  simp [skipWs, hc]

theorem skipWs_space (s : Text) : skipWs (' ' :: s) = skipWs s := rfl

theorem value_string (fuel : Nat) (s : Text) :
    value (fuel + 1) (' ' :: '"' :: s) = (stringBody s).map fun r => (.str r.1, r.2) := rfl

theorem value_true (fuel : Nat) (s : Text) :
    value (fuel + 1) (" true".toList ++ s) = some (.bool true, s) := by
  simp [value, skipWs, isWs, literal]

theorem value_number (fuel : Nat) {c : Char} (hc : c.isDigit = true ∨ c = '-') (s : Text) :
    value (fuel + 1) (' ' :: c :: s) = number (c :: s) := by
  have hne : ∀ d : Char, d.isDigit = false → d ≠ '-' → c ≠ d := by
    rintro d hd hminus rfl
    rcases hc with hc | hc
    · simp [hc] at hd
    · exact hminus hc
  have hws : skipWs (' ' :: c :: s) = c :: s := by
    rw [skipWs_space]
    refine skipWs_cons ?_ s
    simp [isWs, hne]
  simp only [value, hws]
  split
  case h_7 => rfl
  all_goals
    rename_i heq
    exact absurd (List.cons.inj heq).1 (hne _ (by decide) (by decide))

/-- A value that is missing where the next member or the end of the object stands. -/
theorem value_missing (fuel : Nat) {c : Char} (hc : c = ',' ∨ c = '}') {s t : Text}
    (hs : skipWs s = c :: t) : value (fuel + 1) (' ' :: s) = none := by
  have hws : skipWs (' ' :: s) = c :: t := by rw [skipWs_space, hs]
  rcases hc with rfl | rfl
  · simp [value, hws, number, intPart, digits]
  · simp [value, hws, number, intPart, digits]

theorem memberName_plain {k : Text} (hk : Plain k) (s : Text) :
    memberName ("\n\"".toList ++ k ++ "\":".toList ++ s) = some (k, s) := by
  have hbody := stringBody_plain hk (':' :: s)
  simp [memberName, skipWs, isWs, hbody]

theorem members_succ (fuel : Nat) {k : Text} (hk : Plain k) (s : Text) :
    members (fuel + 1) ("\n\"".toList ++ k ++ "\":".toList ++ s) =
      (value fuel s).bind fun (v, s) =>
        (listRest '}' (members fuel) s).map fun (ms, s) => ((k, v) :: ms, s) := by
  simp only [members, memberName_plain hk, Option.bind_some]

theorem listRest_comma {α : Type} (close : Char) (more : Reader (List α)) (s : Text) :
    listRest close more (',' :: s) = more s := rfl

theorem value_object (fuel : Nat) {s : Text} (hs : (skipWs s).head? ≠ some '\x7d') :
    value (fuel + 1) ('\x7b' :: s) = (members fuel s).map fun r => (.obj r.1, r.2) := by
  simp [value, skipWs_cons (show isWs '\x7b' = false from rfl), hs]

end Json
