import Dir842.Lib.Double
import Dir842.Lib.Scan
import Dir842.Kconfig.Symbol

/-!
# `tonumber` and `math.tointeger`

The conversion of texts that Lua 5.3 documents: integers of 64 bits, hexadecimal ones modulo
`2 ^ 64`; everything else that is a numeral is a float.
-/

namespace Dir842.Lua

open Kconfig (Text isXDigit ofXDigits)
open Words

inductive Number
  | integer (i : Int)
  /-- The float nearest to `n / d`. -/
  | float (neg : Bool) (n d : Nat)

def trim (s : Text) : Text := ((s.dropWhile isSpace).reverse.dropWhile isSpace).reverse

def inInt64 (i : Int) : Prop := -2 ^ 63 ≤ i ∧ i < 2 ^ 63

instance (i : Int) : Decidable (inInt64 i) := inferInstanceAs (Decidable (_ ∧ _))

def signed (neg : Bool) (n : Nat) : Int := if neg then -n else n

/-- What a numeral is made of; the value is `mantissa * base ^ exponent`. -/
structure Radix where
  digit : Char → Bool
  ofDigits : Text → Nat
  mark : Char → Bool
  base : Nat
  /-- The powers of `base` that a digit after the point counts for. -/
  perDigit : Nat

def decimal : Radix where
  digit := Char.isDigit
  ofDigits s := Nat.ofDigitChars 10 s 0
  mark c := c = 'e' ∨ c = 'E'
  base := 10
  perDigit := 1

def hexadecimal : Radix where
  digit := isXDigit
  ofDigits := ofXDigits
  mark c := c = 'p' ∨ c = 'P'
  base := 2
  perDigit := 4

/-- The exponent of a numeral, the whole rest of the text. -/
def exponentPart (r : Radix) : Text → Option Int
  | [] => some 0
  | c :: s =>
    let (neg, s) := splitSign s
    if r.mark c ∧ s ≠ [] ∧ s.all Char.isDigit then some (signed neg (Nat.ofDigitChars 10 s 0))
    else none

/-- The digits behind the point. -/
def fractionPart (r : Radix) (s : Text) : Text × Text :=
  match s with
  | '.' :: s => s.span r.digit
  | s => ([], s)

def numeral (r : Radix) (neg : Bool) (s : Text) : Option Number := do
  let (ip, s) := s.span r.digit
  let (fp, s) := fractionPart r s
  if ip ++ fp = [] then none
  let e ← exponentPart r s
  let e := e - r.perDigit * fp.length
  return .float neg (r.ofDigits (ip ++ fp) * r.base ^ e.toNat) (r.base ^ (-e).toNat)

def toNumber (s : Text) : Option Number :=
  let (neg, s) := splitSign (trim s)
  match s with
  | '0' :: 'x' :: h | '0' :: 'X' :: h =>
    if h ≠ [] ∧ h.all isXDigit then some (.integer ((signed neg (ofXDigits h)).bmod (2 ^ 64)))
    else numeral hexadecimal neg h
  | s =>
    let i := signed neg (Nat.ofDigitChars 10 s 0)
    if s ≠ [] ∧ s.all Char.isDigit ∧ inInt64 i then some (.integer i) else numeral decimal neg s

def toInteger : Number → Option Int
  | .integer i => some i
  | .float neg n d => (Double.toNat? (Double.ofRat n d)).bind fun m =>
    if inInt64 (signed neg m) then some (signed neg m) else none

/-! ### Texts without blanks -/

theorem trim_eq_self {s : Text} (hhead : ∀ c ∈ s.head?, isSpace c = false)
    (hlast : ∀ c ∈ s.getLast?, isSpace c = false) : trim s = s :=
  Scan.trim_eq_self hhead hlast

theorem inInt64_of_toInteger {neg : Bool} {n d : Nat} {i : Int}
    (h : toInteger (.float neg n d) = some i) : inInt64 i := by
  simp only [toInteger, Option.bind_eq_some_iff] at h
  obtain ⟨m, -, h⟩ := h
  split at h
  · rename_i hrange
    cases h
    exact hrange
  · cases h

theorem fractionPart_of_head {r : Radix} {s : Text} (hs : s.head? ≠ some '.') :
    fractionPart r s = ([], s) := by
  unfold fractionPart
  split
  · exact absurd rfl hs
  · rfl

theorem numeral_of_head {r : Radix} {s ip t : Text} (neg : Bool) (hspan : s.span r.digit = (ip, t))
    (ht : t.head? ≠ some '.') :
    numeral r neg s = if ip = [] then none else
      (exponentPart r t).map fun e =>
        .float neg (r.ofDigits ip * r.base ^ e.toNat) (r.base ^ (-e).toNat) := by
  simp only [numeral, hspan, fractionPart_of_head ht, List.append_nil]
  split
  · rfl
  · cases exponentPart r t with
    | none => rfl
    | some e => simp

/-- The numeral of digits only. -/
theorem numeral_digits (neg : Bool) {ds : Text} (hds : ∀ c ∈ ds, c.isDigit = true) (hne : ds ≠ []) :
    numeral decimal neg ds = some (.float neg (Nat.ofDigitChars 10 ds 0) 1) := by
  have hspan : ds.span decimal.digit = (ds, []) := Scan.span_self hds
  rw [numeral_of_head neg hspan (by simp), if_neg hne]
  simp [exponentPart, decimal]

/-- What does not begin like a numeral is none. -/
theorem numeral_none {r : Radix} {s : Text} (neg : Bool)
    (hs : ∀ c ∈ s.head?, r.digit c = false ∧ c ≠ '.') : numeral r neg s = none := by
  have hspan := Scan.span_append (k := []) (by simp) fun c hc => (hs c hc).1
  rw [List.nil_append] at hspan
  rw [numeral_of_head neg hspan fun h => (hs '.' h).2 rfl, if_pos rfl]

/-! ### Characters that no numeral has -/

def numeralChar (c : Char) : Bool := isSpace c || isXDigit c || "+-.xXpP".toList.contains c

section

variable {s : Text} {c : Char} (hc : c ∈ s) (hchar : numeralChar c = false)
include hc hchar

theorem mem_trim : c ∈ trim s := by
  have hspace : isSpace c = false := by
    simp only [numeralChar, Bool.or_eq_false_iff] at hchar
    exact hchar.1.1
  have hmem := Scan.mem_dropWhile hc hspace
  exact List.mem_reverse.mpr (Scan.mem_dropWhile (List.mem_reverse.mpr hmem) hspace)

theorem mem_splitSign : c ∈ (splitSign s).2 := by
  have hsign : c ≠ '-' ∧ c ≠ '+' := by
    refine ⟨?_, ?_⟩ <;> rintro rfl <;> exact absurd hchar.symm Bool.false_ne_true
  unfold splitSign
  split
  · exact List.mem_of_ne_of_mem hsign.1 hc
  · exact List.mem_of_ne_of_mem hsign.2 hc
  · exact hc

theorem not_all_digits {p : Char → Bool} (hp : ∀ d, p d = true → isXDigit d = true) :
    s.all p = false := by
  rw [List.all_eq_false]
  refine ⟨c, hc, fun h => ?_⟩
  simp [numeralChar, hp c h] at hchar

theorem exponentPart_none_of_mem {r : Radix} (hr : ∀ d, r.mark d = true → numeralChar d = true) :
    exponentPart r s = none := by
  rcases s with _ | ⟨d, t⟩
  · simp at hc
  · refine if_neg ?_
    rintro ⟨hd, -, hall⟩
    rcases List.mem_cons.mp hc with rfl | hct
    · simp [hr c hd] at hchar
    · have hnot := not_all_digits (mem_splitSign hct hchar) hchar (p := Char.isDigit)
        fun d hd => by simp [isXDigit, hd]
      exact Bool.false_ne_true (hnot.symm.trans hall)

theorem numeral_none_of_mem {r : Radix} (hr : ∀ d, r.digit d ∨ r.mark d → numeralChar d = true)
    (neg : Bool) : numeral r neg s = none := by
  have hdigit : r.digit c = false := by
    by_contra h
    simp [hr c (.inl (by simpa using h))] at hchar
  have hdot : c ≠ '.' := by
    rintro rfl
    exact absurd hchar.symm Bool.false_ne_true
  have hrest := Scan.mem_dropWhile hc hdigit
  have hfraction : c ∈ (fractionPart r (s.dropWhile r.digit)).2 := by
    unfold fractionPart
    split
    · rename_i t ht
      rw [ht] at hrest
      rw [List.span_eq_takeWhile_dropWhile]
      exact Scan.mem_dropWhile (List.mem_of_ne_of_mem hdot hrest) hdigit
    · exact hrest
  simp only [numeral, List.span_eq_takeWhile_dropWhile]
  split
  · rfl
  · rw [exponentPart_none_of_mem hfraction hchar fun d hd => hr d (.inr hd)]
    rfl

theorem toNumber_none_of_mem : toNumber s = none := by
  have hmem := mem_splitSign (mem_trim hc hchar) hchar
  have hx : c ≠ '0' ∧ c ≠ 'x' ∧ c ≠ 'X' := by
    refine ⟨?_, ?_, ?_⟩ <;> rintro rfl <;> exact absurd hchar.symm Bool.false_ne_true
  have hhex : ∀ d, hexadecimal.digit d ∨ hexadecimal.mark d → numeralChar d = true := by
    rintro d (hd | hd)
    · have hd : isXDigit d = true := hd
      simp [numeralChar, hd]
    · rcases of_decide_eq_true hd with rfl | rfl
      · rfl
      · rfl
  have hdec : ∀ d, decimal.digit d ∨ decimal.mark d → numeralChar d = true := by
    rintro d (hd | hd)
    · have hd : d.isDigit = true := hd
      simp [numeralChar, isXDigit, hd]
    · rcases of_decide_eq_true hd with rfl | rfl
      · rfl
      · rfl
  simp only [toNumber]
  split
  · rename_i t ht
    have hct : c ∈ t := by
      rw [ht] at hmem
      simpa [hx] using hmem
    rw [if_neg (by simp [not_all_digits hct hchar fun d hd => hd])]
    exact numeral_none_of_mem hct hchar hhex _
  · rename_i t ht
    have hct : c ∈ t := by
      rw [ht] at hmem
      simpa [hx] using hmem
    rw [if_neg (by simp [not_all_digits hct hchar fun d hd => hd])]
    exact numeral_none_of_mem hct hchar hhex _
  · refine (if_neg ?_).trans (numeral_none_of_mem hmem hchar hdec _)
    rintro ⟨-, hall, -⟩
    have hnot := not_all_digits hmem hchar (p := Char.isDigit) fun d hd => by simp [isXDigit, hd]
    exact Bool.false_ne_true (hnot.symm.trans hall)

end

/-! ### Decimal integers -/

theorem isSpace_of_isDigit {c : Char} (hc : c.isDigit = true) : isSpace c = false := by
  simp only [isSpace, decide_eq_false_iff_not]
  rintro (rfl | rfl | rfl | rfl | rfl | rfl) <;> simp at hc

theorem splitSign_of_isDigit {c : Char} (hc : c.isDigit = true) (s : Text) :
    splitSign (c :: s) = (false, c :: s) := by
  unfold splitSign
  split
  · exact absurd hc (by rename_i h; rw [(List.cons.inj h).1]; decide)
  · exact absurd hc (by rename_i h; rw [(List.cons.inj h).1]; decide)
  · rfl

theorem ne_hexPrefix {t : Text} (hx : 'x' ∉ t) (hX : 'X' ∉ t) (u : Text) :
    t ≠ '0' :: 'x' :: u ∧ t ≠ '0' :: 'X' :: u := by
  refine ⟨?_, ?_⟩
  · rintro rfl
    exact hx (List.mem_cons_of_mem _ (List.mem_cons_self ..))
  · rintro rfl
    exact hX (List.mem_cons_of_mem _ (List.mem_cons_self ..))

/-- `tonumber` of a text that has no hexadecimal prefix. -/
theorem toNumber_of_sign {s t : Text} {neg : Bool} (htrim : trim s = s) (hsign : splitSign s = (neg, t))
    (ht : ∀ u, t ≠ '0' :: 'x' :: u ∧ t ≠ '0' :: 'X' :: u) :
    toNumber s =
      let i := signed neg (Nat.ofDigitChars 10 t 0)
      if t ≠ [] ∧ t.all Char.isDigit ∧ inInt64 i then some (.integer i)
      else numeral decimal neg t := by
  simp only [toNumber, htrim, hsign]
  split
  · rename_i h
    exact absurd rfl (ht _).1
  · rename_i h
    exact absurd rfl (ht _).2
  · rfl

/-- A decimal integer is read as it is when 64 bits hold it; a float never is what does not fit. -/
theorem toNumber_decimal (neg : Bool) {ds : Text} (hds : ∀ c ∈ ds, c.isDigit = true) (hne : ds ≠ []) :
    ∃ n, toNumber (if neg then '-' :: ds else ds) = some n ∧
      (inInt64 (signed neg (Nat.ofDigitChars 10 ds 0)) →
        toInteger n = some (signed neg (Nat.ofDigitChars 10 ds 0))) ∧
      ∀ i, toInteger n = some i → inInt64 i := by
  obtain ⟨c, cs, rfl⟩ := List.exists_cons_of_ne_nil hne
  have hc := hds c (List.mem_cons_self ..)
  have hlast : ∀ d ∈ (c :: cs).getLast?, isSpace d = false := fun d hd =>
    isSpace_of_isDigit (hds d (List.mem_of_getLast? hd))
  have hprefix := ne_hexPrefix (t := c :: cs) (fun h => Bool.false_ne_true (hds 'x' h))
    fun h => Bool.false_ne_true (hds 'X' h)
  have hnumber : toNumber (if neg then '-' :: c :: cs else c :: cs) =
      let i := signed neg (Nat.ofDigitChars 10 (c :: cs) 0)
      if c :: cs ≠ [] ∧ (c :: cs).all Char.isDigit ∧ inInt64 i then some (.integer i)
      else numeral decimal neg (c :: cs) := by
    cases neg with
    | true =>
      refine toNumber_of_sign (trim_eq_self ?_ ?_) rfl hprefix
      · rintro d hd
        cases hd
        rfl
      · rintro d hd
        rw [if_pos rfl, List.getLast?_cons_cons] at hd
        exact hlast d hd
    | false =>
      refine toNumber_of_sign (trim_eq_self ?_ hlast) (splitSign_of_isDigit hc cs) hprefix
      rintro d hd
      cases hd
      exact isSpace_of_isDigit hc
  rw [hnumber]
  by_cases hrange : inInt64 (signed neg (Nat.ofDigitChars 10 (c :: cs) 0))
  · refine ⟨.integer _, if_pos ⟨by simp, List.all_eq_true.mpr hds, hrange⟩, fun _ => rfl, ?_⟩
    rintro i hi
    cases hi
    exact hrange
  · exact ⟨_, (if_neg fun h => hrange h.2.2).trans (numeral_digits neg hds (by simp)),
      fun h => absurd h hrange, fun i hi => inInt64_of_toInteger hi⟩

/-! ### Hexadecimal integers -/

theorem isSpace_of_isXDigit {c : Char} (hc : isXDigit c = true) : isSpace c = false := by
  simp only [isSpace, decide_eq_false_iff_not]
  rintro (rfl | rfl | rfl | rfl | rfl | rfl) <;> exact Bool.false_ne_true hc

theorem toNumber_hex {x : Char} (hx : x = 'x' ∨ x = 'X') {ds : Text}
    (hds : ∀ c ∈ ds, isXDigit c = true) (hne : ds ≠ []) :
    toNumber ('0' :: x :: ds) = some (.integer ((ofXDigits ds : Int).bmod (2 ^ 64))) := by
  have htrim : trim ('0' :: x :: ds) = '0' :: x :: ds := by
    refine trim_eq_self ?_ ?_
    · rintro c hc
      cases hc
      rfl
    · rintro c hc
      rw [List.getLast?_cons_cons, List.getLast?_cons_of_ne_nil hne] at hc
      exact isSpace_of_isXDigit (hds c (List.mem_of_getLast? hc))
  have hall : ds ≠ [] ∧ ds.all isXDigit := ⟨hne, List.all_eq_true.mpr hds⟩
  have hsign := splitSign_of_isDigit (c := '0') rfl (x :: ds)
  rcases hx with rfl | rfl
  · simp only [toNumber, htrim, hsign]
    exact if_pos hall
  · simp only [toNumber, htrim, hsign]
    exact if_pos hall

theorem bmod_eq_self_iff (n : Nat) : (n : Int).bmod (2 ^ 64) = n ↔ n < 2 ^ 63 := by
  constructor
  · intro h
    have hlt : (n : Int).bmod (2 ^ 64) < (2 ^ 64 + 1) / 2 := Int.bmod_lt (by decide)
    omega
  · intro h
    exact Int.bmod_eq_of_le (by omega) (by omega)

/-! ### Hexadecimal digits without a prefix -/

theorem ofXDigits_lt_two_pow {es : Text} (hes : ∀ c ∈ es, c.isDigit = true) :
    ofXDigits es < 2 ^ Nat.ofDigitChars 10 es 0 := by
  induction es using List.reverseRecOn with
  | nil => simp [ofXDigits]
  | append_singleton es c ih =>
    have hlt := ih fun d hd => hes d (List.mem_append_left _ hd)
    have hc := Kconfig.xDigitVal_of_isDigit (hes c (by simp))
    rw [Kconfig.ofXDigits_concat, Kconfig.ofDigitChars_concat, ← hc.1]
    set d := Kconfig.xDigitVal c
    set e := Nat.ofDigitChars 10 es 0
    rcases Nat.eq_zero_or_pos e with he | he
    · rw [he] at hlt ⊢
      have hd : d < 2 ^ d := Nat.lt_two_pow_self
      have hzero : ofXDigits es = 0 := by simpa using hlt
      simpa [hzero] using hd
    · have hpow : 2 ^ (e + 4) ≤ 2 ^ (10 * e + d) := Nat.pow_le_pow_right Nat.two_pos (by omega)
      rw [pow_add] at hpow
      omega

/-- Digits, a mark and digits: as a hexadecimal number this is never the float that Lua reads. -/
theorem exponent_ne {ip es : Text} (hip : ∀ c ∈ ip, c.isDigit = true)
    (hes : ∀ c ∈ es, c.isDigit = true) (hne : es ≠ []) {c : Char} (hc : Kconfig.xDigitVal c = 14)
    {r : Nat} (hr : Double.toNat? (Double.ofRat
      (Nat.ofDigitChars 10 ip 0 * 10 ^ Nat.ofDigitChars 10 es 0) 1) = some r) :
    r ≠ ofXDigits (ip ++ c :: es) := by
  have hxes : ∀ d ∈ es, isXDigit d = true := fun d hd => by simp [isXDigit, hes d hd]
  have hvalue : ofXDigits (ip ++ c :: es) =
      (16 * ofXDigits ip + 14) * 16 ^ es.length + ofXDigits es := by
    have happend : ip ++ c :: es = (ip ++ [c]) ++ es := by simp
    rw [happend, Kconfig.ofXDigits_append, Kconfig.ofXDigits_concat, hc]
  have hle := Kconfig.ofDigitChars_le hip
  have hlt := Kconfig.ofXDigits_lt hxes
  have htwo := ofXDigits_lt_two_pow hes
  have hlength : 16 ≤ 16 ^ es.length :=
    Nat.le_self_pow (List.length_pos_iff.mpr hne).ne' 16
  set e := Nat.ofDigitChars 10 es 0
  set m := Nat.ofDigitChars 10 ip 0
  intro heq
  rw [hvalue] at heq
  rcases Nat.eq_zero_or_pos m with hm | hm
  · rw [hm, Nat.zero_mul, Double.toNat?_ofRat_zero] at hr
    have hpos : 0 < (16 * ofXDigits ip + 14) * 16 ^ es.length :=
      Nat.mul_pos (Nat.succ_pos _) (Nat.pow_pos (Nat.succ_pos 15))
    have hzero : 0 = r := by simpa using hr
    omega
  · obtain ⟨hdouble, hdvd⟩ := Double.toNat?_ofRat_one
      (Nat.mul_pos hm (Nat.pow_pos (Nat.succ_pos 9))) hr
    have hpow : 2 ^ e ∣ r := hdvd e ((pow_dvd_pow_of_dvd (by decide) e).mul_left m)
    rw [heq] at hpow
    have h16pow : (16 : Nat) ^ es.length = 2 ^ (4 * es.length) := by
      rw [pow_mul]
      rfl
    -- the digits behind the mark must be zeros
    have hzero : ofXDigits es = 0 := by
      rcases Nat.le_total e (4 * es.length) with hshort | hlong
      · have h16 : 2 ^ e ∣ 16 ^ es.length := h16pow ▸ pow_dvd_pow 2 hshort
        exact Nat.eq_zero_of_dvd_of_lt ((Nat.dvd_add_right (h16.mul_left _)).mp hpow) htwo
      · have h16 : 16 ^ es.length ∣ 2 ^ e := h16pow ▸ pow_dvd_pow 2 hlong
        exact Nat.eq_zero_of_dvd_of_lt
          ((Nat.dvd_add_right (Dvd.intro_left _ rfl)).mp (h16.trans hpow)) hlt
    have he : e = 0 := by
      have := Kconfig.ofDigitChars_le hes
      omega
    -- and then the float is far too small
    rw [he, pow_zero, mul_one] at hdouble
    have hmul : 16 * (16 * ofXDigits ip + 14) ≤ (16 * ofXDigits ip + 14) * 16 ^ es.length := by
      rw [mul_comm]
      exact Nat.mul_le_mul_left _ hlength
    omega

theorem splitSign_of_isXDigit {s : Text} (hs : ∀ c ∈ s, isXDigit c = true) :
    splitSign s = (false, s) := by
  unfold splitSign
  split
  · exact absurd (hs '-' (List.mem_cons_self ..)) Bool.false_ne_true
  · exact absurd (hs '+' (List.mem_cons_self ..)) Bool.false_ne_true
  · rfl

theorem exponentPart_letter {c : Char} {t : Text} (ht : ∀ d ∈ t, isXDigit d = true) {e : Int}
    (he : exponentPart decimal (c :: t) = some e) :
    Kconfig.xDigitVal c = 14 ∧ t ≠ [] ∧ (∀ d ∈ t, d.isDigit = true) ∧
      e = Nat.ofDigitChars 10 t 0 := by
  simp only [exponentPart, splitSign_of_isXDigit ht] at he
  split at he
  · rename_i h
    obtain ⟨hmark, hne, hall⟩ := h
    cases he
    refine ⟨?_, hne, List.all_eq_true.mp hall, rfl⟩
    rcases of_decide_eq_true hmark with rfl | rfl
    · rfl
    · rfl
  · cases he

theorem toInteger_decimal_iff {ds : Text} (hdigits : ∀ c ∈ ds, c.isDigit = true) (hne : ds ≠ []) :
    (toNumber ds).bind toInteger = some (ofXDigits ds : Int) ↔ ofXDigits ds < 10 := by
  obtain ⟨n, hn, hread, hrange⟩ := toNumber_decimal false hdigits hne
  rw [if_neg (by decide)] at hn
  rw [hn, Option.bind_some, ← Kconfig.ofDigitChars_eq_iff hdigits]
  simp only [signed, Bool.false_eq_true, if_false] at hread
  have hle := Kconfig.ofDigitChars_le hdigits
  constructor
  · intro h
    have hlt := (hrange _ h).2
    have hvalue := hread ⟨by omega, by omega⟩
    rw [h] at hvalue
    simp only [Option.some.injEq, Int.natCast_inj] at hvalue
    exact hvalue.symm
  · intro h
    have hlt := (Kconfig.ofDigitChars_eq_iff hdigits).mp h
    rw [← h] at hlt ⊢
    exact hread ⟨by omega, by omega⟩

section letter
variable {ip t : Text} {c : Char}

theorem ten_le_of_letter (hcx : isXDigit c = true) (hc : c.isDigit = false) :
    10 ≤ ofXDigits (ip ++ c :: t) := by
  have happend : ip ++ c :: t = (ip ++ [c]) ++ t := by simp
  have hval := (Kconfig.xDigitVal_of_letter hcx hc).1
  have hpos : 0 < 16 ^ t.length := Nat.pow_pos (Nat.succ_pos 15)
  have hmul := Nat.mul_le_mul_right (16 ^ t.length)
    (show 10 ≤ 16 * ofXDigits ip + Kconfig.xDigitVal c by omega)
  rw [happend, Kconfig.ofXDigits_append, Kconfig.ofXDigits_concat]
  omega

/-- Hexadecimal digits without a prefix are not read as such. -/
theorem toNumber_of_letter {ds : Text} (hds : ∀ c ∈ ds, isXDigit c = true)
    (hdigits : ¬ ∀ c ∈ ds, c.isDigit = true) : toNumber ds = numeral decimal false ds := by
  have htrim : trim ds = ds := trim_eq_self
    (fun d hd => isSpace_of_isXDigit (hds d (List.mem_of_mem_head? hd)))
    fun d hd => isSpace_of_isXDigit (hds d (List.mem_of_getLast? hd))
  have hprefix := ne_hexPrefix (t := ds) (fun h => Bool.false_ne_true (hds 'x' h))
    fun h => Bool.false_ne_true (hds 'X' h)
  exact (toNumber_of_sign htrim (splitSign_of_isXDigit hds) hprefix).trans
    (if_neg fun h => hdigits (List.all_eq_true.mp h.2.1))

theorem toInteger_letter_ne (hds : ∀ d ∈ ip ++ c :: t, isXDigit d = true)
    (hip : ∀ d ∈ ip, d.isDigit = true) (hc : c.isDigit = false) :
    (toNumber (ip ++ c :: t)).bind toInteger ≠ some (ofXDigits (ip ++ c :: t) : Int) := by
  have htx : ∀ d ∈ t, isXDigit d = true := fun d hd => hds d (by simp [hd])
  have hstop : ∀ d ∈ (c :: t).head?, decimal.digit d = false := by
    rintro d hd
    cases hd
    exact hc
  have hdot : (c :: t).head? ≠ some '.' := by
    rintro hd
    cases hd
    exact Bool.false_ne_true (hds '.' (by simp))
  intro h
  rw [toNumber_of_letter hds fun hall => Bool.false_ne_true (hc.symm.trans (hall c (by simp))),
    numeral_of_head false (Scan.span_append hip hstop) hdot] at h
  split at h
  · cases h
  · simp only [Option.bind_eq_some_iff, Option.map_eq_some_iff] at h
    obtain ⟨n, ⟨e, he, rfl⟩, h⟩ := h
    obtain ⟨hletter, htne, htdigits, rfl⟩ := exponentPart_letter htx he
    simp only [toInteger, Option.bind_eq_some_iff] at h
    obtain ⟨r, hr, h⟩ := h
    split at h
    · have hr' : r = ofXDigits (ip ++ c :: t) := by
        simpa [signed] using h
      have hexp : (-((Nat.ofDigitChars 10 t 0 : Nat) : Int)).toNat = 0 := by omega
      rw [hexp, pow_zero, Int.toNat_natCast] at hr
      exact exponent_ne hip htdigits htne hletter hr hr'
    · cases h

end letter

/-- Only a single digit is the same number with and without the hexadecimal prefix. -/
theorem toInteger_unprefixed_iff {ds : Text} (hds : ∀ c ∈ ds, isXDigit c = true) (hne : ds ≠ []) :
    (toNumber ds).bind toInteger = some (ofXDigits ds : Int) ↔ ofXDigits ds < 10 := by
  by_cases hdigits : ∀ c ∈ ds, c.isDigit = true
  · exact toInteger_decimal_iff hdigits hne
  · obtain ⟨ip, c, t, rfl, hip, hc⟩ := Scan.exists_first hdigits
    have hlarge : 10 ≤ ofXDigits (ip ++ c :: t) := ten_le_of_letter (hds c (by simp)) hc
    exact iff_of_false (toInteger_letter_ne hds hip hc) (Nat.not_lt.mpr hlarge)

end Dir842.Lua
