import Dir842.Kconfig.Symbol
import Dir842.Lib.Scan
import Mathlib.Logic.Function.Basic

/-!
# The offset of a zone (`gen4dm.py`)

`out_zone` emits a zone when its last line is known. The sign is read with the hours only, and
`int("-0")` has none.
-/

namespace Dir842.Tz

open Kconfig (Text)
open Words

/-- How the program stops. -/
inductive Failure
  | indexError
  | keyError (zone : Text)
  /-- `GMT offset … was not parsed for …` -/
  | notParsed (gmtoff name : Text)
deriving DecidableEq

/-- `Data[zone]`; the key `Links` comes with the first link. -/
structure Entry where
  offset : Int
  links : Option (List Text)
deriving DecidableEq

structure Out where
  names : List Text
  links : List Text
  data : Text → Option Entry

def num (ds : Text) : Int := Nat.ofDigitChars 10 ds 0

/-- `int` of a decimal text. -/
def int : Text → Int
  | '-' :: ds => -num ds
  | '+' :: ds => num ds
  | ds => num ds

/-- `[0-9]{lo,hi}` -/
def digits (lo hi : Nat) (s : Text) : Bool := s.all Char.isDigit && lo ≤ s.length && s.length ≤ hi

/-- The text behind `[-+]?`. -/
def unsigned : Text → Text
  | '-' :: s => s
  | '+' :: s => s
  | s => s

def offInSeconds (gmtoff : Text) : Option Int :=
  if digits 1 2 (unsigned gmtoff) then
    some (int gmtoff * 3600)
  else
    match gmtoff.splitOn ':' with
    | [hours, minutes] =>
      if digits 1 2 (unsigned hours) && digits 2 2 minutes then
        let off := int hours * 3600
        some (if 0 ≤ off then off + int minutes * 60 else off - int minutes * 60)
      else none
    | _ => none

def item (ws : List Text) (i : Nat) : Except Failure Text :=
  match ws[i]? with
  | some w => .ok w
  | none => .error .indexError

/-- A zone without continuation lines has its offset in the header. -/
def gmtoffItem (header last : Text) : Except Failure Text :=
  if header = last then item (words header) 2 else item (words last) 0

def Out.emit (out : Out) (name : Text) (offset : Int) : Out :=
  { out with
    names := out.names ++ [name]
    data := Function.update out.data name (some ⟨offset, none⟩) }

def outZone (out : Out) (header last : Text) : Except Failure Out := do
  let name ← item (words header) 1
  let gmtoff ← gmtoffItem header last
  match offInSeconds gmtoff with
  | some off => .ok (out.emit name off)
  | none => .error (.notParsed gmtoff name)

/-! ### Offsets -/

inductive Sign
  | absent | plus | minus
deriving DecidableEq

def Sign.text : Sign → Text
  | absent => []
  | plus => ['+']
  | minus => ['-']

def Sign.factor : Sign → Int
  | absent | plus => 1
  | minus => -1

/-- An offset with an optional sign, hours of one or two digits and optional minutes. -/
structure GmtOff where
  sign : Sign
  hours : Text
  minutes : Option Text
  digits_hours : digits 1 2 hours = true
  digits_minutes : ∀ m ∈ minutes, digits 2 2 m = true

namespace GmtOff

def text (o : GmtOff) : Text := o.sign.text ++ o.hours ++ o.minutes.elim [] (':' :: ·)

def hour (o : GmtOff) : Int := num o.hours

def minute (o : GmtOff) : Int := o.minutes.elim 0 num

def seconds (o : GmtOff) : Int := o.sign.factor * (o.hour * 3600 + o.minute * 60)

/-- West of Greenwich by less than an hour. -/
def LosesSign (o : GmtOff) : Prop := o.sign = .minus ∧ o.hour = 0 ∧ o.minute ≠ 0

end GmtOff

theorem num_nonneg (ds : Text) : 0 ≤ num ds := Int.natCast_nonneg _

theorem isDigit_of_digits {lo hi : Nat} {s : Text} (h : digits lo hi s = true) :
    ∀ c ∈ s, c.isDigit = true := by
  simp only [digits, Bool.and_eq_true, List.all_eq_true] at h
  exact h.1.1

theorem ne_nil_of_digits {lo hi : Nat} {s : Text} (h : digits lo hi s = true) (hlo : 0 < lo) :
    s ≠ [] := by
  rintro rfl
  simp only [digits, Bool.and_eq_true, decide_eq_true_eq, List.length_nil] at h
  omega

theorem digits_colon {lo hi : Nat} {s t : Text} : digits lo hi (s ++ ':' :: t) = false := by
  simp [digits, Char.isDigit]

section
variable {s : Text}

theorem unsigned_of_isDigit (hs : ∀ c ∈ s.head?, c.isDigit = true) : unsigned s = s := by
  unfold unsigned
  split
  · exact absurd (hs '-' rfl) Bool.false_ne_true
  · exact absurd (hs '+' rfl) Bool.false_ne_true
  · rfl

theorem int_of_isDigit (hs : ∀ c ∈ s.head?, c.isDigit = true) : int s = num s := by
  unfold int
  split
  · exact absurd (hs '-' rfl) Bool.false_ne_true
  · exact absurd (hs '+' rfl) Bool.false_ne_true
  · rfl

theorem unsigned_sign (sign : Sign) (hs : ∀ c ∈ s.head?, c.isDigit = true) :
    unsigned (sign.text ++ s) = s := by
  cases sign with
  | absent => exact unsigned_of_isDigit hs
  | plus | minus => rfl

theorem int_sign (sign : Sign) (hs : ∀ c ∈ s.head?, c.isDigit = true) :
    int (sign.text ++ s) = sign.factor * num s := by
  cases sign with
  | absent => exact (int_of_isDigit hs).trans (one_mul _).symm
  | plus => exact (one_mul _).symm
  | minus => exact (neg_one_mul _).symm

end

namespace GmtOff
variable (o : GmtOff)

theorem head?_hours (t : Text) : ∀ c ∈ (o.hours ++ t).head?, c.isDigit = true := by
  rw [List.head?_append_of_ne_nil _ (ne_nil_of_digits o.digits_hours Nat.one_pos)]
  exact fun c hc => isDigit_of_digits o.digits_hours c (List.mem_of_mem_head? hc)

theorem unsigned_hours : unsigned (o.sign.text ++ o.hours) = o.hours :=
  unsigned_sign o.sign fun c hc => o.head?_hours [] c (by rwa [List.append_nil])

theorem int_hours : int (o.sign.text ++ o.hours) = o.sign.factor * o.hour :=
  int_sign o.sign fun c hc => o.head?_hours [] c (by rwa [List.append_nil])

theorem not_mem_hours : ':' ∉ o.sign.text ++ o.hours := by
  rw [List.mem_append, not_or]
  refine ⟨?_, fun h => absurd (isDigit_of_digits o.digits_hours _ h) Bool.false_ne_true⟩
  cases o.sign <;> simp [Sign.text]

theorem offInSeconds_hours (h : o.minutes = none) : offInSeconds o.text = some o.seconds := by
  have htext : o.text = o.sign.text ++ o.hours := by
    rw [text, h, Option.elim_none, List.append_nil]
  rw [htext, offInSeconds, unsigned_hours, if_pos o.digits_hours, int_hours, seconds, minute, h,
    Option.elim_none, zero_mul, add_zero, mul_assoc]

/-- The minutes are counted away from zero, where the hours say that it is west. -/
theorem offInSeconds_minutes {m : Text} (h : o.minutes = some m) :
    offInSeconds o.text =
      some (o.sign.factor * o.hour * 3600 +
        if 0 ≤ o.sign.factor * o.hour * 3600 then o.minute * 60 else -(o.minute * 60)) := by
  have hm := o.digits_minutes m h
  have htext : o.text = (o.sign.text ++ o.hours) ++ ':' :: m := by
    rw [text, h, Option.elim_some]
  have hdigits : digits 1 2 (unsigned o.text) = false := by
    rw [htext, List.append_assoc, unsigned_sign _ (o.head?_hours _), digits_colon]
  have hcolon : ':' ∉ m := fun hc => absurd (isDigit_of_digits hm _ hc) Bool.false_ne_true
  have hint : int m = o.minute := by
    rw [minute, h, Option.elim_some]
    exact int_of_isDigit fun c hc => isDigit_of_digits hm c (List.mem_of_mem_head? hc)
  rw [offInSeconds, hdigits, if_neg Bool.false_ne_true, htext,
    List.splitOn_append_cons_self_of_not_mem o.not_mem_hours, List.splitOn_eq_singleton hcolon]
  simp only [unsigned_hours, o.digits_hours, hm, Bool.and_self, if_true, int_hours, hint]
  split_ifs
  · rfl
  · rw [sub_eq_add_neg]

/-- The sign survives unless it stands before hours that are zero. -/
theorem offInSeconds_text_iff : offInSeconds o.text = some o.seconds ↔ ¬ o.LosesSign := by
  have hhour : 0 ≤ o.hour := num_nonneg o.hours
  cases h : o.minutes with
  | none =>
    have hminute : o.minute = 0 := by rw [minute, h, Option.elim_none]
    exact iff_of_true (o.offInSeconds_hours h) fun hl => hl.2.2 hminute
  | some m =>
    rw [o.offInSeconds_minutes h, Option.some.injEq, seconds, LosesSign]
    cases o.sign with
    | absent | plus =>
      simp only [Sign.factor, one_mul]
      rw [if_pos (by omega)]
      exact iff_of_true rfl fun hl => nomatch hl.1
    | minus =>
      simp only [Sign.factor, true_and]
      split_ifs with hsign <;> omega

theorem offInSeconds_of_losesSign (h : o.LosesSign) : offInSeconds o.text = some (-o.seconds) := by
  obtain ⟨hsign, hhour, hminute⟩ := h
  cases hm : o.minutes with
  | none =>
    refine absurd ?_ hminute
    rw [minute, hm, Option.elim_none]
  | some m =>
    rw [o.offInSeconds_minutes hm, seconds, hsign, hhour]
    simp [Sign.factor]

end GmtOff

theorem exists_sign (s : Text) : ∃ sign : Sign, s = sign.text ++ unsigned s := by
  unfold unsigned
  split
  · exact ⟨.minus, rfl⟩
  · exact ⟨.plus, rfl⟩
  · exact ⟨.absent, rfl⟩

/-- What is converted has the form of an offset, and the other way round. -/
theorem offInSeconds_eq_none_iff {s : Text} :
    offInSeconds s = none ↔ ∀ o : GmtOff, o.text ≠ s := by
  constructor
  · rintro h o rfl
    cases hm : o.minutes with
    | none =>
      rw [o.offInSeconds_hours hm] at h
      cases h
    | some m =>
      rw [o.offInSeconds_minutes hm] at h
      cases h
  · intro h
    unfold offInSeconds
    split_ifs with hd
    · obtain ⟨sign, hs⟩ := exists_sign s
      refine absurd ?_ (h ⟨sign, unsigned s, none, hd, nofun⟩)
      rw [GmtOff.text, Option.elim_none, List.append_nil]
      exact hs.symm
    · split
      · rename_i hours m hsplit
        refine if_neg fun hform => ?_
        rw [Bool.and_eq_true] at hform
        obtain ⟨sign, hs⟩ := exists_sign hours
        refine h ⟨sign, unsigned hours, some m, hform.1, fun _ hm => ?_⟩ ?_
        · rw [← Option.mem_some.mp hm]
          exact hform.2
        · rw [GmtOff.text, Option.elim_some, ← hs, ← @List.intercalate_splitOn _ s _ _ ':', hsplit]
          simp [List.intercalate]
      · rfl

/-! ### Zones -/

def word (line : Text) (i : Nat) : Text := (words line)[i]?.getD []

/-- The offset that is in force in a zone with these lines, as it is written. -/
def finalOffset (header last : Text) : Text :=
  if header = last then word header 2 else word last 0

section
variable (out : Out) (name : Text) (offset : Int)

@[simp] theorem Out.emit_names : (out.emit name offset).names = out.names ++ [name] := rfl

@[simp] theorem Out.emit_data_self : (out.emit name offset).data name = some ⟨offset, none⟩ :=
  Function.update_self ..

theorem Out.emit_data_of_ne {z : Text} (h : z ≠ name) :
    (out.emit name offset).data z = out.data z :=
  Function.update_of_ne h ..

end

theorem item_of_lt {line : Text} {i : Nat} (h : i < (words line).length) :
    item (words line) i = .ok (word line i) := by
  rw [item, word, List.getElem?_eq_getElem h, Option.getD_some]

theorem item_cases (line : Text) (i : Nat) :
    item (words line) i = .ok (word line i) ∨
      item (words line) i = .error .indexError ∧ word line i = [] := by
  unfold item word
  cases (words line)[i]? with
  | some w => exact .inl rfl
  | none => exact .inr ⟨rfl, rfl⟩

theorem gmtoffItem_cases {header : Text} (h : 3 ≤ (words header).length) (last : Text) :
    gmtoffItem header last = .ok (finalOffset header last) ∨
      gmtoffItem header last = .error .indexError ∧ finalOffset header last = [] := by
  unfold gmtoffItem finalOffset
  split_ifs
  · exact .inl (item_of_lt h)
  · exact item_cases last 0

/-- `out_zone` emits the zone unless its offset has another form. -/
theorem outZone_eq {header : Text} (h : 3 ≤ (words header).length) (out : Out) (last : Text) :
    (∃ off, offInSeconds (finalOffset header last) = some off ∧
        outZone out header last = .ok (out.emit (word header 1) off)) ∨
      offInSeconds (finalOffset header last) = none ∧
        ∃ failure, outZone out header last = .error failure := by
  have hname : item (words header) 1 = .ok (word header 1) := item_of_lt (by omega)
  rcases gmtoffItem_cases h last with hitem | ⟨hitem, hnil⟩
  · cases hoff : offInSeconds (finalOffset header last) with
    | some off =>
      exact .inl ⟨off, rfl, by simp only [outZone, hname, hitem, bind, Except.bind, hoff]⟩
    | none =>
      exact .inr ⟨rfl, .notParsed (finalOffset header last) (word header 1), by
        simp only [outZone, hname, hitem, bind, Except.bind, hoff]⟩
  · rw [hnil]
    exact .inr ⟨rfl, .indexError, by simp only [outZone, hname, hitem, bind, Except.bind]⟩

/-- A zone has the offset that its last line says exactly when the sign is not that of a zero. -/
theorem outZone_offset_iff {header last : Text} {o : GmtOff} (h : 3 ≤ (words header).length)
    (hlast : finalOffset header last = o.text) (out : Out) :
    (∃ out', outZone out header last = .ok out' ∧
        (out'.data (word header 1)).map Entry.offset = some o.seconds) ↔
      ¬ (o.sign = .minus ∧ o.hour = 0 ∧ o.minute ≠ 0) := by
  refine Iff.trans ?_ o.offInSeconds_text_iff
  rw [← hlast]
  rcases outZone_eq h out last with ⟨off, hoff, hzone⟩ | ⟨hoff, failure, hzone⟩
  · simp [hzone, hoff]
  · simp [hzone, hoff]

/-- `-11:30` -/
def halfPastWest : GmtOff where
  sign := .minus
  hours := "11".toList
  minutes := some "30".toList
  digits_hours := rfl
  digits_minutes := fun _ hm => Option.mem_some.mp hm ▸ rfl

/-- `Z Pacific/Niue -11:30` -/
def niue : Text := "Z Pacific/Niue -11:30".toList

theorem words_niue : words niue = ["Z".toList, "Pacific/Niue".toList, "-11:30".toList] := rfl

theorem outZone_offset_niue :
    (∃ out', outZone ⟨[], [], fun _ => none⟩ niue niue = .ok out' ∧
        (out'.data (word niue 1)).map Entry.offset = some halfPastWest.seconds) ↔
      ¬ (halfPastWest.sign = .minus ∧ halfPastWest.hour = 0 ∧ halfPastWest.minute ≠ 0) :=
  @outZone_offset_iff niue niue halfPastWest (by rw [words_niue]; exact le_rfl)
    (by rw [finalOffset, if_pos rfl, word, words_niue]; rfl) ⟨[], [], fun _ => none⟩

/-- `-0:30` -/
def halfHourWest : GmtOff where
  sign := .minus
  hours := "0".toList
  minutes := some "30".toList
  digits_hours := rfl
  digits_minutes := fun _ hm => Option.mem_some.mp hm ▸ rfl

/-- `Z Test/West -0:30` -/
def west : Text := "Z Test/West -0:30".toList

theorem words_west : words west = ["Z".toList, "Test/West".toList, "-0:30".toList] := rfl

/-- Half an hour west of Greenwich becomes half an hour east. -/
theorem not_outZone_offset :
    ¬ ∀ (header last : Text) (o : GmtOff) (out : Out), 3 ≤ (words header).length →
      finalOffset header last = o.text →
      ∃ out', outZone out header last = .ok out' ∧
        (out'.data (word header 1)).map Entry.offset = some o.seconds := by
  intro h
  have hlength : 3 ≤ (words west).length := by rw [words_west]; exact le_rfl
  have hlast : finalOffset west west = halfHourWest.text := by
    rw [finalOffset, if_pos rfl, word, words_west]; rfl
  obtain ⟨out', hzone, hoffset⟩ := h west west halfHourWest ⟨[], [], fun _ => none⟩ hlength hlast
  rcases outZone_eq hlength ⟨[], [], fun _ => none⟩ west with ⟨off, hoff, heq⟩ | ⟨-, _, heq⟩
  · rw [hzone, Except.ok.injEq] at heq
    rw [heq, Out.emit_data_self, Option.map_some, ← hoff, hlast] at hoffset
    exact (halfHourWest.offInSeconds_text_iff.mp hoffset) ⟨rfl, rfl, by decide⟩
  · rw [hzone] at heq
    cases heq

end Dir842.Tz
