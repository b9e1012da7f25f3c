import Dir842.Lib.Csv
import Dir842.Lib.Registry
import Dir842.Lib.Scan
import Mathlib.Algebra.BigOperators.Group.Finset.Basic
import Mathlib.Algebra.Order.Ring.Int
import Mathlib.Data.List.AList

/-!
# What the steps of a build took (`Makefile.package.in`, `graph-build-time`)

`step_time` writes a line to `build-time.log` when a step of a package starts and when it ends;
`read_data` makes of the lines the duration of each step of each package.
-/

namespace Dir842.BuildTime

/-! ### The log -/

/-- The steps between `step_start` and `step_end`. -/
inductive Step
  | extract | patch | configure | build
  | installHost | installStaging | installImage | installTarget
deriving DecidableEq

def Step.text : Step → List Char
  | .extract => "extract".toList
  | .patch => "patch".toList
  | .configure => "configure".toList
  | .build => "build".toList
  | .installHost => "install-host".toList
  | .installStaging => "install-staging".toList
  | .installImage => "install-image".toList
  | .installTarget => "install-target".toList

inductive Mark | start | stop
deriving DecidableEq

def Mark.text : Mark → List Char
  | .start => "start".toList
  | .stop => "end".toList

def isNameChar (c : Char) : Bool := c.isAlphanum || c ∈ ['-', '_', '.', '+']

/-- `$(PKG)_NAME`: the name of a directory that is part of names of variables and targets. -/
structure PkgName where
  text : List Char
  isNameChar_of_mem : ∀ c ∈ text, isNameChar c = true
deriving DecidableEq

/-- What a call of `step_time` is given, and `date +%s`. -/
structure Record where
  time : Nat
  mark : Mark
  step : Step
  pkg : PkgName

/-- `%-w.ws` -/
def padded (w : Nat) (s : List Char) : List Char := (s.take w).rightpad w ' '

def Record.fields (r : Record) : List (List Char) :=
  [Nat.toDigits 10 r.time, padded 5 r.mark.text, padded 20 r.step.text]

/-- `printf "%s:%-5.5s:%-20.20s: %s\n"` -/
def stepTime (r : Record) : List Char := Csv.line ':' r.fields (' ' :: r.pkg.text)

/-- One run of the rule of a step. It has no end if a command of it fails, or `make` is stopped. -/
structure StepRun where
  pkg : PkgName
  step : Step
  start : Nat
  stop : Option Nat
  start_le : ∀ t ∈ stop, start ≤ t

def StepRun.records (r : StepRun) : List Record :=
  ⟨r.start, .start, r.step, r.pkg⟩ :: (r.stop.map fun t => ⟨t, .stop, r.step, r.pkg⟩).toList

/-- The runs of any number of invocations of `make`, one after the other. -/
structure History where
  runs : List StepRun
  serial : runs.Pairwise fun r r' => r.stop.getD r.start ≤ r'.start

def History.log (h : History) : List Char := (h.runs.flatMap StepRun.records).flatMap stepTime

/-! ### `graph-build-time` -/

def steps : List (List Char) :=
  ["extract".toList, "patch".toList, "configure".toList, "build".toList,
    "install-target".toList, "install-staging".toList, "install-images".toList,
    "install-host".toList]

abbrev Dict := AList fun _ : List Char => Int

structure Package where
  name : List Char
  stepsDuration : Dict
  stepsStart : Dict
  stepsEnd : Dict

def Package.new (name : List Char) : Package := ⟨name, ∅, ∅, ∅⟩

/-- The end of `add_step`. -/
def Package.setDuration (p : Package) (step : List Char) : Package :=
  match p.stepsStart.lookup step, p.stepsEnd.lookup step with
  | some start, some stop =>
    { p with stepsDuration := p.stepsDuration.insert step (stop - start) }
  | _, _ => p

def Package.addStep (p : Package) (step state : List Char) (time : Int) : Package :=
  if state = "start".toList then
    { p with stepsStart := p.stepsStart.insert step time }.setDuration step
  else
    { p with stepsEnd := p.stepsEnd.insert step time }.setDuration step

def Package.getDuration (p : Package) : Option (List Char) → Int
  | none => (p.stepsDuration.keys.map fun step => (p.stepsDuration.lookup step).getD 0).sum
  | some step => (p.stepsDuration.lookup step).getD 0

/-- `strip` of a text -/
def strip (s : List Char) : List Char := (Words.lstrip (Words.lstrip s).reverse).reverse

/-- The digits of `int`, with single `_` between them. -/
def digits (s : List Char) : Option Nat :=
  if ∀ part ∈ s.splitOn '_', part ≠ [] ∧ part.all Char.isDigit then
    some (Nat.ofDigitChars 10 (s.splitOn '_').flatten 0)
  else
    none

def int : List Char → Option Int
  | '-' :: s => (digits s).map fun n => -n
  | '+' :: s => (digits s).map fun n => n
  | s => (digits s).map fun n => n

/-- The body of the loop of `read_data`; `none` where it raises. -/
def addRow (pkgs : List Package) (row : List (List Char)) : Option (List Package) := do
  let time ← int (strip (← row[0]?))
  let state := strip (← row[1]?)
  let step := strip (← row[2]?)
  let pkg := strip (← row[3]?)
  pure (Registry.update Package.name .new pkg (fun p => p.addStep step state time) pkgs)

def readData (s : List Char) : Option (List Package) := (Csv.reader ':' s).foldlM addRow []

/-! ### The lines are read back -/

theorem lstrip_blanks (n : Nat) (s : List Char) :
    Words.lstrip (List.replicate n ' ' ++ s) = Words.lstrip s := by
  refine List.dropWhile_append_of_pos fun c hc => ?_
  rw [List.eq_of_mem_replicate hc]
  rfl

theorem lstrip_eq_self {s : List Char} (hs : ∀ c ∈ s.head?, Words.isSpace c = false) :
    Words.lstrip s = s := Scan.dropWhile_eq_self hs

/-- A text that is not blank at its ends, and the end of the line. -/
theorem strip_newline {t : List Char} (hne : t ≠ [])
    (hhead : ∀ c ∈ t.head?, Words.isSpace c = false)
    (hlast : ∀ c ∈ t.getLast?, Words.isSpace c = false) : strip (t ++ ['\n']) = t := by
  have hfirst : Words.lstrip (t ++ ['\n']) = t ++ ['\n'] :=
    lstrip_eq_self (by rwa [List.head?_append_of_ne_nil _ hne])
  have hblank : Words.lstrip ('\n' :: t.reverse) = Words.lstrip t.reverse :=
    List.dropWhile_cons_of_pos rfl
  rw [strip, hfirst, List.reverse_append, List.reverse_singleton, List.singleton_append, hblank,
    lstrip_eq_self (by rwa [List.head?_reverse]), List.reverse_reverse]

theorem strip_pad {t : List Char} (ht : ∀ c ∈ t, Words.isSpace c = false) (m n : Nat) :
    strip (List.replicate m ' ' ++ (t ++ List.replicate n ' ')) = t := by
  rw [strip, lstrip_blanks]
  cases t with
  | nil =>
    have hblanks := lstrip_blanks n []
    rw [List.append_nil] at hblanks
    rw [List.nil_append, hblanks]
    rfl
  | cons c t =>
    have hfirst : ∀ a ∈ (c :: t ++ List.replicate n ' ').head?, Words.isSpace a = false :=
      fun a ha => Option.some.inj ha ▸ ht c List.mem_cons_self
    have hlast : ∀ a ∈ (c :: t).reverse.head?, Words.isSpace a = false := fun a ha =>
      ht a (List.mem_reverse.mp (List.mem_of_head? ha))
    rw [lstrip_eq_self hfirst, List.reverse_append, List.reverse_replicate, lstrip_blanks,
      lstrip_eq_self hlast, List.reverse_reverse]

theorem strip_padded {w : Nat} {t : List Char} (hw : t.length ≤ w)
    (ht : ∀ c ∈ t, Words.isSpace c = false) : strip (padded w t) = t := by
  rw [padded, List.take_of_length_le hw]
  exact strip_pad ht 0 (w - t.length)

theorem strip_eq_self {t : List Char} (ht : ∀ c ∈ t, Words.isSpace c = false) : strip t = t := by
  simpa using strip_pad ht 0 0

theorem not_isSpace_of_isDigit {c : Char} (hc : c.isDigit) : Words.isSpace c = false := by
  have hne : ∀ d, d.isDigit = false → c ≠ d := fun d => Scan.ne_of_true_of_false hc
  simp only [Words.isSpace, decide_eq_false_iff_not]
  rintro (rfl | rfl | rfl | rfl | rfl | rfl) <;> exact hne _ rfl rfl

theorem isDigit_of_mem {n : Nat} {c : Char} (hc : c ∈ Nat.toDigits 10 n) : c.isDigit :=
  Nat.isDigit_of_mem_toDigits (by decide) (by decide) hc

theorem digits_toDigits (n : Nat) : digits (Nat.toDigits 10 n) = some n := by
  have hsplit : (Nat.toDigits 10 n).splitOn '_' = [Nat.toDigits 10 n] := by
    refine List.splitOn_eq_singleton_of_beq_eq_false fun c hc => beq_eq_false_iff_ne.mpr ?_
    exact ne_of_mem_of_not_mem hc Nat.underscore_not_in_toDigits
  rw [digits, hsplit, if_pos, List.flatten_singleton, Nat.ofDigitChars_ten_toDigits]
  refine List.forall_mem_singleton.mpr ⟨Nat.toDigits_ne_nil, ?_⟩
  exact List.all_eq_true.mpr fun c hc => isDigit_of_mem hc

theorem int_toDigits (n : Nat) : int (Nat.toDigits 10 n) = some (n : Int) := by
  have hdigit := @isDigit_of_mem n
  rw [int, digits_toDigits]
  · rfl
  all_goals
    intro s hs
    exact absurd (hdigit (hs ▸ List.mem_cons_self)) (by decide)

theorem plain_of_isNameChar {c : Char} (hc : isNameChar c = true) :
    (c ≠ '\n' ∧ c ≠ ':' ∧ c ≠ '"') ∧ Words.isSpace c = false := by
  have hne : ∀ d, isNameChar d = false → c ≠ d := fun d => Scan.ne_of_true_of_false hc
  refine ⟨⟨hne _ rfl, hne _ rfl, hne _ rfl⟩, ?_⟩
  simp only [Words.isSpace, decide_eq_false_iff_not]
  rintro (rfl | rfl | rfl | rfl | rfl | rfl) <;> exact hne _ rfl rfl

theorem Step.isNameChar_of_mem (s : Step) : ∀ c ∈ s.text, isNameChar c = true :=
  List.all_eq_true.mp (by cases s <;> rfl)

theorem Mark.isNameChar_of_mem (m : Mark) : ∀ c ∈ m.text, isNameChar c = true :=
  List.all_eq_true.mp (by cases m <;> rfl)

theorem plain_padded {w : Nat} {t : List Char} (ht : ∀ c ∈ t, isNameChar c = true) :
    Csv.Plain ':' (padded w t) := by
  intro c hc
  rcases List.mem_append.mp hc with hc | hc
  · exact (plain_of_isNameChar (ht c (List.mem_of_mem_take hc))).1
  · rw [List.eq_of_mem_replicate hc]
    decide

theorem Record.plain_of_mem_fields (r : Record) : ∀ f ∈ r.fields, Csv.Plain ':' f := by
  refine List.forall_mem_cons.mpr ⟨fun c hc => ?_, List.forall_mem_cons.mpr ⟨?_, ?_⟩⟩
  · have hdigit := isDigit_of_mem hc
    exact (plain_of_isNameChar (by simp [isNameChar, Char.isAlphanum, hdigit])).1
  · exact plain_padded r.mark.isNameChar_of_mem
  · exact List.forall_mem_singleton.mpr (plain_padded r.step.isNameChar_of_mem)

theorem PkgName.plain (n : PkgName) : Csv.Plain ':' (' ' :: n.text) :=
  List.forall_mem_cons.mpr
    ⟨by decide, fun c hc => (plain_of_isNameChar (n.isNameChar_of_mem c hc)).1⟩

theorem reader_log (rs : List Record) : Csv.reader ':' (rs.flatMap stepTime) =
    rs.map fun r => r.fields ++ [' ' :: r.pkg.text] :=
  Csv.reader_flatMap_line (by decide) Record.plain_of_mem_fields (fun r => List.cons_ne_nil _ _)
    (fun r => r.pkg.plain) rs

/-- What a line makes of the object of its package. -/
def Record.act (r : Record) (p : Package) : Package := p.addStep r.step.text r.mark.text r.time

theorem addRow_record (r : Record) (ps : List Package) :
    addRow ps (r.fields ++ [' ' :: r.pkg.text]) =
      some (Registry.update Package.name .new r.pkg.text r.act ps) := by
  have htime : strip (Nat.toDigits 10 r.time) = Nat.toDigits 10 r.time :=
    strip_eq_self fun c hc => not_isSpace_of_isDigit (isDigit_of_mem hc)
  have hmark : strip (padded 5 r.mark.text) = r.mark.text :=
    strip_padded (by cases r.mark <;> decide)
      fun c hc => (plain_of_isNameChar (r.mark.isNameChar_of_mem c hc)).2
  have hstep : strip (padded 20 r.step.text) = r.step.text :=
    strip_padded (by cases r.step <;> decide)
      fun c hc => (plain_of_isNameChar (r.step.isNameChar_of_mem c hc)).2
  have hpkg : strip (' ' :: r.pkg.text) = r.pkg.text := by
    have hpad := strip_pad
      (fun c hc => (plain_of_isNameChar (r.pkg.isNameChar_of_mem c hc)).2) 1 0
    rwa [List.replicate_zero, List.append_nil] at hpad
  show (int (strip (Nat.toDigits 10 r.time))).bind _ = _
  rw [htime, int_toDigits]
  show some (Registry.update Package.name .new (strip (' ' :: r.pkg.text)) (fun p =>
    p.addStep (strip (padded 20 r.step.text)) (strip (padded 5 r.mark.text)) r.time) ps) = _
  rw [hmark, hstep, hpkg]
  rfl

/-- The packages of the records, each with what its own records make of it. -/
def packages (rs : List Record) : List Package :=
  Registry.collect Package.name .new (fun r : Record => r.pkg.text) Record.act rs

theorem readData_log (rs : List Record) : readData (rs.flatMap stepTime) = some (packages rs) := by
  rw [readData, reader_log, packages, Registry.collect]
  generalize [] = ps
  induction rs generalizing ps with
  | nil => rfl
  | cons r rs ih =>
    rw [List.map_cons, List.foldlM_cons, addRow_record]
    exact ih _

/-! ### One step of one package -/

/-- What the three maps of a package have for a step. -/
@[ext]
structure Marks where
  start : Option Int
  stop : Option Int
  duration : Option Int

namespace Marks

def empty : Marks := ⟨none, none, none⟩

/-- The duration is made anew whenever there are a start and an end, whichever is the newer. -/
def withDuration (m : Marks) : Marks :=
  match m.start, m.stop with
  | some start, some stop => { m with duration := some (stop - start) }
  | _, _ => m

def note (m : Marks) (time : Int) : Mark → Marks
  | .start => { m with start := some time }.withDuration
  | .stop => { m with stop := some time }.withDuration

def noteRun (m : Marks) (r : StepRun) : Marks :=
  let m := m.note r.start .start
  match r.stop with
  | none => m
  | some t => m.note t .stop

end Marks

def Package.marks (p : Package) (step : List Char) : Marks :=
  ⟨p.stepsStart.lookup step, p.stepsEnd.lookup step, p.stepsDuration.lookup step⟩

theorem marks_new (name step : List Char) : (Package.new name).marks step = .empty := rfl

theorem lookup_insert (d : Dict) (step k : List Char) (time : Int) :
    (d.insert step time).lookup k = if k = step then some time else d.lookup k := by
  split
  · rename_i hk
    rw [hk, AList.lookup_insert]
  · rename_i hk
    exact AList.lookup_insert_ne hk

theorem marks_setDuration (p : Package) (step k : List Char) : (p.setDuration step).marks k =
    if k = step then (p.marks k).withDuration else p.marks k := by
  unfold Package.setDuration
  split
  · rename_i start stop hstart hstop
    simp only [Package.marks, lookup_insert]
    split
    · rename_i hk
      rw [hk, hstart, hstop]
      rfl
    · rfl
  · rename_i hmissing
    split
    · rename_i hk
      unfold Marks.withDuration
      split
      · rename_i start stop hstart hstop
        exact absurd (hk ▸ hstop) (hmissing start stop (hk ▸ hstart))
      · rfl
    · rfl

theorem marks_addStep (p : Package) (step : List Char) (m : Mark) (time : Int) (k : List Char) :
    (p.addStep step m.text time).marks k =
      if k = step then (p.marks k).note time m else p.marks k := by
  cases m with
  | start =>
    rw [Package.addStep, if_pos (by rfl), marks_setDuration]
    simp only [Package.marks, lookup_insert, Marks.note]
    split <;> rfl
  | stop =>
    rw [Package.addStep, if_neg (by decide), marks_setDuration]
    simp only [Package.marks, lookup_insert, Marks.note]
    split <;> rfl

theorem Step.text_injective : Function.Injective Step.text := by
  intro s s' h
  cases s <;> cases s' <;> first | rfl | exact absurd h (by decide)

theorem marks_foldl_act (rs : List Record) (p : Package) (s : Step) :
    (rs.foldl (fun p r => r.act p) p).marks s.text =
      (rs.filter (·.step = s)).foldl (fun m r => m.note r.time r.mark) (p.marks s.text) := by
  induction rs generalizing p with
  | nil => rfl
  | cons r rs ih =>
    rw [List.foldl_cons, ih, Record.act, marks_addStep]
    by_cases hs : r.step = s
    · rw [if_pos (hs ▸ rfl), List.filter_cons_of_pos (by simpa using hs), List.foldl_cons]
    · rw [if_neg fun h => hs (Step.text_injective h).symm,
        List.filter_cons_of_neg (by simpa using hs)]

theorem marks_foldl_act_of_ne {k : List Char} (hk : ∀ s : Step, k ≠ s.text) (rs : List Record)
    (p : Package) : (rs.foldl (fun p r => r.act p) p).marks k = p.marks k := by
  induction rs generalizing p with
  | nil => rfl
  | cons r rs ih => rw [List.foldl_cons, ih, Record.act, marks_addStep, if_neg (hk r.step)]

/-- The runs of a step of a package. -/
def runsOf (runs : List StepRun) (name : List Char) (s : Step) : List StepRun :=
  runs.filter fun r => r.pkg.text = name ∧ r.step = s

/-- Start and end of the runs that have an end. -/
def completed (runs : List StepRun) : List (Nat × Nat) :=
  runs.filterMap fun r => r.stop.map (r.start, ·)

theorem StepRun.of_mem_records {r : StepRun} {x : Record} (hx : x ∈ r.records) :
    x.pkg = r.pkg ∧ x.step = r.step := by
  rcases List.mem_cons.mp hx with rfl | hx
  · exact ⟨rfl, rfl⟩
  · obtain ⟨t, -, rfl⟩ := Option.map_eq_some_iff.mp (Option.mem_toList.mp hx)
    exact ⟨rfl, rfl⟩

theorem StepRun.foldl_note (r : StepRun) (m : Marks) :
    r.records.foldl (fun m x => m.note x.time x.mark) m = m.noteRun r := by
  unfold StepRun.records Marks.noteRun
  cases r.stop <;> rfl

theorem foldl_note_records (runs : List StepRun) (name : List Char) (s : Step) (m : Marks) :
    ((runs.flatMap StepRun.records).filter fun x => x.step = s ∧ x.pkg.text = name).foldl
      (fun m x => m.note x.time x.mark) m = (runsOf runs name s).foldl Marks.noteRun m := by
  induction runs generalizing m with
  | nil => rfl
  | cons r runs ih =>
    rw [List.flatMap_cons, List.filter_append, List.foldl_append, ih]
    by_cases hr : r.pkg.text = name ∧ r.step = s
    · have hall : (r.records.filter fun x => x.step = s ∧ x.pkg.text = name) = r.records := by
        refine List.filter_eq_self.mpr fun x hx => decide_eq_true ?_
        obtain ⟨hpkg, hstep⟩ := StepRun.of_mem_records hx
        rw [hpkg, hstep]
        exact hr.symm
      have hcons : runsOf (r :: runs) name s = r :: runsOf runs name s :=
        List.filter_cons_of_pos (decide_eq_true hr)
      rw [hall, hcons, r.foldl_note, List.foldl_cons]
    · have hnone : (r.records.filter fun x => x.step = s ∧ x.pkg.text = name) = [] := by
        refine List.filter_eq_nil_iff.mpr fun x hx h => hr ?_
        obtain ⟨hpkg, hstep⟩ := StepRun.of_mem_records hx
        rw [← hpkg, ← hstep]
        exact (of_decide_eq_true h).symm
      have hskip : runsOf (r :: runs) name s = runsOf runs name s :=
        List.filter_cons_of_neg (by simpa using hr)
      rw [hnone, hskip, List.foldl_nil]

/-! ### What the log says of a step -/

namespace Marks

/-- The duration is that between the start and the end, whichever runs they are of. -/
def Paired (m : Marks) : Prop := m.duration = m.stop.bind fun e => m.start.map fun b => e - b

@[simp] theorem withDuration_start (m : Marks) : m.withDuration.start = m.start := by
  unfold withDuration
  split <;> rfl

@[simp] theorem withDuration_stop (m : Marks) : m.withDuration.stop = m.stop := by
  unfold withDuration
  split <;> rfl

theorem Paired.note {m : Marks} (h : m.Paired) (time : Int) (mark : Mark) :
    (m.note time mark).Paired := by
  obtain ⟨start, stop, duration⟩ := m
  cases mark with
  | start =>
    cases stop with
    | none => exact h
    | some stop => rfl
  | stop =>
    cases start with
    | none =>
      cases stop <;> exact h
    | some start => rfl

variable (m : Marks) (r : StepRun)

theorem noteRun_start : (m.noteRun r).start = some (r.start : Int) := by
  unfold noteRun
  cases r.stop <;> simp [note]

theorem noteRun_stop :
    (m.noteRun r).stop = (r.stop.map fun t => (t : Int)).or m.stop := by
  unfold noteRun
  cases r.stop <;> simp [note]

variable {m} in
theorem Paired.noteRun (h : m.Paired) : (m.noteRun r).Paired := by
  unfold Marks.noteRun
  cases r.stop with
  | none => exact h.note _ _
  | some t => exact (h.note _ _).note _ _

theorem paired_runs (rs : List StepRun) : (rs.foldl Marks.noteRun .empty).Paired := by
  induction rs using List.reverseRecOn with
  | nil => rfl
  | append_singleton rs r ih =>
    rw [List.foldl_concat]
    exact ih.noteRun r

theorem start_runs (rs : List StepRun) :
    (rs.foldl Marks.noteRun .empty).start = rs.getLast?.map fun r => (r.start : Int) := by
  induction rs using List.reverseRecOn with
  | nil => rfl
  | append_singleton rs r ih => rw [List.foldl_concat, noteRun_start, List.getLast?_concat]; rfl

theorem stop_runs (rs : List StepRun) :
    (rs.foldl Marks.noteRun .empty).stop = (completed rs).getLast?.map fun w => (w.2 : Int) := by
  induction rs using List.reverseRecOn with
  | nil => rfl
  | append_singleton rs r ih =>
    rw [List.foldl_concat, noteRun_stop, ih, completed, completed, List.filterMap_append]
    cases hstop : r.stop with
    | none => simp [hstop]
    | some t => simp [hstop]

/-- The duration is that of the last completed run exactly if the last run of all has its start. -/
theorem duration_runs_iff (rs : List StepRun) :
    ((rs.foldl Marks.noteRun .empty).duration =
        (completed rs).getLast?.map fun w => (w.2 : Int) - w.1) ↔
      ∀ w ∈ (completed rs).getLast?, ∀ r ∈ rs.getLast?, r.start = w.1 := by
  rw [paired_runs rs, start_runs, stop_runs]
  rcases hw : (completed rs).getLast? with _ | w
  · simp
  · have hrs : rs ≠ [] := by
      rintro rfl
      cases hw
    obtain ⟨r, hr⟩ := Option.ne_none_iff_exists'.mp (mt List.getLast?_eq_none_iff.mp hrs)
    rw [hr]
    simp only [Option.map_some, Option.bind_some, Option.some.injEq, Option.mem_def,
      forall_eq']
    omega

end Marks

theorem name_setDuration (p : Package) (step : List Char) : (p.setDuration step).name = p.name := by
  unfold Package.setDuration
  split <;> rfl

theorem Record.name_act (r : Record) (p : Package) : (r.act p).name = p.name := by
  unfold Record.act Package.addStep
  split <;> rw [name_setDuration]

section packages
variable {runs : List StepRun} {p : Package} (hp : p ∈ packages (runs.flatMap StepRun.records))
include hp

theorem marks_of_mem_packages (s : Step) :
    p.marks s.text = (runsOf runs p.name s).foldl Marks.noteRun .empty := by
  have hrows := Registry.eq_of_mem_collect (fun _ => rfl) Record.name_act hp
  have hboth : ((runs.flatMap StepRun.records).filter fun x => x.step = s ∧ x.pkg.text = p.name) =
      ((runs.flatMap StepRun.records).filter (·.pkg.text = p.name)).filter (·.step = s) := by
    rw [List.filter_filter]
    simp only [Bool.decide_and]
  rw [← foldl_note_records, hboth, ← marks_new p.name s.text, ← marks_foldl_act]
  exact congrArg (Package.marks · s.text) hrows

/-- The maps have no keys but the names of the steps. -/
theorem exists_text_of_mem_keys {k : List Char} (hk : k ∈ p.stepsDuration.keys) :
    ∃ s : Step, k = s.text := by
  by_contra hne
  have hrows := Registry.eq_of_mem_collect (fun _ => rfl) Record.name_act hp
  have hmarks := marks_foldl_act_of_ne (not_exists.mp hne)
    ((runs.flatMap StepRun.records).filter (·.pkg.text = p.name)) (.new p.name)
  have hmissing : p.stepsDuration.lookup k = none := by
    have h := congrArg (fun q : Package => (q.marks k).duration) hrows
    exact h.trans (congrArg Marks.duration hmarks)
  exact AList.lookup_eq_none.mp hmissing (AList.mem_keys.mpr hk)

end packages

/-! ### The durations that the graphs list -/

def allSteps : List Step :=
  [.extract, .patch, .configure, .build, .installTarget, .installStaging, .installImage,
    .installHost]

theorem mem_allSteps (s : Step) : s ∈ allSteps := by cases s <;> decide

/-- The total of a package is the sum over all steps. -/
theorem total_eq {p : Package} (hkeys : ∀ k ∈ p.stepsDuration.keys, ∃ s : Step, k = s.text) :
    p.getDuration none = (allSteps.map fun s => p.getDuration (some s.text)).sum := by
  have hnodup : (allSteps.map Step.text).Nodup :=
    List.Nodup.map Step.text_injective (by decide)
  have hsubset : p.stepsDuration.keys.toFinset ⊆ (allSteps.map Step.text).toFinset := by
    intro k hk
    obtain ⟨s, rfl⟩ := hkeys k (List.mem_toFinset.mp hk)
    exact List.mem_toFinset.mpr (List.mem_map_of_mem (mem_allSteps s))
  have hzero : ∀ k ∈ (allSteps.map Step.text).toFinset, k ∉ p.stepsDuration.keys.toFinset →
      p.getDuration (some k) = 0 := by
    intro k _ hk
    have hmissing : p.stepsDuration.lookup k = none :=
      AList.lookup_eq_none.mpr fun h => hk (List.mem_toFinset.mpr (AList.mem_keys.mp h))
    rw [Package.getDuration, hmissing]
    rfl
  calc p.getDuration none
      = ∑ k ∈ p.stepsDuration.keys.toFinset, p.getDuration (some k) :=
        (List.sum_toFinset _ p.stepsDuration.keys_nodup).symm
    _ = ∑ k ∈ (allSteps.map Step.text).toFinset, p.getDuration (some k) :=
        Finset.sum_subset hsubset hzero
    _ = ((allSteps.map Step.text).map fun k => p.getDuration (some k)).sum :=
        List.sum_toFinset _ hnodup
    _ = (allSteps.map fun s => p.getDuration (some s.text)).sum := by rw [List.map_map]; rfl

/-- Two lists of names that differ at one place. -/
theorem sum_eq_sum_iff (f : List Char → Int) (k : List Char) (s : Step) (pre post : List Step) :
    ((pre.map Step.text ++ k :: post.map Step.text).map f).sum =
        ((pre ++ s :: post).map fun s => f s.text).sum ↔ f k = f s.text := by
  rw [List.map_append, List.map_append, List.sum_append, List.sum_append, List.map_cons,
    List.map_cons, List.sum_cons, List.sum_cons, List.map_map, List.map_map]
  exact (add_right_inj _).trans (add_left_inj _)

/-- `steps` has `install-images` where the log has `install-image`. -/
theorem listed_iff {p : Package} (hkeys : ∀ k ∈ p.stepsDuration.keys, ∃ s : Step, k = s.text) :
    (steps.map fun k => p.getDuration (some k)).sum = p.getDuration none ↔
      p.getDuration (some Step.installImage.text) = 0 := by
  have hmissing : p.stepsDuration.lookup "install-images".toList = none := by
    refine AList.lookup_eq_none.mpr fun h => ?_
    obtain ⟨s, hs⟩ := hkeys _ (AList.mem_keys.mp h)
    cases s <;> exact absurd hs (by decide)
  have himages : p.getDuration (some "install-images".toList) = 0 := by
    rw [Package.getDuration, hmissing]
    rfl
  rw [total_eq hkeys]
  refine (sum_eq_sum_iff _ "install-images".toList .installImage
    [.extract, .patch, .configure, .build, .installTarget, .installStaging] [.installHost]).trans ?_
  rw [himages]
  exact eq_comm

/-! ### The accounting -/

def lastRun (runs : List StepRun) (name : List Char) (s : Step) : Option StepRun :=
  (runsOf runs name s).getLast?

/-- Start and end of the last completed run of a step. -/
def lastCompleted (runs : List StepRun) (name : List Char) (s : Step) : Option (Nat × Nat) :=
  (completed (runsOf runs name s)).getLast?

/-- What the graphs show of a package is what its steps took. -/
structure Accounted (runs : List StepRun) (p : Package) : Prop where
  duration : ∀ s : Step, p.stepsDuration.lookup s.text =
    (lastCompleted runs p.name s).map fun w => (w.2 : Int) - w.1
  nonneg : ∀ s : Step, 0 ≤ p.getDuration (some s.text)
  listed : (steps.map fun k => p.getDuration (some k)).sum = p.getDuration none

/-- The log is read, with one object for each package of it, and every package is accounted. -/
def History.AllAccounted (h : History) : Prop :=
  ∃ ps, readData h.log = some ps ∧ (ps.map Package.name).Nodup ∧
    (∀ name, name ∈ ps.map Package.name ↔ ∃ r ∈ h.runs, r.pkg.text = name) ∧
    ∀ p ∈ ps, Accounted h.runs p

/-- No run that was interrupted is the last of its step after a completed one, but in the very
second in which that one started; and no images are installed in more than a second. -/
structure History.Kept (h : History) : Prop where
  paired : ∀ name s, ∀ w ∈ lastCompleted h.runs name s, ∀ r ∈ lastRun h.runs name s, r.start = w.1
  images : ∀ name, ∀ w ∈ lastCompleted h.runs name .installImage, w.2 = w.1

theorem le_of_mem_lastCompleted {runs : List StepRun} {name : List Char} {s : Step} {w : Nat × Nat}
    (hw : w ∈ lastCompleted runs name s) : w.1 ≤ w.2 := by
  obtain ⟨r, -, hr⟩ := List.mem_filterMap.mp (List.mem_of_getLast? hw)
  obtain ⟨t, ht, rfl⟩ := Option.map_eq_some_iff.mp hr
  exact r.start_le t ht

theorem duration_iff {runs : List StepRun} {p : Package}
    (hp : p ∈ packages (runs.flatMap StepRun.records)) (s : Step) :
    p.stepsDuration.lookup s.text =
        (lastCompleted runs p.name s).map (fun w => (w.2 : Int) - w.1) ↔
      ∀ w ∈ lastCompleted runs p.name s, ∀ r ∈ lastRun runs p.name s, r.start = w.1 := by
  have hmarks := congrArg Marks.duration (marks_of_mem_packages hp s)
  rw [show p.stepsDuration.lookup s.text = (p.marks s.text).duration from rfl, hmarks]
  exact Marks.duration_runs_iff _

/-- A run that was interrupted after a completed one takes its start for the end of that one. -/
theorem nonpos_of_interrupted (h : History) {p : Package}
    (hp : p ∈ packages (h.runs.flatMap StepRun.records)) {s : Step} {w : Nat × Nat}
    (hw : w ∈ lastCompleted h.runs p.name s) {r : StepRun} (hr : r ∈ lastRun h.runs p.name s)
    (hstop : r.stop = none) : ∃ d ≤ 0, p.stepsDuration.lookup s.text = some d := by
  have hmarks := congrArg Marks.duration (marks_of_mem_packages hp s)
  rw [Marks.paired_runs, Marks.start_runs, Marks.stop_runs] at hmarks
  refine ⟨(w.2 : Int) - r.start, ?_, ?_⟩
  · obtain ⟨pre, hpre⟩ := List.getLast?_eq_some_iff.mp hr
    have hserial : (pre ++ [r]).Pairwise fun r r' => r.stop.getD r.start ≤ r'.start :=
      hpre ▸ h.serial.sublist List.filter_sublist
    have hmem : w ∈ completed pre := by
      rw [lastCompleted, hpre, completed, List.filterMap_append] at hw
      simpa [hstop, completed] using List.mem_of_getLast? hw
    obtain ⟨r', hr', hw'⟩ := List.mem_filterMap.mp hmem
    obtain ⟨t, ht, rfl⟩ := Option.map_eq_some_iff.mp hw'
    have hle := (List.pairwise_append.mp hserial).2.2 r' hr' r (List.mem_singleton_self r)
    rw [ht] at hle
    have hstart : t ≤ r.start := hle
    show (t : Int) - r.start ≤ 0
    omega
  · rw [show (completed (runsOf h.runs p.name s)).getLast? = some w from hw,
      show (runsOf h.runs p.name s).getLast? = some r from hr] at hmarks
    exact hmarks

theorem accounted_iff {runs : List StepRun} {p : Package}
    (hp : p ∈ packages (runs.flatMap StepRun.records)) : Accounted runs p ↔
      (∀ s, ∀ w ∈ lastCompleted runs p.name s, ∀ r ∈ lastRun runs p.name s, r.start = w.1) ∧
        ∀ w ∈ lastCompleted runs p.name .installImage, w.2 = w.1 := by
  have hlisted := listed_iff fun k => exists_text_of_mem_keys hp
  have hget : ∀ s : Step, p.stepsDuration.lookup s.text =
      (lastCompleted runs p.name s).map (fun w => (w.2 : Int) - w.1) →
      p.getDuration (some s.text) =
        ((lastCompleted runs p.name s).map fun w => (w.2 : Int) - w.1).getD 0 :=
    fun s hs => congrArg (Option.getD · 0) hs
  constructor
  · intro h
    refine ⟨fun s => (duration_iff hp s).mp (h.duration s), fun w hw => ?_⟩
    have hzero := hlisted.mp h.listed
    rw [hget _ (h.duration _), Option.mem_def.mp hw] at hzero
    have hsub : (w.2 : Int) - w.1 = 0 := hzero
    omega
  · rintro ⟨hpaired, himages⟩
    have hduration := fun s => (duration_iff hp s).mpr (hpaired s)
    refine ⟨hduration, fun s => ?_, hlisted.mpr ?_⟩
    · rw [hget s (hduration s)]
      rcases hw : lastCompleted runs p.name s with _ | w
      · exact le_rfl
      · have hle := le_of_mem_lastCompleted hw
        show (0 : Int) ≤ (w.2 : Int) - w.1
        omega
    · rw [hget _ (hduration _)]
      rcases hw : lastCompleted runs p.name .installImage with _ | w
      · rfl
      · have heq := himages w hw
        show (w.2 : Int) - w.1 = 0
        omega

theorem mem_names_packages {runs : List StepRun} {name : List Char} :
    name ∈ (packages (runs.flatMap StepRun.records)).map Package.name ↔
      ∃ r ∈ runs, r.pkg.text = name := by
  rw [packages, Registry.mem_keys_collect (fun _ => rfl) Record.name_act]
  constructor
  · rintro ⟨x, hx, rfl⟩
    obtain ⟨r, hr, hx⟩ := List.mem_flatMap.mp hx
    exact ⟨r, hr, by rw [(StepRun.of_mem_records hx).1]⟩
  · rintro ⟨r, hr, rfl⟩
    exact ⟨_, List.mem_flatMap.mpr ⟨r, hr, List.mem_cons_self⟩, rfl⟩

theorem exists_run_of_mem_lastCompleted {runs : List StepRun} {name : List Char} {s : Step}
    {w : Nat × Nat} (hw : w ∈ lastCompleted runs name s) : ∃ r ∈ runs, r.pkg.text = name := by
  obtain ⟨r, hr, -⟩ := List.mem_filterMap.mp (List.mem_of_getLast? hw)
  obtain ⟨hr, hof⟩ := List.mem_filter.mp hr
  exact ⟨r, hr, (of_decide_eq_true hof).1⟩

theorem History.allAccounted_iff (h : History) : h.AllAccounted ↔ h.Kept := by
  have hread : readData h.log = some (packages (h.runs.flatMap StepRun.records)) :=
    readData_log _
  constructor
  · rintro ⟨ps, hps, -, -, hall⟩
    obtain rfl := Option.some.inj (hread.symm.trans hps)
    have hkept : ∀ name s, ∀ w ∈ lastCompleted h.runs name s,
        ∃ p ∈ packages (h.runs.flatMap StepRun.records), p.name = name := by
      intro name s w hw
      exact List.mem_map.mp (mem_names_packages.mpr (exists_run_of_mem_lastCompleted hw))
    constructor
    · intro name s w hw
      obtain ⟨p, hp, rfl⟩ := hkept name s w hw
      exact ((accounted_iff hp).mp (hall p hp)).1 s w hw
    · intro name w hw
      obtain ⟨p, hp, rfl⟩ := hkept name _ w hw
      exact ((accounted_iff hp).mp (hall p hp)).2 w hw
  · intro hkept
    refine ⟨_, hread, ?_, fun name => mem_names_packages, fun p hp => ?_⟩
    · exact Registry.nodup_keys_collect (fun _ => rfl) Record.name_act _
    · exact (accounted_iff hp).mpr ⟨hkept.paired p.name, hkept.images p.name⟩

def uboot : PkgName := ⟨"uboot".toList, List.all_eq_true.mp rfl⟩

/-- A first build of a package that installs an image, which takes three seconds. -/
def ubootBuild : History where
  runs :=
    [⟨uboot, .extract, 0, some 1, by simp⟩, ⟨uboot, .patch, 1, some 1, by simp⟩,
      ⟨uboot, .configure, 1, some 2, by simp⟩, ⟨uboot, .build, 2, some 9, by simp⟩,
      ⟨uboot, .installImage, 9, some 12, by simp⟩]
  serial := by simp

theorem not_allAccounted : ¬ ∀ h : History, h.AllAccounted := by
  intro hall
  obtain ⟨ps, hps, -, -, haccounted⟩ := hall ubootBuild
  obtain rfl := Option.some.inj ((readData_log _).symm.trans hps)
  obtain ⟨p, hp, hname⟩ : ∃ p ∈ packages (ubootBuild.runs.flatMap StepRun.records),
      p.name = uboot.text :=
    List.mem_map.mp (mem_names_packages.mpr ⟨_, List.mem_cons_self, rfl⟩)
  have himages := ((accounted_iff hp).mp (haccounted p hp)).2 (9, 12)
  rw [hname] at himages
  exact absurd (himages rfl) (by decide)

end Dir842.BuildTime
